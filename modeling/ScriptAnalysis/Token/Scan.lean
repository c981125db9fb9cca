import ScriptAnalysis.Token.Basic

/-!
# Cutting a text into tokens

`scan` reads a text from the front; at each place the
longest lexeme of any class is cut off.  Nothing is skipped: what no class admits becomes
an error token, so the lexemes always join up to the text.

One function per class (`blanks`, `word`, `number`, `quoted`, `comment`, `symbol`) splits
the characters after the first one into the rest of the lexeme and the rest of the text.
`cut_splits` states that a cut loses nothing, which is also why the scan ends.
-/

namespace ScriptAnalysis.Scan

def isBlank (c : Char) : Bool := c == ' ' || c == '\t' || c == '\r' || c == '\x0c'

def isWordStart (c : Char) : Bool := c.isAlpha || c == '_' || c == '$'

def isWordPart (c : Char) : Bool := c.isAlphanum || c == '_' || c == '$'

def isQuote (c : Char) : Bool := c == '"' || c == '\''

/-- What is cut off after a first character: the kind of the lexeme, its remaining
    characters, and what follows it. -/
structure Cut where
  kind : TokenKind
  tail : List Char
  rest : List Char

def Cut.Splits (p : Cut) (cs : List Char) : Prop := p.tail ++ p.rest = cs

/-- The longest run of characters of one class. -/
def run (kind : TokenKind) (p : Char → Bool) (cs : List Char) : Cut :=
  ⟨kind, cs.takeWhile p, cs.dropWhile p⟩

def optional (p : Char → Bool) : List Char → List Char × List Char
  | [] => ([], [])
  | c :: cs => if p c then ([c], cs) else ([], c :: cs)

def blanks (cs : List Char) : Cut := run .whitespace isBlank cs

/-- A word that starts with `c`: a keyword or a name. -/
def word (c : Char) (cs : List Char) : Cut :=
  let tail := cs.takeWhile isWordPart
  ⟨TokenKind.ofWord (String.ofList (c :: tail)), tail, cs.dropWhile isWordPart⟩

/-- Digits, then either a point, digits and an optional `d` (a decimal), or an optional `l`
    (an integer).  A point that no digit follows is left alone. -/
def number (cs : List Char) : Cut :=
  let whole := cs.takeWhile Char.isDigit
  match cs.dropWhile Char.isDigit with
  | '.' :: d :: after =>
    if d.isDigit then
      let (suffix, rest) := optional (fun c => c == 'd' || c == 'D') (after.dropWhile Char.isDigit)
      ⟨.decimalLiteral, whole ++ '.' :: d :: (after.takeWhile Char.isDigit ++ suffix), rest⟩
    else ⟨.intLiteral, whole, '.' :: d :: after⟩
  | after =>
    let (suffix, rest) := optional (fun c => c == 'l' || c == 'L') after
    ⟨.intLiteral, whole ++ suffix, rest⟩

/-- The longest sequence of complete units of a string with this quote.  A unit is a
    character other than the quote, a backslash and a line end, or a backslash and the
    character after it, unless that ends the line. -/
def units (quote : Char) : List Char → List Char × List Char
  | [] => ([], [])
  | ['\\'] => ([], ['\\'])
  | '\\' :: e :: cs =>
    if e == '\n' then ([], '\\' :: e :: cs)
    else
      let (unit, rest) := units quote cs
      ('\\' :: e :: unit, rest)
  | c :: cs =>
    if c == quote || c == '\n' then ([], c :: cs)
    else
      let (unit, rest) := units quote cs
      (c :: unit, rest)

/-- A string opened by `quote`.  Without the closing quote the opening one and all complete
    units are one error. -/
def quoted (quote : Char) (cs : List Char) : Cut :=
  let (body, rest) := units quote cs
  match rest with
  | [] => ⟨.error, body, []⟩
  | c :: after =>
    if c == quote then ⟨.stringLiteral, body ++ [c], after⟩ else ⟨.error, body, c :: after⟩

/-- The text up to and including the first `*/`. -/
def commentBody : List Char → Option (List Char × List Char)
  | [] => none
  | ['*'] => none
  | '*' :: '/' :: cs => some (['*', '/'], cs)
  | c :: cs => (commentBody cs).map fun (body, rest) => (c :: body, rest)

/-- What starts with a slash: a comment to the end of the line, a comment to the first `*/`
    (an error to the end of the text if there is none), or the slash. -/
def comment (cs : List Char) : Cut :=
  match cs with
  | '/' :: after => ⟨.lineComment, '/' :: after.takeWhile (· != '\n'), after.dropWhile (· != '\n')⟩
  | '*' :: after =>
    match commentBody after with
    | some (body, rest) => ⟨.blockComment, '*' :: body, rest⟩
    | none => ⟨.error, '*' :: after, []⟩
  | cs => ⟨.slash, [], cs⟩

def pairKind : Char → Char → Option TokenKind
  | '-', '>' => some .arrow
  | '=', '=' => some .equalEqual
  | '!', '=' => some .bangEqual
  | '<', '=' => some .lessEqual
  | '>', '=' => some .greaterEqual
  | '&', '&' => some .ampAmp
  | '|', '|' => some .pipePipe
  | _, _ => none

/-- Operators and marks of one character; any other character is an error by itself. -/
def singleKind : Char → TokenKind
  | '(' => .leftParen
  | ')' => .rightParen
  | '{' => .leftBrace
  | '}' => .rightBrace
  | '[' => .leftSquare
  | ']' => .rightSquare
  | ',' => .comma
  | ';' => .semicolon
  | '.' => .dot
  | ':' => .colon
  | '?' => .question
  | '=' => .equal
  | '!' => .bang
  | '<' => .less
  | '>' => .greater
  | '+' => .plus
  | '-' => .minus
  | '*' => .star
  | '%' => .percent
  | _ => .error

/-- An operator, a mark, or a character that starts no token.  Two characters go before
    one. -/
def symbol (c : Char) (cs : List Char) : Cut :=
  match cs with
  | [] => ⟨singleKind c, [], []⟩
  | d :: after =>
    match pairKind c d with
    | some kind => ⟨kind, [d], after⟩
    | none => ⟨singleKind c, [], d :: after⟩

/-- The longest lexeme that starts with `c`. -/
def cut (c : Char) (cs : List Char) : Cut :=
  if isBlank c then blanks cs
  else if c == '\n' then ⟨.newline, [], cs⟩
  else if isWordStart c then word c cs
  else if c.isDigit then number cs
  else if isQuote c then quoted c cs
  else if c == '/' then comment cs
  else symbol c cs

/-! ### A cut loses nothing -/

theorem run_splits (kind : TokenKind) (p : Char → Bool) (cs : List Char) :
    (run kind p cs).Splits cs := List.takeWhile_append_dropWhile

theorem optional_append (p : Char → Bool) (cs : List Char) :
    (optional p cs).1 ++ (optional p cs).2 = cs := by
  cases cs with
  | nil => rfl
  | cons c cs => by_cases h : p c <;> simp [optional, h]

theorem word_splits (c : Char) (cs : List Char) : (word c cs).Splits cs :=
  List.takeWhile_append_dropWhile

theorem number_splits (cs : List Char) : (number cs).Splits cs := by
  have whole : cs.takeWhile Char.isDigit ++ cs.dropWhile Char.isDigit = cs :=
    List.takeWhile_append_dropWhile
  unfold number Cut.Splits
  split
  · rename_i d after h
    rw [h] at whole
    have suffix := optional_append (fun c => c == 'd' || c == 'D') (after.dropWhile Char.isDigit)
    split
    · simp only [List.append_assoc, List.cons_append, suffix,
        List.takeWhile_append_dropWhile]
      exact whole
    · exact whole
  · rename_i after _
    have suffix := optional_append (fun c => c == 'l' || c == 'L') (cs.dropWhile Char.isDigit)
    simp only [List.append_assoc, suffix]
    exact whole

theorem units_append (quote : Char) (cs : List Char) :
    (units quote cs).1 ++ (units quote cs).2 = cs := by
  fun_induction units quote cs <;> simp_all

theorem quoted_splits (quote : Char) (cs : List Char) : (quoted quote cs).Splits cs := by
  have h := units_append quote cs
  unfold quoted Cut.Splits
  generalize units quote cs = p at h ⊢
  obtain ⟨body, rest⟩ := p
  cases rest with
  | nil => simpa using h
  | cons c after =>
    dsimp only
    split
    · simpa using h
    · exact h

theorem commentBody_append {cs body rest : List Char} (h : commentBody cs = some (body, rest)) :
    body ++ rest = cs := by
  fun_induction commentBody cs generalizing body rest with
  | case1 => simp at h
  | case2 => simp at h
  | case3 cs =>
    simp only [Option.some.injEq, Prod.mk.injEq] at h
    obtain ⟨rfl, rfl⟩ := h
    rfl
  | case4 c cs _ _ ih =>
    obtain ⟨⟨b, r⟩, hb, he⟩ := Option.map_eq_some_iff.1 h
    simp only [Prod.mk.injEq] at he
    obtain ⟨rfl, rfl⟩ := he
    simp [ih hb]

theorem comment_splits (cs : List Char) : (comment cs).Splits cs := by
  unfold comment Cut.Splits
  split
  · simp [List.takeWhile_append_dropWhile]
  · rename_i after
    split
    · rename_i body rest h
      simp [commentBody_append h]
    · simp
  · rfl

theorem symbol_splits (c : Char) (cs : List Char) : (symbol c cs).Splits cs := by
  unfold symbol Cut.Splits
  split
  · rfl
  · split <;> rfl

/-- The rest of the lexeme and the rest of the text are what stood after the first
    character. -/
theorem cut_splits (c : Char) (cs : List Char) : (cut c cs).Splits cs := by
  unfold cut
  split
  · exact run_splits ..
  split
  · rfl
  split
  · exact word_splits ..
  split
  · exact number_splits ..
  split
  · exact quoted_splits ..
  split
  · exact comment_splits ..
  · exact symbol_splits ..

theorem cut_rest_length (c : Char) (cs : List Char) : (cut c cs).rest.length ≤ cs.length := by
  have h : (cut c cs).tail ++ (cut c cs).rest = cs := cut_splits c cs
  have := congrArg List.length h
  simp at this
  omega

/-- The number of bytes of a list of characters. -/
def width : List Char → Nat
  | [] => 0
  | c :: cs => c.utf8Size + width cs

/-- The tokens of the characters that start at `offset`, the end of the text last. -/
def tokensFrom (offset : Nat) : List Char → List Token
  | [] => [⟨.eof, .point offset⟩]
  | c :: cs =>
    let p := cut c cs
    let stop := offset + width (c :: p.tail)
    ⟨p.kind, ⟨offset, stop⟩⟩ :: tokensFrom stop p.rest
termination_by cs => cs.length
decreasing_by
  have := cut_rest_length c cs
  simp only [List.length_cons]
  omega

end Scan

def scan (text : String) : List Token := Scan.tokensFrom 0 text.toList

end ScriptAnalysis
