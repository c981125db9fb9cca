import Mathlib.Data.List.Infix
import Mathlib.Data.List.TakeWhile
import ScriptAnalysis.Proofs.Token.Spelling

/-!
# Token rules

`TokenRule kind lexeme` says which characters are a token of which kind, with no regard to what
stands around them.  The first character of a lexeme tells its rule (`TokenRule.tail`), and behind
that character each class is a run, a string, a comment or a number of its own.
-/

namespace ScriptAnalysis

/-- Complete units of a string with this quote: a character that means nothing there, or one that is
    escaped. -/
inductive Units (quote : Char) : List Char → Prop
  | nil : Units quote []
  | plain {c : Char} {cs : List Char} :
      c ≠ quote → c ≠ '\\' → c ≠ '\n' → Units quote cs → Units quote (c :: cs)
  | escaped {c : Char} {cs : List Char} : c ≠ '\n' → Units quote cs → Units quote ('\\' :: c :: cs)

/-- What no unit and no quote starts: the end, a line end, and a backslash in front of these. -/
inductive Broken : List Char → Prop
  | ended : Broken []
  | line (rest : List Char) : Broken ('\n' :: rest)
  | backslash : Broken ['\\']
  | backslashLine (rest : List Char) : Broken ('\\' :: '\n' :: rest)

/-- The `*/` behind these characters is the first one. -/
def ClosesFirst (body : List Char) : Prop := ¬ ['*', '/'] <:+: body ++ ['*']

/-- The characters that a token of a kind is made of. -/
inductive TokenRule : TokenKind → List Char → Prop
  | whitespace {c : Char} {cs : List Char} :
      (∀ d ∈ c :: cs, Scan.isBlank d = true) → TokenRule .whitespace (c :: cs)
  | newline : TokenRule .newline ['\n']
  | lineComment {cs : List Char} : '\n' ∉ cs → TokenRule .lineComment ('/' :: '/' :: cs)
  | blockComment {body : List Char} :
      ClosesFirst body → TokenRule .blockComment ('/' :: '*' :: (body ++ ['*', '/']))
  | spelled {kind : TokenKind} {c : Char} {cs : List Char} :
      kind.spelling = some (String.ofList (c :: cs)) → TokenRule kind (c :: cs)
  | int {c : Char} {cs suffix : List Char} :
      (∀ d ∈ c :: cs, d.isDigit = true) → suffix ∈ [[], ['l'], ['L']] →
        TokenRule .intLiteral (c :: (cs ++ suffix))
  | decimal {c d : Char} {cs ds suffix : List Char} :
      (∀ e ∈ c :: cs, e.isDigit = true) → (∀ e ∈ d :: ds, e.isDigit = true) →
        suffix ∈ [[], ['d'], ['D']] →
        TokenRule .decimalLiteral (c :: (cs ++ '.' :: d :: (ds ++ suffix)))
  | string {quote : Char} {body : List Char} :
      Scan.isQuote quote = true → Units quote body →
        TokenRule .stringLiteral (quote :: (body ++ [quote]))
  | ident {c : Char} {cs : List Char} :
      Scan.isWordStart c = true → (∀ d ∈ cs, Scan.isWordPart d = true) → TokenRule .ident (c :: cs)

namespace Scan

/-! ### Classes of characters -/

theorem isBlank_cases {c : Char} (h : isBlank c = true) :
    c = ' ' ∨ c = '\t' ∨ c = '\r' ∨ c = '\x0c' := by
  simpa [isBlank, or_assoc] using h

theorem isQuote_cases {c : Char} (h : isQuote c = true) : c = '"' ∨ c = '\'' := by
  simpa [isQuote] using h

/-- A word starts with no blank and no line end. -/
theorem isWordStart_class {c : Char} (h : isWordStart c = true) :
    isBlank c = false ∧ (c == '\n') = false := by
  constructor
  · by_contra hb
    rcases isBlank_cases (Bool.not_eq_false _ ▸ hb) with rfl | rfl | rfl | rfl <;> cases h
  · by_contra hl
    rw [Bool.not_eq_false, beq_iff_eq] at hl
    subst hl
    cases h

/-- A digit starts neither a blank nor a line end nor a word. -/
theorem isDigit_class {c : Char} (h : c.isDigit = true) :
    isBlank c = false ∧ (c == '\n') = false ∧ isWordStart c = false := by
  refine ⟨?_, ?_, ?_⟩
  · by_contra hb
    rcases isBlank_cases (Bool.not_eq_false _ ▸ hb) with rfl | rfl | rfl | rfl <;> cases h
  · by_contra hl
    rw [Bool.not_eq_false, beq_iff_eq] at hl
    subst hl
    cases h
  · simp only [Char.isDigit, Bool.and_eq_true, decide_eq_true_eq] at h
    by_contra hstart
    have hstart : (decide (c.val ≥ 'A'.val ∧ c.val ≤ 'Z'.val) ||
        c.val ≥ 'a'.val && c.val ≤ 'z'.val || c == '_' || c == '$') = true := by
      rwa [Bool.not_eq_false] at hstart
    simp only [Bool.or_eq_true, Bool.and_eq_true, decide_eq_true_eq, beq_iff_eq] at hstart
    have hle : c.val ≤ 57 := h.2
    rcases hstart with ((hupper | hlower) | rfl) | rfl
    · exact absurd (UInt32.le_trans hupper.1 hle) (by decide)
    · exact absurd (UInt32.le_trans hlower.1 hle) (by decide)
    · exact absurd hle (by decide)
    · exact absurd h.1 (by decide)

end Scan

/-! ### What a rule says behind the first character -/

/-- The rest of a lexeme, in the order in which a scan asks for the class of its first character. -/
def TokenRule.Tail (kind : TokenKind) (c : Char) (cs : List Char) : Prop :=
  if Scan.isBlank c then kind = .whitespace ∧ ∀ d ∈ cs, Scan.isBlank d = true
  else if c == '\n' then kind = .newline ∧ cs = []
  else if Scan.isWordStart c then
    (kind = .ident ∨ kind = .ofWord (String.ofList (c :: cs))) ∧
      ∀ d ∈ cs, Scan.isWordPart d = true
  else if c.isDigit then
    ∃ ds, (∀ d ∈ ds, d.isDigit = true) ∧
      ((kind = .intLiteral ∧ ∃ suffix ∈ [[], ['l'], ['L']], cs = ds ++ suffix) ∨
       (kind = .decimalLiteral ∧ ∃ e es, (∀ d ∈ e :: es, d.isDigit = true) ∧
          ∃ suffix ∈ [[], ['d'], ['D']], cs = ds ++ '.' :: e :: (es ++ suffix)))
  else if Scan.isQuote c then kind = .stringLiteral ∧ ∃ body, Units c body ∧ cs = body ++ [c]
  else if c == '/' then
    (kind = .slash ∧ cs = []) ∨ (kind = .lineComment ∧ ∃ body, '\n' ∉ body ∧ cs = '/' :: body) ∨
      (kind = .blockComment ∧ ∃ body, ClosesFirst body ∧ cs = '*' :: (body ++ ['*', '/']))
  else kind ≠ .error ∧
    ((kind = Scan.singleKind c ∧ cs = []) ∨ ∃ d, Scan.pairKind c d = some kind ∧ cs = [d])

theorem spelled_tail {kind : TokenKind} {c : Char} {cs : List Char}
    (h : kind.spelling = some (String.ofList (c :: cs))) : TokenRule.Tail kind c cs := by
  have hchars : ∀ text, kind.spelling = some text → text.toList = c :: cs := by
    intro text htext
    rw [h] at htext
    rw [← Option.some.inj htext, String.toList_ofList]
  cases kind
  case whitespace | newline | lineComment | blockComment | ident | intLiteral | decimalLiteral |
      stringLiteral | error | eof => cases h
  case slash =>
    obtain ⟨rfl, rfl⟩ := List.cons.inj (hchars _ rfl)
    exact .inl ⟨rfl, rfl⟩
  case arrow | equalEqual | bangEqual | lessEqual | greaterEqual | ampAmp | pipePipe =>
    obtain ⟨rfl, rfl⟩ := List.cons.inj (hchars _ rfl)
    exact And.intro (by decide) (.inr ⟨_, rfl, rfl⟩)
  case leftParen | rightParen | leftBrace | rightBrace | leftSquare | rightSquare | comma |
      semicolon | dot | colon | question | equal | bang | less | greater | plus | minus | star |
      percent =>
    obtain ⟨rfl, rfl⟩ := List.cons.inj (hchars _ rfl)
    exact And.intro (by decide) (.inl ⟨rfl, rfl⟩)
  -- The kinds that are left are words.
  all_goals
    obtain ⟨rfl, rfl⟩ := List.cons.inj (hchars _ rfl)
    exact And.intro (.inr (by decide)) (List.all_eq_true.mp (by decide))

/-- The class of its first character says which rule a lexeme is of. -/
theorem TokenRule.tail {kind : TokenKind} {c : Char} {cs : List Char}
    (h : TokenRule kind (c :: cs)) : TokenRule.Tail kind c cs := by
  generalize hchars : c :: cs = chars at h
  cases h with
  | whitespace hblank =>
    obtain ⟨rfl, rfl⟩ := List.cons.inj hchars
    rw [TokenRule.Tail, if_pos (hblank c List.mem_cons_self)]
    exact ⟨rfl, fun d hd => hblank d (List.mem_cons_of_mem c hd)⟩
  | newline =>
    obtain ⟨rfl, rfl⟩ := List.cons.inj hchars
    exact ⟨rfl, rfl⟩
  | lineComment hline =>
    obtain ⟨rfl, rfl⟩ := List.cons.inj hchars
    exact .inr (.inl ⟨rfl, _, hline, rfl⟩)
  | blockComment hcloses =>
    obtain ⟨rfl, rfl⟩ := List.cons.inj hchars
    exact .inr (.inr ⟨rfl, _, hcloses, rfl⟩)
  | spelled hspelled =>
    obtain ⟨rfl, rfl⟩ := List.cons.inj hchars
    exact spelled_tail hspelled
  | int hdigits hsuffix =>
    obtain ⟨rfl, rfl⟩ := List.cons.inj hchars
    have hdigit := hdigits c List.mem_cons_self
    obtain ⟨hblank, hline, hword⟩ := Scan.isDigit_class hdigit
    rw [TokenRule.Tail, hblank, hline, hword, if_neg Bool.false_ne_true, if_neg Bool.false_ne_true,
      if_neg Bool.false_ne_true, if_pos hdigit]
    exact ⟨_, fun d hd => hdigits d (List.mem_cons_of_mem c hd), .inl ⟨rfl, _, hsuffix, rfl⟩⟩
  | decimal hdigits hfraction hsuffix =>
    obtain ⟨rfl, rfl⟩ := List.cons.inj hchars
    have hdigit := hdigits c List.mem_cons_self
    obtain ⟨hblank, hline, hword⟩ := Scan.isDigit_class hdigit
    rw [TokenRule.Tail, hblank, hline, hword, if_neg Bool.false_ne_true, if_neg Bool.false_ne_true,
      if_neg Bool.false_ne_true, if_pos hdigit]
    exact ⟨_, fun d hd => hdigits d (List.mem_cons_of_mem c hd),
      .inr ⟨rfl, _, _, hfraction, _, hsuffix, rfl⟩⟩
  | string hquote hunits =>
    obtain ⟨rfl, rfl⟩ := List.cons.inj hchars
    rcases Scan.isQuote_cases hquote with rfl | rfl
    · exact ⟨rfl, _, hunits, rfl⟩
    · exact ⟨rfl, _, hunits, rfl⟩
  | ident hstart hpart =>
    obtain ⟨rfl, rfl⟩ := List.cons.inj hchars
    obtain ⟨hblank, hline⟩ := Scan.isWordStart_class hstart
    rw [TokenRule.Tail, hblank, hline, if_neg Bool.false_ne_true, if_neg Bool.false_ne_true,
      if_pos hstart]
    exact ⟨.inl rfl, hpart⟩

/-! ### Runs -/

/-- A run of characters of one class ends in front of a character of another. -/
theorem span_append {p : Char → Bool} {run rest : List Char} (hrun : ∀ c ∈ run, p c = true)
    (hrest : ∀ c ∈ rest.head?, p c = false) :
    (run ++ rest).takeWhile p = run ∧ (run ++ rest).dropWhile p = rest := by
  rw [List.takeWhile_append_of_pos hrun, List.dropWhile_append_of_pos hrun]
  cases rest with
  | nil => simp
  | cons c rest => simp [hrest c rfl]

namespace Scan

/-- A prefix of one class is part of the run of this class. -/
theorem length_le_takeWhile {p : Char → Bool} {chars cs : List Char} (h : chars <+: cs)
    (hall : ∀ c ∈ chars, p c = true) : chars.length ≤ (cs.takeWhile p).length := by
  obtain ⟨rest, rfl⟩ := h
  rw [List.takeWhile_append_of_pos hall, List.length_append]
  exact Nat.le_add_right _ _

theorem mem_takeWhile {p : Char → Bool} {cs : List Char} :
    ∀ c ∈ cs.takeWhile p, p c = true := fun _ => List.mem_takeWhile_imp

/-! ### Strings -/

/-- The units of a string and what stands behind them. -/
theorem units_spec (quote : Char) (cs : List Char) :
    Units quote (units quote cs).1 ∧
      (Broken (units quote cs).2 ∨ ∃ rest, (units quote cs).2 = quote :: rest) := by
  fun_induction units quote cs with
  | case1 => exact ⟨.nil, .inl .ended⟩
  | case2 => exact ⟨.nil, .inl .backslash⟩
  | case3 e cs hline =>
    rw [beq_iff_eq.mp hline]
    exact ⟨.nil, .inl (.backslashLine cs)⟩
  | case4 e cs hline unit rest heq ih =>
    rw [heq] at ih
    exact ⟨.escaped (by simpa using hline) ih.1, ih.2⟩
  | case5 c cs hlast hescape hstop =>
    refine ⟨.nil, ?_⟩
    rcases Bool.or_eq_true_iff.mp hstop with h | h
    · exact .inr ⟨cs, by rw [beq_iff_eq.mp h]⟩
    · rw [beq_iff_eq.mp h]
      exact .inl (.line cs)
  | case6 c cs hlast hescape hstop unit rest heq ih =>
    rw [heq] at ih
    rw [Bool.not_eq_true, Bool.or_eq_false_iff, beq_eq_false_iff_ne, beq_eq_false_iff_ne] at hstop
    refine ⟨.plain hstop.1 ?_ hstop.2 ih.1, ih.2⟩
    rintro rfl
    cases cs with
    | nil => exact hlast rfl rfl
    | cons e cs => exact hescape e cs rfl rfl

/-- Units are read up to where they are broken off or closed. -/
theorem units_append_of {quote : Char} (hquote : isQuote quote = true) {body rest : List Char}
    (hbody : Units quote body) (hrest : Broken rest ∨ ∃ more, rest = quote :: more) :
    units quote (body ++ rest) = (body, rest) := by
  have hslash : quote ≠ '\\' := by
    rintro rfl
    cases hquote
  induction hbody with
  | nil =>
    rcases hrest with hrest | ⟨more, rfl⟩
    · cases hrest <;> simp [units]
    · simp [units, hslash]
  | @plain c cs hne hescape hline _ ih =>
    rw [List.cons_append, units.eq_4 _ _ _ (fun h => absurd h hescape)
      (fun _ _ h => absurd h hescape), ih]
    simp [hne, hline]
  | @escaped c cs hline _ ih =>
    rw [List.cons_append, List.cons_append, units, ih]
    simp [hline]

/-- A string is closed, or broken off. -/
theorem quoted_cases {quote : Char} (hquote : isQuote quote = true) (cs : List Char) :
    ∃ body, Units quote body ∧
      ((∃ rest, cs = body ++ quote :: rest ∧
        quoted quote cs = ⟨.stringLiteral, body ++ [quote], rest⟩) ∨
      ∃ rest, cs = body ++ rest ∧ Broken rest ∧ quoted quote cs = ⟨.error, body, rest⟩) := by
  obtain ⟨hbody, hrest⟩ := units_spec quote cs
  have happend := units_append quote cs
  unfold quoted
  generalize units quote cs = p at hbody hrest happend
  obtain ⟨body, rest⟩ := p
  refine ⟨body, hbody, ?_⟩
  rcases hrest with hbroken | ⟨more, rfl⟩
  · refine .inr ⟨rest, happend.symm, hbroken, ?_⟩
    cases rest with
    | nil => rfl
    | cons d rest =>
      have hne : d ≠ quote := by
        rintro rfl
        cases hbroken <;> cases hquote
      simp [hne]
  · exact .inl ⟨more, happend.symm, by simp⟩

/-! ### Comments -/

/-- The text up to the first `*/`. -/
theorem commentBody_spec (cs : List Char) :
    (commentBody cs = none ∧ ¬ ['*', '/'] <:+: cs) ∨
      ∃ body rest, commentBody cs = some (body ++ ['*', '/'], rest) ∧ ClosesFirst body := by
  fun_induction commentBody cs with
  | case1 => exact .inl ⟨rfl, by decide⟩
  | case2 => exact .inl ⟨rfl, by decide⟩
  | case3 cs => exact .inr ⟨[], cs, rfl, by unfold ClosesFirst; decide⟩
  | case4 c cs hstar hclose ih =>
    rcases ih with ⟨hnone, hopen⟩ | ⟨body, rest, hsome, hfirst⟩
    · refine .inl ⟨by rw [hnone]; rfl, fun h => ?_⟩
      rcases List.infix_cons_iff.mp h with h | h
      · obtain ⟨more, h⟩ := h
        obtain ⟨rfl, rfl⟩ := List.cons.inj h
        exact hclose more rfl rfl
      · exact hopen h
    · refine .inr ⟨c :: body, rest, by rw [hsome]; rfl, fun h => ?_⟩
      rcases List.infix_cons_iff.mp h with h | h
      · -- A `*/` that starts with this character would have closed the comment here.
        obtain ⟨more, h⟩ := h
        obtain ⟨rfl, hmore⟩ := List.cons.inj h
        have hcs := commentBody_append hsome
        cases body with
        | nil => cases hmore
        | cons d body =>
          obtain ⟨rfl, -⟩ := List.cons.inj hmore
          exact hclose _ rfl hcs.symm
      · exact hfirst h

/-- No comment is closed after its first `*/`. -/
theorem length_le_of_closesFirst {body other rest more : List Char} (h : ClosesFirst other)
    (heq : body ++ ['*', '/'] ++ rest = other ++ ['*', '/'] ++ more) :
    other.length ≤ body.length := by
  by_contra hlt
  have hpre : body ++ ['*', '/'] <+: other ++ ['*'] := by
    refine List.prefix_of_prefix_length_le ⟨rest, heq⟩ ⟨'/' :: more, by simp⟩ ?_
    simp only [List.length_append, List.length_cons, List.length_nil]
    omega
  exact h ((List.suffix_append body _).isInfix.trans hpre.isInfix)

/-! ### Numbers -/

/-- The letter behind a number, if there is one. -/
theorem optional_mem (a b : Char) (cs : List Char) :
    (optional (fun c => c == a || c == b) cs).1 ∈ [[], [a], [b]] := by
  cases cs with
  | nil => exact List.mem_cons_self
  | cons c cs =>
    unfold optional
    dsimp only
    split
    · next h =>
      rcases Bool.or_eq_true_iff.mp h with h | h
      · rw [beq_iff_eq.mp h]
        simp
      · rw [beq_iff_eq.mp h]
        simp
    · exact List.mem_cons_self

/-- Digits and a letter behind them are no longer than all the digits that there are and the letter
    behind these. -/
theorem digits_longest {a b : Char} (ha : a.isDigit = false) (hb : b.isDigit = false)
    {ds suffix cs : List Char} (hds : ∀ d ∈ ds, d.isDigit = true)
    (hsuffix : suffix ∈ [[], [a], [b]]) (h : ds ++ suffix <+: cs) :
    (ds ++ suffix).length ≤ (cs.takeWhile Char.isDigit ++
      (optional (fun c => c == a || c == b) (cs.dropWhile Char.isDigit)).1).length := by
  have hletter {x : Char} (hx : x.isDigit = false) (hopt : (x == a || x == b) = true)
      (h : ds ++ [x] <+: cs) : (ds ++ [x]).length ≤ (cs.takeWhile Char.isDigit ++
      (optional (fun c => c == a || c == b) (cs.dropWhile Char.isDigit)).1).length := by
    obtain ⟨more, rfl⟩ := h
    rw [List.append_assoc]
    obtain ⟨htake, hdrop⟩ := @span_append Char.isDigit ds ([x] ++ more) hds (by simpa using hx)
    rw [htake, hdrop]
    simp [optional, hopt]
  simp only [List.mem_cons, List.not_mem_nil, or_false] at hsuffix
  rcases hsuffix with rfl | rfl | rfl
  · rw [List.append_nil] at h ⊢
    rw [List.length_append]
    exact Nat.le_add_right_of_le (length_le_takeWhile h hds)
  · exact hletter ha (by simp) h
  · exact hletter hb (by simp) h

/-- No integer has a point. -/
theorem point_notMem {ds suffix : List Char} (hds : ∀ d ∈ ds, d.isDigit = true)
    (hsuffix : suffix ∈ [[], ['l'], ['L']]) : '.' ∉ ds ++ suffix := by
  intro h
  rcases List.mem_append.mp h with h | h
  · cases hds _ h
  · simp only [List.mem_cons, List.not_mem_nil, or_false] at hsuffix
    rcases hsuffix with rfl | rfl | rfl <;> simp at h

/-- The digits in front of a point are all of them. -/
theorem digits_point {ds more cs : List Char} (hds : ∀ d ∈ ds, d.isDigit = true)
    (h : ds ++ '.' :: more <+: cs) : cs.takeWhile Char.isDigit = ds ∧
      '.' :: more <+: cs.dropWhile Char.isDigit := by
  obtain ⟨rest, rfl⟩ := h
  rw [List.append_assoc]
  obtain ⟨htake, hdrop⟩ := @span_append Char.isDigit ds ('.' :: more ++ rest) hds (by simp)
  rw [htake, hdrop]
  exact ⟨rfl, List.prefix_append _ _⟩

/-- A number is a decimal if a point and a digit follow its digits, and an integer otherwise. -/
theorem number_cases (cs : List Char) :
    (∃ e after, cs.dropWhile Char.isDigit = '.' :: e :: after ∧ e.isDigit = true ∧
      (number cs).kind = .decimalLiteral ∧ (number cs).tail =
        cs.takeWhile Char.isDigit ++ '.' :: e ::
        (after.takeWhile Char.isDigit ++
          (optional (fun c => c == 'd' || c == 'D') (after.dropWhile Char.isDigit)).1)) ∨
    ((∀ e after, '.' :: e :: after <+: cs.dropWhile Char.isDigit → e.isDigit = false) ∧
      (number cs).kind = .intLiteral ∧ (number cs).tail = cs.takeWhile Char.isDigit ++
        (optional (fun c => c == 'l' || c == 'L') (cs.dropWhile Char.isDigit)).1) := by
  unfold number
  split
  · next e after hdrop =>
    rw [hdrop]
    split
    · next he => exact .inl ⟨e, after, rfl, he, rfl, rfl⟩
    · next he =>
      refine .inr ⟨?_, rfl, by simp [optional]⟩
      intro e' after' h
      obtain ⟨rfl, -⟩ := List.cons_prefix_cons.mp (List.cons_prefix_cons.mp h).2
      exact Bool.not_eq_true _ ▸ he
  · next hpoint =>
    refine .inr ⟨?_, rfl, rfl⟩
    rintro e after ⟨rest, hrest⟩
    exact absurd hrest.symm (hpoint e (after ++ rest))

end Scan

end ScriptAnalysis
