import ScriptAnalysis.Proofs.Grammar.Lookahead
import ScriptAnalysis.Proofs.Printing.Syntax
import ScriptAnalysis.Proofs.Token.Literals

/-!
# Printed words are cut apart as they were printed

A word is `Whole` if the scan cuts it off whenever a blank or nothing follows it.  Every word of an
expression is whole, so the words of a text with blanks between whole words are these words.
-/

namespace ScriptAnalysis

/-- Where a word ends: at a blank or at the end of the text. -/
def Ends (rest : List Char) : Prop := ∀ c ∈ rest.head?, c = ' '

/-- A word that the scan cuts off as it is. -/
def Whole (w : Word) : Prop :=
  w.1.isTrivia = false ∧ ∃ c tail, w.2.toList = c :: tail ∧
    ∀ rest, Ends rest → Scan.cut c (tail ++ rest) = ⟨w.1, tail, rest⟩

theorem Ends.nil : Ends [] := by simp [Ends]

theorem Ends.blank (rest : List Char) : Ends (' ' :: rest) := by simp [Ends]

/-- What follows a word is empty or starts with a blank. -/
theorem Ends.cases {rest : List Char} (h : Ends rest) : rest = [] ∨ ∃ more, rest = ' ' :: more := by
  cases rest with
  | nil => exact .inl rfl
  | cons c more => exact .inr ⟨more, by rw [h c rfl]⟩

/-- A run of characters that are no blanks ends where the word ends. -/
theorem span_append_ends {p : Char → Bool} {run rest : List Char} (hrun : run.all p = true)
    (hblank : p ' ' = false) (hrest : Ends rest) :
    (run ++ rest).takeWhile p = run ∧ (run ++ rest).dropWhile p = rest :=
  span_append (List.all_eq_true.mp hrun) fun c hc => hrest c hc ▸ hblank

/-! ### Words and marks -/

theorem TokenKind.ofWord_not_trivia (word : String) : (ofWord word).isTrivia = false := by
  unfold ofWord
  cases hfind : keywords.find? fun kind => kind.spelling == some word with
  | none => rfl
  | some kind =>
    have hmem := List.mem_of_find?_eq_some hfind
    have hall : ∀ k ∈ keywords, k.isTrivia = false := by decide
    exact hall kind hmem

/-- A letter with letters and digits behind it is a keyword or a name. -/
theorem whole_ofWord {first : Char} {rest : List Char} (hstart : Scan.isWordStart first = true)
    (hpart : rest.all Scan.isWordPart = true) :
    Whole (.ofWord (String.ofList (first :: rest)), String.ofList (first :: rest)) := by
  refine ⟨TokenKind.ofWord_not_trivia _, first, rest, String.toList_ofList, fun more hmore => ?_⟩
  obtain ⟨hblank, hline⟩ := Scan.isWordStart_class hstart
  obtain ⟨htake, hdrop⟩ := span_append_ends hpart rfl hmore
  unfold Scan.cut
  rw [hblank, hline, if_neg Bool.false_ne_true, if_neg Bool.false_ne_true, if_pos hstart]
  unfold Scan.word
  rw [htake, hdrop]

theorem Identifier.whole (name : Identifier) : Whole name.word := by
  have h := whole_ofWord name.start name.part
  rw [name.free] at h
  exact h

/-- The keywords, marks and operators of expressions and of the declaration around one. -/
def printedMarks : List TokenKind :=
  [.defKw, .newKw, .trueKw, .falseKw, .nullKw, .leftParen, .rightParen, .leftSquare, .rightSquare,
   .comma, .dot, .equal, .pipePipe, .ampAmp, .equalEqual, .bangEqual, .less, .lessEqual, .greater,
   .greaterEqual, .plus, .minus, .star, .slash, .percent, .bang]

/-- Each of these is cut off by evaluation, whatever follows the blank behind it. -/
theorem whole_mark {kind : TokenKind} (h : kind ∈ printedMarks) : Whole (mark kind) := by
  have hcut {kind : TokenKind} (first : Char) (tail : List Char) (hkind : kind.isTrivia = false)
      (hspelled : (mark kind).2.toList = first :: tail)
      (hend : Scan.cut first tail = ⟨kind, tail, []⟩)
      (hblank : ∀ more, Scan.cut first (tail ++ ' ' :: more) = ⟨kind, tail, ' ' :: more⟩) :
      Whole (mark kind) := by
    refine ⟨hkind, first, tail, hspelled, fun rest hrest => ?_⟩
    rcases hrest.cases with rfl | ⟨more, rfl⟩
    · rw [List.append_nil]
      exact hend
    · exact hblank more
  simp only [printedMarks, List.mem_cons, List.not_mem_nil, or_false] at h
  rcases h with rfl | rfl | rfl | rfl | rfl | rfl | rfl | rfl | rfl | rfl | rfl | rfl | rfl | rfl |
    rfl | rfl | rfl | rfl | rfl | rfl | rfl | rfl | rfl | rfl | rfl | rfl
  all_goals exact hcut _ _ rfl rfl rfl fun _ => rfl

theorem ClassName.whole (className : ClassName) : ∀ w ∈ className.words, Whole w := by
  cases className with
  | builtin type known =>
    intro w hw
    rw [List.mem_singleton.mp hw]
    have hword {type : TypeRef} (first : Char) (rest : List Char)
        (hname : type.name = String.ofList (first :: rest))
        (hstart : Scan.isWordStart first = true) (hpart : rest.all Scan.isWordPart = true) :
        Whole (.ofWord type.name, type.name) := by
      rw [hname]
      exact whole_ofWord hstart hpart
    cases type with
    | named path =>
      unfold keywordType? at known
      split at known <;> cases known
    | any => exact hword 'd' ['e', 'f'] rfl rfl rfl
    | boolean => exact hword 'b' ['o', 'o', 'l', 'e', 'a', 'n'] rfl rfl rfl
    | int => exact hword 'i' ['n', 't'] rfl rfl rfl
    | long => exact hword 'l' ['o', 'n', 'g'] rfl rfl rfl
    | double => exact hword 'd' ['o', 'u', 'b', 'l', 'e'] rfl rfl rfl
    | decimal => exact hword 'D' ['e', 'c', 'i', 'm', 'a', 'l'] rfl rfl rfl
    | string => exact hword 'S' ['t', 'r', 'i', 'n', 'g'] rfl rfl rfl
    | list => exact hword 'L' ['i', 's', 't'] rfl rfl rfl
    | map => exact hword 'M' ['a', 'p'] rfl rfl rfl
  | path first rest =>
    intro w hw
    rcases List.mem_cons.mp hw with rfl | hw
    · exact first.whole
    · obtain ⟨name, -, hw⟩ := List.mem_flatMap.mp hw
      rcases List.mem_cons.mp hw with rfl | hw
      · exact whole_mark (by decide)
      · rw [List.mem_singleton.mp hw]
        exact name.whole

/-! ### Literals -/

theorem whole_int (n : Nat) : Whole (.intLiteral, n.repr) := by
  have hdigits : ∀ d ∈ Nat.toDigits 10 n, d.isDigit = true := fun d hd =>
    Nat.isDigit_of_mem_toDigits (by decide) (by decide) hd
  cases hn : Nat.toDigits 10 n with
  | nil => exact absurd hn Nat.toDigits_ne_nil
  | cons first tail =>
    rw [hn] at hdigits
    obtain ⟨hfirst, htail⟩ := List.forall_mem_cons.mp hdigits
    refine ⟨rfl, first, tail, by rw [Nat.toList_repr, hn], fun rest hrest => ?_⟩
    have hend : ∀ d ∈ rest.head?, d.isDigit = false ∧ d ∉ ['.', 'l', 'L'] := by
      intro d hd
      rw [hrest d hd]
      decide
    have hnumber : Scan.number (tail ++ ([] ++ rest)) = ⟨.intLiteral, tail ++ [], rest⟩ :=
      Scan.number_digits htail (by decide) hend
    rw [List.nil_append, List.append_nil] at hnumber
    rw [Scan.cut_digit hfirst, hnumber]

theorem whole_decimal (whole fraction : Digits) :
    Whole (.decimalLiteral, String.ofList (whole.chars ++ '.' :: fraction.chars)) := by
  obtain ⟨chars, hne, hdigits⟩ := whole
  obtain ⟨after, hne', hdigits'⟩ := fraction
  cases chars with
  | nil => exact absurd rfl hne
  | cons first tail =>
    cases after with
    | nil => exact absurd rfl hne'
    | cons d after =>
      rw [List.all_cons, Bool.and_eq_true] at hdigits hdigits'
      refine ⟨rfl, first, tail ++ '.' :: d :: after, String.toList_ofList, fun rest hrest => ?_⟩
      have htail : ∀ c ∈ tail, c.isDigit = true := by simpa using hdigits.2
      obtain ⟨htake, hdrop⟩ := span_append_ends hdigits'.2 rfl hrest
      rw [Scan.cut_digit hdigits.1, List.append_assoc]
      unfold Scan.number
      rw [List.takeWhile_append_of_pos htail, List.dropWhile_append_of_pos htail]
      simp only [List.cons_append, List.takeWhile_cons, List.dropWhile_cons]
      rw [if_neg (by decide), if_neg (by decide)]
      simp only [hdigits'.1, if_true, htake, hdrop, List.append_nil]
      rcases hrest.cases with rfl | ⟨more, rfl⟩
      · simp [Scan.optional]
      · simp [Scan.optional]

/-- A string is printed as it is written in double quotes. -/
theorem Constant.quotedChar_eq : Constant.quotedChar = writtenChar '"' := by
  funext c
  unfold Constant.quotedChar writtenChar
  grind

theorem Constant.quoted_eq (text : String) : Constant.quoted text = written '"' text := by
  unfold Constant.quoted written
  rw [Constant.quotedChar_eq]

theorem whole_str (text : String) : Whole (.stringLiteral, Constant.quoted text) := by
  rw [Constant.quoted_eq]
  refine ⟨rfl, '"', text.toList.flatMap (writtenChar '"') ++ ['"'], String.toList_ofList,
    fun rest _ => ?_⟩
  rw [List.append_assoc]
  exact Scan.cut_written rfl text.toList rest

theorem Constant.whole (value : Constant) : Whole value.word := by
  cases value with
  | int value => exact whole_int value.val
  | decimal whole fraction => exact whole_decimal whole fraction
  | str text => exact whole_str text
  | bool value =>
    cases value with
    | false => exact whole_mark (by decide)
    | true => exact whole_mark (by decide)
  | null => exact whole_mark (by decide)

/-! ### Expressions -/

namespace Expr

theorem whole_enclosed {opening closing : TokenKind} {ws : List Word}
    (hopening : opening ∈ printedMarks) (hclosing : closing ∈ printedMarks)
    (h : ∀ w ∈ ws, Whole w) : ∀ w ∈ enclosed opening closing ws, Whole w :=
  List.forall_mem_cons.mpr ⟨whole_mark hopening,
    List.forall_mem_append.mpr ⟨h, List.forall_mem_singleton.mpr (whole_mark hclosing)⟩⟩

/-- Parentheses, if any, are whole as well. -/
theorem whole_within {asked : Nat} {e : Expr} {ws : List Word} (h : ∀ w ∈ ws, Whole w) :
    ∀ w ∈ within asked e ws, Whole w := by
  unfold within
  split
  · exact whole_enclosed (by decide) (by decide) h
  · exact h

theorem kind_mem_printedMarks (op : BinaryOp) : op.kind ∈ printedMarks := by
  cases op <;> decide

mutual

theorem whole_wordsFor (callee : Nat) : ∀ (e : Expr), ∀ w ∈ e.wordsFor callee, Whole w
  | .identifier name => List.forall_mem_singleton.mpr name.whole
  | .literal value => List.forall_mem_singleton.mpr value.whole
  | .listLiteral items => whole_enclosed (by decide) (by decide) (whole_argsFor callee items)
  | .binary op left right =>
    List.forall_mem_append.mpr ⟨whole_within (whole_wordsFor callee left),
      List.forall_mem_cons.mpr ⟨whole_mark (kind_mem_printedMarks op),
        whole_within (whole_wordsFor callee right)⟩⟩
  | .unary op operand =>
    List.forall_mem_cons.mpr ⟨whole_mark (by cases op <;> decide),
      whole_within (whole_wordsFor callee operand)⟩
  | .call f args =>
    List.forall_mem_append.mpr ⟨whole_within (whole_wordsFor callee f),
      whole_enclosed (by decide) (by decide) (whole_argsFor callee args)⟩
  | .methodCall target name args =>
    List.forall_mem_append.mpr ⟨whole_within (whole_wordsFor callee target),
      List.forall_mem_cons.mpr ⟨whole_mark (by decide), List.forall_mem_cons.mpr ⟨name.whole,
        whole_enclosed (by decide) (by decide) (whole_argsFor callee args)⟩⟩⟩
  | .field target name =>
    List.forall_mem_append.mpr ⟨whole_within (whole_wordsFor callee target),
      List.forall_mem_cons.mpr ⟨whole_mark (by decide), List.forall_mem_singleton.mpr name.whole⟩⟩
  | .assign name value =>
    List.forall_mem_cons.mpr ⟨name.whole,
      List.forall_mem_cons.mpr ⟨whole_mark (by decide), whole_wordsFor callee value⟩⟩
  | .invokeNew className args =>
    List.forall_mem_cons.mpr ⟨whole_mark (by decide), List.forall_mem_append.mpr
      ⟨className.whole, whole_enclosed (by decide) (by decide) (whole_argsFor callee args)⟩⟩

theorem whole_argsFor (callee : Nat) : ∀ (es : List Expr), ∀ w ∈ argsFor callee es, Whole w
  | [] => List.forall_mem_nil _
  | [e] => whole_wordsFor callee e
  | e :: f :: es =>
    List.forall_mem_append.mpr ⟨whole_wordsFor callee e,
      List.forall_mem_cons.mpr ⟨whole_mark (by decide), whole_argsFor callee (f :: es)⟩⟩

end

end Expr

/-! ### Texts -/

open Scan

/-- A whole word is cut off in front of a blank or the end of the text. -/
theorem Whole.lexemes {w : Word} (h : Whole w) {rest : List Char} (hrest : Ends rest) :
    lexemes (w.2.toList ++ rest) = w :: lexemes rest := by
  obtain ⟨-, c, tail, hspelled, hcut⟩ := h
  rw [hspelled, List.cons_append, Scan.lexemes, hcut rest hrest, ← hspelled, String.ofList_toList]

/-- A whole word does not start with a blank. -/
theorem Whole.not_blank {w : Word} (h : Whole w) (rest : List Char) :
    (w.2.toList ++ rest).dropWhile isBlank = w.2.toList ++ rest := by
  obtain ⟨hkind, c, tail, hspelled, hcut⟩ := h
  have hblank : isBlank c = false := by
    by_contra hb
    have hcut := hcut [] .nil
    unfold cut at hcut
    rw [if_pos (by simpa using hb)] at hcut
    have hwhite : TokenKind.whitespace = w.1 := congrArg Cut.kind hcut
    rw [← hwhite] at hkind
    cases hkind
  rw [hspelled, List.cons_append, List.dropWhile_cons, hblank]
  rfl

/-- Of whole words with blanks between them only the blanks are trivia. -/
theorem lexemes_spaced {ws : List Word} (h : ∀ w ∈ ws, Whole w) :
    (Scan.lexemes (spaced ws)).filter (fun w => !w.1.isTrivia) = ws ++ [(.eof, "")] := by
  induction ws with
  | nil => simp [spaced, Scan.lexemes, TokenKind.isTrivia]
  | cons w ws ih =>
    obtain ⟨hw, hws⟩ := List.forall_mem_cons.mp h
    have hsolid : (!w.1.isTrivia) = true := by rw [hw.1]; rfl
    cases ws with
    | nil =>
      have hcut := hw.lexemes .nil
      rw [List.append_nil] at hcut
      rw [spaced, hcut, List.filter_cons, if_pos hsolid, Scan.lexemes]
      rfl
    | cons v vs =>
      obtain ⟨hv, -⟩ := List.forall_mem_cons.mp hws
      have hvs : ∃ more, spaced (v :: vs) = v.2.toList ++ more := by
        cases vs with
        | nil => exact ⟨[], (List.append_nil _).symm⟩
        | cons u us => exact ⟨' ' :: spaced (u :: us), rfl⟩
      have hblank : Scan.lexemes (' ' :: spaced (v :: vs)) =
          (.whitespace, String.ofList (' ' :: (spaced (v :: vs)).takeWhile isBlank)) ::
            Scan.lexemes (spaced (v :: vs)) := by
        obtain ⟨more, hmore⟩ := hvs
        have hdrop := hv.not_blank more
        rw [← hmore] at hdrop
        rw [Scan.lexemes]
        change (TokenKind.whitespace, String.ofList (' ' ::
          (spaced (v :: vs)).takeWhile isBlank)) ::
          Scan.lexemes ((spaced (v :: vs)).dropWhile isBlank) = _
        rw [hdrop]
      rw [spaced, hw.lexemes (.blank _), hblank, List.filter_cons, if_pos hsolid, List.filter_cons,
        if_neg (by simp [TokenKind.isTrivia]), ih hws]
      · rfl
      · simp

/-- The words of a text are its lexemes that are no trivia. -/
theorem words_eq_lexemes (text : String) :
    words text = (Scan.lexemes text.toList).filter fun w => !w.1.isTrivia := by
  rw [← scan_spelled, List.filter_map]
  rfl

/-- The words of a printed text are the words that were printed, and the end of the text. -/
theorem words_spaced {ws : List Word} (h : ∀ w ∈ ws, Whole w) :
    words (String.ofList (spaced ws)) = ws ++ [(.eof, "")] := by
  rw [words_eq_lexemes, String.toList_ofList, lexemes_spaced h]

/-! ### Values -/

theorem intValue?_repr {n : Nat} (h : n < integerBound) : intValue? n.repr = some (n : Int) := by
  have hdigits : ∀ d ∈ Nat.toDigits 10 n, d.isDigit = true := fun d hd =>
    Nat.isDigit_of_mem_toDigits (by decide) (by decide) hd
  have hnumber : digitsNumber (Nat.toDigits 10 n) = n := by
    rw [← digitsValue_eq]
    exact Nat.ofDigitChars_eq_foldl.symm.trans Nat.ofDigitChars_ten_toDigits
  have hnone : [] ∈ [[], ['l'], ['L']] := List.mem_cons_self
  have hvalue := intValue?_digits Nat.toDigits_ne_nil hdigits hnone
  rw [List.append_nil, hnumber, if_pos h] at hvalue
  rw [← hvalue, ← Nat.toList_repr, String.ofList_toList]

theorem decimalDigits_written (whole fraction : Digits) :
    decimalDigits (String.ofList (whole.chars ++ '.' :: fraction.chars)) =
      String.ofList (whole.chars ++ '.' :: fraction.chars) := by
  unfold decimalDigits
  rw [String.toList_ofList, dropTrailing_of_digit rfl rfl]
  intro c hc
  have hall : ∀ c ∈ fraction.chars, c.isDigit = true := List.all_eq_true.mp fraction.digits
  rw [List.getLast?_append_of_ne_nil _ (List.cons_ne_nil _ _),
    List.getLast?_cons_of_ne_nil fraction.ne_nil] at hc
  exact hall c (List.mem_of_getLast? hc)

theorem stringValue_quoted (text : String) : stringValue (Constant.quoted text) = text := by
  rw [Constant.quoted_eq, stringValue_written rfl]

end ScriptAnalysis
