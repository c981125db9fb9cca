import Mathlib.Data.List.DropRight
import Mathlib.Data.Nat.Digits.Defs
import ScriptAnalysis.Grammar.Literal
import ScriptAnalysis.Proofs.Token.Rules

/-!
# Literals as they are written

A string is written between quotes, with a backslash before every backslash and every quote of this
kind and `\n` for a line end; any other character is written as it is.  The scan takes such a text
apart by units and the parser undoes the escapes, each on its own.  They agree on every string,
since each character is written as one unit that means this character (`writtenChar_cases`).

An integer is written with any number of leading zeros, and with or without an `l` behind it.
-/

namespace ScriptAnalysis

/-! ### Strings -/

/-- Writes a character of a string in these quotes. -/
def writtenChar (quote c : Char) : List Char :=
  if c = '\\' ∨ c = quote then ['\\', c] else if c = '\n' then ['\\', 'n'] else [c]

/-- A string in these quotes. -/
def written (quote : Char) (text : String) : String :=
  String.ofList (quote :: (text.toList.flatMap (writtenChar quote) ++ [quote]))

section
variable {quote : Char} (hquote : Scan.isQuote quote = true)

include hquote

/-- A character is written with a backslash before what stands for it, or as it is if it has no
    meaning of its own in a string. -/
theorem writtenChar_cases (c : Char) :
    (∃ e, writtenChar quote c = ['\\', e] ∧ e ≠ '\n' ∧ unescapeChar e = c) ∨
      (writtenChar quote c = [c] ∧ c ≠ '\\' ∧ c ≠ quote ∧ c ≠ '\n') := by
  unfold writtenChar
  split
  · next h =>
    refine .inl ⟨c, rfl, ?_⟩
    rcases h with rfl | rfl
    · exact ⟨by decide, rfl⟩
    · rcases Scan.isQuote_cases hquote with rfl | rfl
      · exact ⟨by decide, rfl⟩
      · exact ⟨by decide, rfl⟩
  · next h =>
    rw [not_or] at h
    split
    · next hline => exact .inl ⟨'n', rfl, by decide, hline.symm⟩
    · next hline => exact .inr ⟨rfl, h.1, h.2, hline⟩

/-- What is written for a character is a complete unit. -/
theorem Scan.units_writtenChar (c : Char) (cs : List Char) :
    Scan.units quote (writtenChar quote c ++ cs) =
      (writtenChar quote c ++ (Scan.units quote cs).1, (Scan.units quote cs).2) := by
  rcases writtenChar_cases hquote c with ⟨e, heq, hline, -⟩ | ⟨heq, hslash, hother, hline⟩
  · rw [heq]
    simp [Scan.units, hline]
  · rw [heq, List.singleton_append, Scan.units]
    · simp [hother, hline]
    · simp [hslash]
    · intro e more hbackslash
      exact absurd hbackslash hslash

theorem unescape_writtenChar (c : Char) (cs : List Char) :
    unescape (writtenChar quote c ++ cs) = c :: unescape cs := by
  rcases writtenChar_cases hquote c with ⟨e, heq, -, he⟩ | ⟨heq, hslash, -⟩
  · rw [heq]
    exact congrArg (· :: unescape cs) he
  · rw [heq, List.singleton_append, unescape]
    · exact fun hbackslash _ => hslash hbackslash
    · exact fun _ _ hbackslash _ => hslash hbackslash

theorem Scan.units_written (cs rest : List Char) :
    Scan.units quote (cs.flatMap (writtenChar quote) ++ quote :: rest) =
      (cs.flatMap (writtenChar quote), quote :: rest) := by
  induction cs with
  | nil =>
    rcases Scan.isQuote_cases hquote with rfl | rfl
    · simp [Scan.units]
    · simp [Scan.units]
  | cons c cs ih => rw [List.flatMap_cons, List.append_assoc, Scan.units_writtenChar hquote, ih]

theorem unescape_written (cs : List Char) : unescape (cs.flatMap (writtenChar quote)) = cs := by
  induction cs with
  | nil => rfl
  | cons c cs ih => rw [List.flatMap_cons, unescape_writtenChar hquote, ih]

theorem Scan.cut_written (cs rest : List Char) :
    Scan.cut quote (cs.flatMap (writtenChar quote) ++ quote :: rest) =
      ⟨.stringLiteral, cs.flatMap (writtenChar quote) ++ [quote], rest⟩ := by
  have hcut (tail : List Char) : Scan.cut quote tail = Scan.quoted quote tail := by
    rcases Scan.isQuote_cases hquote with rfl | rfl
    · rfl
    · rfl
  rw [hcut, Scan.quoted, Scan.units_written hquote]
  simp

/-- A string is read as it was written. -/
theorem stringValue_written (text : String) : stringValue (written quote text) = text := by
  unfold stringValue written
  rw [String.toList_ofList, List.drop_one, List.tail_cons, List.dropLast_concat,
    unescape_written hquote, String.ofList_toList]

end

/-! ### Numbers -/

variable {c : Char} {digits suffix rest : List Char}

/-- The number that digits write, the last one of them the units. -/
def digitsNumber (digits : List Char) : Nat :=
  Nat.ofDigits 10 (digits.reverse.map fun c => c.toNat - '0'.toNat)

theorem digitsValue_eq (digits : List Char) : digitsValue digits = digitsNumber digits := by
  induction digits using List.reverseRecOn with
  | nil => rfl
  | append_singleton digits c ih =>
    unfold digitsValue digitsNumber at ih ⊢
    rw [List.foldl_append, ih, List.reverse_concat, List.map_cons, Nat.ofDigits_cons,
      List.foldl_cons, List.foldl_nil]
    exact Nat.add_comm _ _

/-- A digit starts neither a blank nor a word. -/
theorem Scan.cut_digit (h : c.isDigit = true) (cs : List Char) :
    Scan.cut c cs = Scan.number cs := by
  obtain ⟨hblank, hline, hword⟩ := Scan.isDigit_class h
  unfold Scan.cut
  rw [hblank, hline, hword, if_neg Bool.false_ne_true, if_neg Bool.false_ne_true,
    if_neg Bool.false_ne_true, if_pos h]

/-- What follows digits and a suffix is no part of the number. -/
theorem Scan.number_digits (hdigits : ∀ d ∈ digits, d.isDigit = true)
    (hsuffix : suffix ∈ [[], ['l'], ['L']])
    (hrest : ∀ d ∈ rest.head?, d.isDigit = false ∧ d ∉ ['.', 'l', 'L']) :
    Scan.number (digits ++ (suffix ++ rest)) = ⟨.intLiteral, digits ++ suffix, rest⟩ := by
  have hend : ∀ d ∈ (suffix ++ rest).head?, d.isDigit = false := by
    simp only [List.mem_cons, List.not_mem_nil, or_false] at hsuffix
    rcases hsuffix with rfl | rfl | rfl
    · exact fun d hd => (hrest d hd).1
    · simp
    · simp
  obtain ⟨htake, hdrop⟩ := span_append hdigits hend
  unfold Scan.number
  rw [htake, hdrop]
  simp only [List.mem_cons, List.not_mem_nil, or_false] at hsuffix
  rcases hsuffix with rfl | rfl | rfl
  · cases rest with
    | nil => simp [Scan.optional]
    | cons d rest =>
      obtain ⟨-, hd⟩ := hrest d rfl
      simp only [List.mem_cons, List.not_mem_nil, or_false, not_or] at hd
      rw [List.nil_append]
      split
      · next heq => exact absurd (List.cons.inj heq).1 hd.1
      · simp [Scan.optional, hd.2]
  · simp [Scan.optional]
  · simp [Scan.optional]

theorem dropTrailing_append {p : Char → Bool} (h : ∀ d ∈ suffix, p d = true) :
    dropTrailing p (digits ++ suffix) = dropTrailing p digits := by
  unfold dropTrailing
  rw [List.reverse_append, List.dropWhile_append_of_pos]
  exact fun d hd => h d (List.mem_reverse.mp hd)

/-- A digit at the end is no letter, so nothing is dropped behind it. -/
theorem dropTrailing_of_digit {a b : Char} (ha : a.isDigit = false) (hb : b.isDigit = false)
    {cs : List Char} (h : ∀ c ∈ cs.getLast?, c.isDigit = true) :
    dropTrailing (fun c => c == a || c == b) cs = cs := by
  refine List.rdropWhile_eq_self_iff.mpr fun hne hlast => ?_
  have hdigit := h _ (List.getLast?_eq_some_getLast hne)
  rcases Bool.or_eq_true_iff.mp hlast with heq | heq
  · rw [beq_iff_eq.mp heq, ha] at hdigit
    cases hdigit
  · rw [beq_iff_eq.mp heq, hb] at hdigit
    cases hdigit

/-- Digits mean the number that they write, if it is below the bound. -/
theorem intValue?_digits (hne : digits ≠ []) (hdigits : ∀ d ∈ digits, d.isDigit = true)
    (hsuffix : suffix ∈ [[], ['l'], ['L']]) :
    intValue? (String.ofList (digits ++ suffix)) =
      if digitsNumber digits < integerBound then some (digitsNumber digits : Int) else none := by
  have hkept : dropTrailing (fun c => c == 'l' || c == 'L') (digits ++ suffix) = digits := by
    rw [dropTrailing_append, dropTrailing_of_digit rfl rfl]
    · exact fun d hd => hdigits d (List.mem_of_getLast? hd)
    · simp only [List.mem_cons, List.not_mem_nil, or_false] at hsuffix
      rcases hsuffix with rfl | rfl | rfl <;> simp
  unfold intValue?
  rw [String.toList_ofList]
  dsimp only
  rw [hkept, digitsValue_eq, List.isEmpty_eq_false_iff.mpr hne, List.all_eq_true.mpr hdigits]
  simp

end ScriptAnalysis
