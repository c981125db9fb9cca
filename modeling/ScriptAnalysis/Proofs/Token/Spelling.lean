import ScriptAnalysis.Proofs.Token.Blanks

/-!
# How tokens are spelled

A token holds no text of its own, only the span that it was read from.  `lexemes` cuts a text as the
scan does and keeps the pieces: they are what the tokens cut out of the text.
-/

namespace ScriptAnalysis

namespace Scan

/-- The kinds and the texts of the tokens of some characters. -/
def lexemes : List Char → List (TokenKind × String)
  | [] => [(.eof, "")]
  | c :: cs => ((cut c cs).kind, String.ofList (c :: (cut c cs).tail)) :: lexemes (cut c cs).rest
termination_by cs => cs.length
decreasing_by
  have := cut_rest_length c cs
  simp only [List.length_cons]
  omega

theorem utf8ByteSize_ofList (cs : List Char) : (String.ofList cs).utf8ByteSize = width cs := by
  rw [← width_toList, String.toList_ofList]

/-- The first piece may be counted to what was cut off before. -/
theorem append_cut (before : String) (c : Char) (cs : List Char) :
    before ++ String.ofList (c :: cs) =
        before ++ String.ofList (c :: (cut c cs).tail) ++ String.ofList (cut c cs).rest ∧
      before.utf8ByteSize + width (c :: (cut c cs).tail) =
        (before ++ String.ofList (c :: (cut c cs).tail)).utf8ByteSize := by
  have hsplit : c :: cs = (c :: (cut c cs).tail) ++ (cut c cs).rest := by
    rw [List.cons_append, cut_splits c cs]
  constructor
  · rw [String.append_assoc, ← String.ofList_append, ← hsplit]
  · rw [String.utf8ByteSize_append, utf8ByteSize_ofList]

/-- By induction along the cuts: `before` is what was cut off so far. -/
theorem spelled_tokensFrom (before : String) (cs : List Char) :
    (tokensFrom before.utf8ByteSize cs).map
      (fun t => (t.kind, t.textIn (before ++ String.ofList cs))) = lexemes cs := by
  generalize hn : cs.length = n
  induction n using Nat.strong_induction_on generalizing before cs with
  | h n ih =>
    cases cs with
    | nil =>
      rw [tokensFrom, lexemes, List.map_singleton]
      have hpoint := Span.textIn_append before "" ""
      simp only [String.append_empty, String.utf8ByteSize_empty, Nat.add_zero] at hpoint
      simp [Token.textIn, Span.point, hpoint]
    | cons c cs =>
      obtain ⟨htext, hsize⟩ := append_cut before c cs
      have hpiece := Span.textIn_append before (String.ofList (c :: (cut c cs).tail))
        (String.ofList (cut c cs).rest)
      rw [utf8ByteSize_ofList] at hpiece
      have hlt : (cut c cs).rest.length < n := by
        have hle := cut_rest_length c cs
        rw [List.length_cons] at hn
        omega
      rw [tokensFrom, lexemes, List.map_cons, htext, hsize, ih _ hlt _ _ rfl]
      rw [← hsize]
      exact congrArg (fun text => ((cut c cs).kind, text) :: lexemes (cut c cs).rest) hpiece

/-- A token is as long as its text. -/
theorem span_tokensFrom (before : String) (cs : List Char) {t : Token}
    (ht : t ∈ tokensFrom before.utf8ByteSize cs) : t.span.stop =
      t.span.start + (t.textIn (before ++ String.ofList cs)).utf8ByteSize := by
  generalize hn : cs.length = n
  induction n using Nat.strong_induction_on generalizing before cs with
  | h n ih =>
    have hspelled := spelled_tokensFrom before cs
    cases cs with
    | nil =>
      rw [tokensFrom] at ht hspelled
      obtain rfl := List.mem_singleton.mp ht
      rw [lexemes] at hspelled
      obtain ⟨hhead, -⟩ := List.cons.inj hspelled
      rw [show Token.textIn _ _ = "" from congrArg Prod.snd hhead]
      rfl
    | cons c cs =>
      rw [tokensFrom] at ht hspelled
      rcases List.mem_cons.mp ht with rfl | ht
      · rw [lexemes] at hspelled
        obtain ⟨hhead, -⟩ := List.cons.inj hspelled
        rw [show Token.textIn _ _ = String.ofList (c :: (cut c cs).tail)
          from congrArg Prod.snd hhead, utf8ByteSize_ofList]
      · obtain ⟨htext, hsize⟩ := append_cut before c cs
        have hlt : (cut c cs).rest.length < n := by
          have hle := cut_rest_length c cs
          rw [List.length_cons] at hn
          omega
        rw [htext]
        exact ih _ hlt _ _ (hsize ▸ ht) rfl

/-- Only the end of a text has no text of its own. -/
theorem lexemes_ne_empty (cs : List Char) {l : TokenKind × String} (h : l ∈ lexemes cs)
    (hkind : l.1 ≠ .eof) : l.2 ≠ "" := by
  induction cs using lexemes.induct with
  | case1 =>
    rw [lexemes, List.mem_singleton] at h
    subst h
    exact absurd rfl hkind
  | case2 c cs ih =>
    rw [lexemes] at h
    rcases List.mem_cons.mp h with rfl | h
    · intro hempty
      have := congrArg String.toList hempty
      simp at this
    · exact ih h

end Scan

/-- The tokens of a text are spelled as it is cut. -/
theorem scan_spelled (text : String) :
    (scan text).map (fun t => (t.kind, t.textIn text)) = Scan.lexemes text.toList := by
  have h := Scan.spelled_tokensFrom "" text.toList
  rw [String.ofList_toList, String.empty_append] at h
  exact h

theorem span_of_scan {text : String} {t : Token} (ht : t ∈ scan text) :
    t.span = ⟨t.offset, t.offset + (t.textIn text).utf8ByteSize⟩ := by
  have h := Scan.span_tokensFrom "" text.toList (t := t) ht
  rw [String.ofList_toList, String.empty_append] at h
  exact congrArg (Span.mk t.span.start) h

theorem textIn_ne_empty (text : String) {t : Token} (ht : t ∈ scan text) (hk : t.kind ≠ .eof) :
    t.textIn text ≠ "" :=
  Scan.lexemes_ne_empty text.toList (l := (t.kind, t.textIn text))
    (by rw [← scan_spelled]; exact List.mem_map_of_mem ht) hk

end ScriptAnalysis
