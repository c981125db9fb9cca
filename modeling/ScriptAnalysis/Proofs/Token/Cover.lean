import ScriptAnalysis.Proofs.Recording.Growth
import ScriptAnalysis.Token.Scan

/-!
# The tokens of a text cover it

`Tiles start tokens stop` says that tokens stand side by side, from one offset to another.  The
tokens of a text tile all of it, and of these only the last one ends the text.
-/

namespace ScriptAnalysis

/-- Each token starts where the one before it ends. -/
inductive Tiles : Nat → List Token → Nat → Prop
  | nil (offset : Nat) : Tiles offset [] offset
  | cons {t : Token} {ts : List Token} {stop : Nat} :
      t.span.start ≤ t.span.stop → Tiles t.span.stop ts stop → Tiles t.span.start (t :: ts) stop

namespace Tiles

variable {a b c : Nat} {t : Token} {ts us : List Token}

theorem nil_iff : Tiles a [] c ↔ a = c := by
  constructor
  · intro h
    cases h
    rfl
  · rintro rfl
    exact .nil a

theorem cons_iff : Tiles a (t :: ts) c ↔
    t.span.start = a ∧ t.span.start ≤ t.span.stop ∧ Tiles t.span.stop ts c := by
  constructor
  · rintro (_ | ⟨hle, hts⟩)
    exact ⟨rfl, hle, hts⟩
  · rintro ⟨rfl, hle, hts⟩
    exact .cons hle hts

theorem append_iff : Tiles a (ts ++ us) c ↔ ∃ b, Tiles a ts b ∧ Tiles b us c := by
  induction ts generalizing a with
  | nil =>
    constructor
    · intro h
      exact ⟨a, .nil a, h⟩
    · rintro ⟨b, hb, h⟩
      rw [nil_iff.mp hb]
      exact h
  | cons t ts ih =>
    rw [List.cons_append, cons_iff, ih]
    constructor
    · rintro ⟨hstart, hle, b, hts, hus⟩
      exact ⟨b, cons_iff.mpr ⟨hstart, hle, hts⟩, hus⟩
    · rintro ⟨b, h, hus⟩
      obtain ⟨hstart, hle, hts⟩ := cons_iff.mp h
      exact ⟨hstart, hle, b, hts, hus⟩

theorem le (h : Tiles a ts b) : a ≤ b := by
  induction h with
  | nil => exact Nat.le_refl _
  | cons hle _ ih => exact Nat.le_trans hle ih

end Tiles

namespace Scan

/-! ### What a cut is -/

theorem mem_keywords_of_ofWord (word : String) :
    TokenKind.ofWord word = .ident ∨ TokenKind.ofWord word ∈ TokenKind.keywords := by
  unfold TokenKind.ofWord
  cases h : TokenKind.keywords.find? fun kind => kind.spelling == some word with
  | none => exact Or.inl rfl
  | some kind => exact Or.inr (List.mem_of_find?_eq_some h)

theorem ofWord_ne_eof (word : String) : TokenKind.ofWord word ≠ .eof := by
  intro he
  rcases mem_keywords_of_ofWord word with h | h
  · rw [he] at h
    cases h
  · rw [he] at h
    revert h
    decide

theorem number_kind (cs : List Char) :
    (number cs).kind = .decimalLiteral ∨ (number cs).kind = .intLiteral := by
  unfold number
  split
  · split
    · exact Or.inl rfl
    · exact Or.inr rfl
  · exact Or.inr rfl

theorem quoted_kind (quote : Char) (cs : List Char) :
    (quoted quote cs).kind = .error ∨ (quoted quote cs).kind = .stringLiteral := by
  unfold quoted
  split
  split
  · exact Or.inl rfl
  · split
    · exact Or.inr rfl
    · exact Or.inl rfl

theorem comment_kind (cs : List Char) :
    (comment cs).kind ∈ [TokenKind.lineComment, .blockComment, .error, .slash] := by
  unfold comment
  split
  · simp
  · split <;> simp
  · simp

theorem singleKind_ne_eof (c : Char) : singleKind c ≠ .eof := by
  unfold singleKind
  split <;> decide

theorem pairKind_ne_eof {c d : Char} {kind : TokenKind} (h : pairKind c d = some kind) :
    kind ≠ .eof := by
  unfold pairKind at h
  split at h <;> cases h <;> decide

theorem symbol_kind_ne_eof (c : Char) (cs : List Char) : (symbol c cs).kind ≠ .eof := by
  unfold symbol
  split
  · exact singleKind_ne_eof c
  · split
    · next kind h => exact pairKind_ne_eof h
    · exact singleKind_ne_eof c

/-- A lexeme is never the end of the text. -/
theorem cut_kind_ne_eof (c : Char) (cs : List Char) : (cut c cs).kind ≠ .eof := by
  unfold cut
  split
  · exact fun h => by cases h
  split
  · exact fun h => by cases h
  split
  · exact ofWord_ne_eof _
  split
  · rcases number_kind cs with h | h <;> rw [h] <;> decide
  split
  · rcases quoted_kind c cs with h | h <;> rw [h] <;> decide
  split
  · intro h
    have hmem := comment_kind cs
    rw [h] at hmem
    revert hmem
    decide
  · exact symbol_kind_ne_eof c cs

theorem width_append (a b : List Char) : width (a ++ b) = width a + width b := by
  induction a with
  | nil => simp [width]
  | cons c a ih => rw [List.cons_append, width, width, ih, Nat.add_assoc]

theorem width_toList (text : String) : width text.toList = text.utf8ByteSize := by
  have hlist : ∀ cs : List Char, (String.ofList cs).utf8ByteSize = width cs := by
    intro cs
    induction cs with
    | nil => rfl
    | cons c cs ih =>
      rw [String.ofList_cons, String.utf8ByteSize_append, String.utf8ByteSize_singleton, ih]
      rfl
  rw [← hlist, String.ofList_toList]

/-! ### All tokens -/

/-- By induction along the cuts: the lexemes tile the characters, and after them stands one token
    more, the end of the text. -/
theorem tokensFrom_eq (offset : Nat) (cs : List Char) :
    ∃ body, tokensFrom offset cs = body ++ [⟨.eof, .point (offset + width cs)⟩] ∧
      (∀ t ∈ body, t.kind ≠ .eof) ∧ Tiles offset body (offset + width cs) := by
  induction offset, cs using tokensFrom.induct with
  | case1 offset =>
    refine ⟨[], by simp [tokensFrom, width], by simp, ?_⟩
    exact .nil offset
  | case2 offset c cs p stop ih =>
    obtain ⟨body, heq, hkind, htiles⟩ := ih
    have hsplit : (cut c cs).tail ++ (cut c cs).rest = cs := cut_splits c cs
    have hwidth : stop + width p.rest = offset + width (c :: cs) := by
      simp only [stop, p]
      conv_rhs => rw [← hsplit]
      simp only [width, width_append]
      omega
    rw [hwidth] at heq htiles
    refine ⟨⟨p.kind, ⟨offset, stop⟩⟩ :: body, ?_, ?_, ?_⟩
    · rw [tokensFrom, heq]
      rfl
    · intro t ht
      rcases List.mem_cons.mp ht with rfl | ht
      · exact cut_kind_ne_eof c cs
      · exact hkind t ht
    · exact Tiles.cons_iff.mpr ⟨rfl, Nat.le_add_right _ _, htiles⟩

/-- A lexeme is not empty. -/
theorem lt_of_mem_tokensFrom (offset : Nat) (cs : List Char) {t : Token}
    (ht : t ∈ tokensFrom offset cs) (hk : t.kind ≠ .eof) : t.span.start < t.span.stop := by
  induction offset, cs using tokensFrom.induct with
  | case1 offset =>
    rw [tokensFrom, List.mem_singleton] at ht
    subst ht
    exact absurd rfl hk
  | case2 offset c cs p stop ih =>
    rw [tokensFrom] at ht
    rcases List.mem_cons.mp ht with rfl | ht
    · have hc := c.utf8Size_pos
      dsimp only [width]
      omega
    · exact ih ht

end Scan

/-- The tokens of a text, and after them its end. -/
theorem scan_eq (text : String) :
    ∃ body, scan text = body ++ [⟨.eof, .point text.utf8ByteSize⟩] ∧
      (∀ t ∈ body, t.kind ≠ .eof) ∧ Tiles 0 body text.utf8ByteSize := by
  have h := Scan.tokensFrom_eq 0 text.toList
  rw [Nat.zero_add, Scan.width_toList] at h
  exact h

theorem scan_endsWithEof (text : String) : EndsWithEof (scan text) := by
  obtain ⟨body, heq, hkind, -⟩ := scan_eq text
  exact ⟨body, _, heq, rfl, hkind⟩

theorem scan_solid (text : String) {t : Token} (ht : t ∈ scan text) (hk : t.kind ≠ .eof) :
    t.span.start < t.span.stop := Scan.lt_of_mem_tokensFrom 0 text.toList ht hk

/-- Tokens with an extent that stand side by side start one behind the other. -/
theorem Tiles.pairwise {a b : Nat} {ts : List Token} (h : Tiles a ts b)
    (hsolid : ∀ t ∈ ts, t.span.start < t.span.stop) :
    ts.Pairwise (fun t u => t.offset < u.offset) ∧ ∀ t ∈ ts, a ≤ t.offset ∧ t.offset < b := by
  induction h with
  | nil _ => exact ⟨.nil, by simp⟩
  | @cons t ts stop _ hrest ih =>
    obtain ⟨hpairwise, hbounds⟩ := ih fun u hu => hsolid u (List.mem_cons_of_mem _ hu)
    have ht := hsolid t List.mem_cons_self
    refine ⟨List.pairwise_cons.mpr ⟨fun u hu => ?_, hpairwise⟩, fun u hu => ?_⟩
    · exact Nat.lt_of_lt_of_le ht (hbounds u hu).1
    · rcases List.mem_cons.mp hu with rfl | hu
      · exact ⟨Nat.le_refl _, Nat.lt_of_lt_of_le ht hrest.le⟩
      · obtain ⟨hle, hlt⟩ := hbounds u hu
        exact ⟨Nat.le_trans (Nat.le_of_lt ht) hle, hlt⟩

theorem scan_ascending (text : String) : (scan text).Pairwise fun t u => t.offset < u.offset := by
  obtain ⟨body, heq, hkind, htiles⟩ := scan_eq text
  obtain ⟨hpairwise, hbounds⟩ := htiles.pairwise fun t ht =>
    scan_solid text (heq ▸ List.mem_append_left _ ht) (hkind t ht)
  rw [heq, List.pairwise_append]
  refine ⟨hpairwise, List.pairwise_singleton _ _, fun t ht u hu => ?_⟩
  rw [List.mem_singleton.mp hu]
  exact (hbounds t ht).2

/-- The tokens of a text tile it. -/
theorem scan_tiles (text : String) : Tiles 0 (scan text) text.utf8ByteSize := by
  obtain ⟨body, heq, -, htiles⟩ := scan_eq text
  rw [heq]
  exact Tiles.append_iff.mpr ⟨_, htiles, Tiles.cons_iff.mpr ⟨rfl, Nat.le_refl _, .nil _⟩⟩

end ScriptAnalysis
