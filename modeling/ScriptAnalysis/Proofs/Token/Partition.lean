import ScriptAnalysis.Proofs.Token.Longest

/-!
# The tokens of a text part it

`Partitions tokens text` says that tokens cut a text into pieces: side by side from its start to its
end, at the borders of its characters, and none of them empty but the end of the text.  So nothing
is lost when the pieces are joined again.  The tokens that a scan finds do so (`scan_partitions`),
whatever characters the text has, and also where strings and comments are broken off.
-/

namespace ScriptAnalysis

/-- Tokens cut a text into pieces. -/
structure Partitions (tokens : List Token) (text : String) : Prop where
  /-- Each token starts where the one before it ends, the first one at the start of the text. -/
  contiguous : Tiles 0 tokens text.utf8ByteSize
  /-- No token but the last is empty or ends the text. -/
  solid : ∃ body, tokens = body ++ [⟨.eof, .point text.utf8ByteSize⟩] ∧
    ∀ t ∈ body, t.kind ≠ .eof ∧ t.span.start < t.span.stop
  /-- No token starts or ends within a character. -/
  boundary : ∀ t ∈ tokens, Boundary text t.span.start ∧ Boundary text t.span.stop
  /-- The ends of every token are offsets. -/
  offsets : ∀ t ∈ tokens, Span.ofRange t.span.start t.span.stop = .ok t.span
  joined : String.join (tokens.map (·.textIn text)) = text

theorem boundary_of_toList {text : String} {before after : List Char}
    (h : text.toList = before ++ after) : Boundary text (Scan.width before) := by
  refine ⟨String.ofList before, String.ofList after, ?_, Scan.utf8ByteSize_ofList before⟩
  rw [← String.ofList_append, ← h, String.ofList_toList]

/-- A scan cuts between characters. -/
theorem scan_boundary (text : String) {t : Token} (ht : t ∈ scan text) :
    Boundary text t.span.start ∧ Boundary text t.span.stop := by
  by_cases hk : t.kind = .eof
  · obtain ⟨body, heq, hkind, -⟩ := scan_eq text
    rw [heq] at ht
    rcases List.mem_append.mp ht with ht | ht
    · exact absurd hk (hkind t ht)
    · rw [List.mem_singleton.mp ht]
      exact ⟨⟨text, "", by simp, rfl⟩, ⟨text, "", by simp, rfl⟩⟩
  · obtain ⟨skipped, c, rest, htext, rfl⟩ := Scan.cut_of_mem [] text.toList ht hk
    refine ⟨boundary_of_toList htext, ?_⟩
    have hcut : text.toList = (skipped ++ c :: (Scan.cut c rest).tail) ++
        (Scan.cut c rest).rest := by
      rw [htext, List.append_assoc, List.cons_append, Scan.cut_splits c rest]
    have hstop := boundary_of_toList hcut
    rwa [Scan.width_append] at hstop

/-- A token that is one of several side by side ends where the last of them ends, or before. -/
theorem Tiles.bounds {a b : Nat} {ts : List Token} (h : Tiles a ts b) {t : Token} (ht : t ∈ ts) :
    t.span.start ≤ t.span.stop ∧ t.span.stop ≤ b := by
  induction h with
  | nil _ => cases ht
  | cons hle hts ih =>
    rcases List.mem_cons.mp ht with rfl | ht
    · exact ⟨hle, hts.le⟩
    · exact ih ht

/-- Every text whose end is an offset is cut into pieces by its tokens. -/
theorem scan_partitions (text : String) (hsize : text.utf8ByteSize ≤ maxOffset) :
    Partitions (scan text) text where
  contiguous := scan_tiles text
  solid := by
    obtain ⟨body, heq, hkind, -⟩ := scan_eq text
    refine ⟨body, heq, fun t ht => ⟨hkind t ht, ?_⟩⟩
    exact scan_solid text (heq ▸ List.mem_append_left _ ht) (hkind t ht)
  boundary t ht := scan_boundary text ht
  offsets t ht := by
    obtain ⟨hle, hstop⟩ := (scan_tiles text).bounds ht
    unfold Span.ofRange
    rw [if_neg (by omega), if_neg (by omega)]
  joined := by
    have htiles : Tiles "".utf8ByteSize (scan text) text.utf8ByteSize := scan_tiles text
    exact htiles.join_textIn String.empty_append.symm fun t ht => (scan_boundary text ht).1

/-- A string that is broken off behind a character of two bytes. -/
theorem broken_string_is_partitioned : "é'ü\n".utf8ByteSize ≤ maxOffset ∧
    Partitions (scan "é'ü\n") "é'ü\n" := by
  have hsize : "é'ü\n".utf8ByteSize ≤ maxOffset := by decide
  exact ⟨hsize, scan_partitions _ hsize⟩

end ScriptAnalysis
