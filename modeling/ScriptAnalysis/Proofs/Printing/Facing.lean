import ScriptAnalysis.Proofs.Grammar.Lookahead
import ScriptAnalysis.Proofs.Grammar.Outcome
import ScriptAnalysis.Proofs.Recording.Settled
import ScriptAnalysis.Proofs.Printing.Syntax

/-!
# What a faultless parse has before it

`s.Facing source ws` says that `ws` are the words ahead and that no fault is on record.  Each
building block of productions is described by the words that it takes; none of them reports a fault
as long as the words are those it asks for.

Nothing is said of markers but that they stand for no fault, so it does not matter here which marker
a production puts around what it reads.
-/

namespace ScriptAnalysis

/-! ### Recordings without faults -/

namespace Draft

variable {d d' : Draft} {id : MarkerId}

/-- No marker stands for a fault. -/
def Faultless (d : Draft) : Prop := ∀ id, (d.marker id).state ≠ .error

theorem Faultless.set (h : d.Faultless) (i : MarkerId) {m : Marker} (hm : m.state ≠ .error)
    (id : MarkerId) : ((d.markers.setIfInBounds i m).getD id {}).state ≠ .error := by
  by_cases hi : i < d.markers.size
  · rw [d.marker_setIfInBounds i id m hi]
    split
    · exact hm
    · exact h id
  · rw [Array.setIfInBounds_eq_of_size_le (Nat.le_of_not_lt hi)]
    exact h id

theorem Faultless.modifyMarker (h : d.Faultless) (i : MarkerId) {f : Marker → Marker}
    (hf : ∀ m, (f m).state = m.state) : (d.modifyMarker i f).Faultless := by
  intro id
  have hid := h id
  simp only [marker, Draft.modifyMarker, Array.getD_eq_getD_getElem?,
    Array.getElem?_modify] at hid ⊢
  split
  · cases hm : d.markers[id]? with
    | none =>
      rw [hm] at hid
      exact hid
    | some m =>
      rw [hm, Option.getD_some] at hid
      rw [Option.map_some, Option.getD_some, hf]
      exact hid
  · exact hid

theorem Faultless.push (h : d.Faultless) (ts : List Token) (id : MarkerId) :
    ((d.markers.push { resume := ts }).getD id {}).state ≠ .error := by
  rw [d.marker_push]
  split
  · exact MarkerState.noConfusion
  · exact h id

/-- What a change keeps that neither takes tokens nor reports a fault. -/
structure Calm (d d' : Draft) : Prop where
  ahead : d'.ahead = d.ahead
  faultless : d.Faultless → d'.Faultless

theorem openMarker_calm (h : d.openMarker = .ok (id, d')) : d.Calm d' := by
  unfold openMarker at h
  split at h
  · cases h
  · cases h
    exact ⟨rfl, fun hd => hd.push d.ahead⟩

theorem openBefore_calm {inner : MarkerId} (h : d.openBefore inner = .ok (id, d')) : d.Calm d' := by
  unfold openBefore at h
  split at h
  · cases h
  · cases h
    exact ⟨rfl, fun hd => hd.push _⟩

theorem close_calm {state : MarkerState} (hstate : state ≠ .error)
    (h : d.close id state = .ok d') : d.Calm d' := by
  obtain ⟨-, outer, -, rfl⟩ := close_cases h
  exact ⟨rfl, fun hd i => hd.set id hstate i⟩

theorem closeWith_calm {node : NodeId} {ast : Ast} (h : d.closeWith id node ast = .ok d') :
    d.Calm d' := by
  unfold closeWith at h
  split at h
  · obtain ⟨d₁, hclose, rfl⟩ := closeAs_cases h
    have hcalm := close_calm MarkerState.noConfusion hclose
    exact ⟨hcalm.ahead, fun hd => (hcalm.faultless hd).modifyMarker id fun _ => rfl⟩
  · exact close_calm MarkerState.noConfusion h

/-- The kinds and the texts of the tokens ahead that are no trivia. -/
def wordsAhead (source : String) (d : Draft) : List Word :=
  (significant d.ahead).map fun t => (t.kind, t.textIn source)

variable {source : String} {w v : Word} {ws : List Word}

/-- The next token is spelled by the first word ahead. -/
theorem current_of_wordsAhead (h : d.wordsAhead source = w :: ws) :
    d.current.kind = w.1 ∧ d.current.textIn source = w.2 := by
  unfold wordsAhead at h
  cases hs : significant d.ahead with
  | nil =>
    rw [hs] at h
    cases h
  | cons t ts =>
    rw [hs] at h
    cases h
    unfold current lookahead
    rw [nthSignificant_eq, hs]
    exact ⟨rfl, rfl⟩

/-- The kinds further ahead are those of the words further ahead. -/
theorem kind_lookahead (h : d.wordsAhead source = ws) {n : Nat} (hn : n < ws.length) :
    (d.lookahead n).kind = ws[n].1 := by
  have hword : (significant d.ahead)[n]?.map (fun t => (t.kind, t.textIn source)) = some ws[n] := by
    rw [← List.getElem?_map]
    exact (congrArg (·[n]?) h).trans (List.getElem?_eq_getElem hn)
  obtain ⟨t, ht, heq⟩ := Option.map_eq_some_iff.mp hword
  unfold lookahead
  rw [nthSignificant_eq, ht, ← heq]
  rfl

theorem wordsAhead_advance (h : d.wordsAhead source = w :: ws) :
    d.advance.wordsAhead source = ws := by
  unfold wordsAhead at h ⊢
  rw [significant_advance, List.map_tail, h]
  rfl

end Draft

/-! ### Before words -/

open Production

/-- These are the words ahead, and no fault is on record. -/
structure ParseState.Facing (source : String) (ws : List Word) (s : ParseState) : Prop where
  ahead : s.draft.wordsAhead source = ws
  faultless : s.draft.Faultless

/-- From `s` on the parse came to face these words, and the arena was only added to. -/
structure ParseState.Reaches (source : String) (s : ParseState) (ws : List Word)
    (s' : ParseState) : Prop extends s'.Facing source ws where
  grown : s.ast.Extends s'.ast

variable {source : String} {w : Word} {ws vs : List Word} {s s' s'' : ParseState} {α : Type}

theorem ParseState.Facing.reaches (h : s.Facing source ws) : s.Reaches source ws s :=
  ⟨h, .refl _⟩

theorem ParseState.Reaches.trans (h : s.Reaches source vs s') (k : s'.Reaches source ws s'') :
    s.Reaches source ws s'' := ⟨k.toFacing, h.grown.trans k.grown⟩

namespace ParseState.Facing

theorem kind (h : s.Facing source (w :: ws)) : s.draft.current.kind = w.1 :=
  (Draft.current_of_wordsAhead h.ahead).1

theorem text (h : s.Facing source (w :: ws)) : s.draft.current.textIn source = w.2 :=
  (Draft.current_of_wordsAhead h.ahead).2

theorem calm {d : Draft} (h : s.Facing source ws) (hd : s.draft.Calm d) :
    s.Reaches source ws { s with draft := d } :=
  ⟨⟨by rw [← h.ahead, Draft.wordsAhead, Draft.wordsAhead, hd.ahead], hd.faultless h.faultless⟩,
    .refl _⟩

theorem allocated (h : s.Facing source ws) (data : NodeData) (span : Span) :
    s.Reaches source ws (s.allocated data span) :=
  ⟨⟨h.ahead, h.faultless⟩, s.extends_allocated data span⟩

end ParseState.Facing

namespace Production

/-- The next word is taken. -/
theorem advance_reaches (h : s.Facing source (w :: ws)) :
    advance.Ensures s fun _ s' => s.Reaches source ws s' :=
  ensures_modify.mpr ⟨⟨Draft.wordsAhead_advance h.ahead, h.faultless⟩, .refl _⟩

theorem at?_hit (h : s.Facing source (w :: ws)) {k : TokenKind} (hk : w.1 = k) :
    (at? k).Ensures s fun found s' => found = true ∧ s' = s :=
  ensures_at?.mpr ⟨beq_iff_eq.mpr (h.kind.trans hk), rfl⟩

theorem at?_miss (h : s.Facing source (w :: ws)) {k : TokenKind} (hk : w.1 ≠ k) :
    (at? k).Ensures s fun found s' => found = false ∧ s' = s :=
  ensures_at?.mpr ⟨beq_eq_false_iff_ne.mpr (h.kind ▸ hk), rfl⟩

/-- The next word is taken if it is of the kind. -/
theorem accept_hit (h : s.Facing source (w :: ws)) {k : TokenKind} (hk : w.1 = k) :
    (accept k).Ensures s fun found s' => found = true ∧ s.Reaches source ws s' := by
  refine ensures_bind.mpr ((at?_hit h hk).mono ?_)
  rintro found s' ⟨rfl, rfl⟩
  rw [if_pos rfl]
  exact ensures_bind.mpr ((advance_reaches h).mono fun _ s' hs' => ensures_pure.mpr ⟨rfl, hs'⟩)

theorem accept_miss (h : s.Facing source (w :: ws)) {k : TokenKind} (hk : w.1 ≠ k) :
    (accept k).Ensures s fun found s' => found = false ∧ s' = s := by
  refine ensures_bind.mpr ((at?_miss h hk).mono ?_)
  rintro found s' ⟨rfl, rfl⟩
  rw [if_neg Bool.false_ne_true]
  exact ensures_pure.mpr ⟨rfl, rfl⟩

theorem expect_reaches (h : s.Facing source (w :: ws)) {k : TokenKind} (hk : w.1 = k)
    (what : String) :
    (expect source k what).Ensures s fun found s' => found = true ∧ s.Reaches source ws s' := by
  refine ensures_bind.mpr ((accept_hit h hk).mono ?_)
  rintro found s' ⟨rfl, hs'⟩
  exact ensures_pure.mpr ⟨rfl, hs'⟩

theorem openMarker_reaches (h : s.Facing source ws) :
    openMarker.Ensures s fun _ s' => s.Reaches source ws s' :=
  ensures_recordNew.mpr fun _ _ hopen => h.calm (Draft.openMarker_calm hopen)

theorem openBefore_reaches (h : s.Facing source ws) (inner : MarkerId) :
    (openBefore inner).Ensures s fun _ s' => s.Reaches source ws s' :=
  ensures_recordNew.mpr fun _ _ hopen => h.calm (Draft.openBefore_calm hopen)

theorem close_reaches (h : s.Facing source ws) (m : MarkerId) (n : NodeId) :
    (close m n).Ensures s fun _ s' => s.Reaches source ws s' ∧ s'.ast = s.ast :=
  ensures_close.mpr fun _ hclose => ⟨h.calm (Draft.closeWith_calm hclose), rfl⟩

theorem dissolve_reaches (h : s.Facing source ws) (m : MarkerId) :
    (dissolve m).Ensures s fun _ s' => s.Reaches source ws s' :=
  ensures_record.mpr fun _ hclose => h.calm (Draft.close_calm MarkerState.noConfusion hclose)

/-- A node is added that means what it is said to mean. -/
theorem finish_reaches (h : s.Facing source ws) (m : MarkerId) (start : Nat) (data : NodeData) :
    (finish m start data).Ensures s fun n s' =>
      s.Reaches source ws s' ∧ s'.ast.data? n = some data := by
  refine ensures_bind.mpr (ensures_allocFrom.mpr ?_)
  have hnew := h.allocated data ⟨start, max s.lastEnd start⟩
  refine ensures_bind.mpr ((close_reaches hnew.toFacing m s.ast.size).mono ?_)
  rintro _ s' ⟨hs', hast⟩
  refine ensures_pure.mpr ⟨hnew.trans hs', ?_⟩
  rw [hast]
  exact s.data?_allocated data _

end Production

end ScriptAnalysis
