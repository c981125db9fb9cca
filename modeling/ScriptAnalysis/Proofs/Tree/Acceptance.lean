import ScriptAnalysis.Proofs.Recording.Bracketed
import ScriptAnalysis.Proofs.Tree.Replay

/-!
# Which recordings have a tree

A recording may have been changed by hand, so its events may be anything.  It has a tree exactly if
its events are `Bracketed` and a token comes after the start of each marker that becomes a node; the
replay finds both out on the way.  Otherwise it stops at the first event that is a violation
(`Transcript.ViolationAt`), or at the end, if a marker is left open there.
-/

namespace ScriptAnalysis

namespace Transcript

variable {t : Transcript} {file : FileId} {ast : Ast} {before after rest : List Event} {e : Event}
  {a : Assembly} {frames : List Frame} {fault : Fault} {n : Nat}

/-! ### Violations -/

/-- The first token of a marker that is no trivia is known: it was found when the marker was closed,
    or it is among the events behind its start. -/
def HasToken (t : Transcript) (id : MarkerId) (after : List Event) : Prop :=
  (t.marker id).offset.isSome = true ∨ ∃ token, .token token ∈ after ∧ token.isTrivia = false

/-- What is wrong with an event that stands behind the events `before` and in front of `after`. -/
inductive Violates (t : Transcript) (ast : Ast) (before after : List Event) : Event → Fault → Prop
  /-- The end of a marker that is not the innermost one left open. -/
  | stop {id : MarkerId} :
      ¬ LeftOpen before id → Violates t ast before after (.stop id) (.unbalanced id)
  /-- The start of a node without a token. -/
  | start {id : MarkerId} :
      (t.marker id).hasTreeNode ast = true → ¬ t.HasToken id after →
      Violates t ast before after (.start id) (.withoutToken id)

/-- The event that has `n` events before it is a violation. -/
def ViolationAt (t : Transcript) (ast : Ast) (n : Nat) (fault : Fault) : Prop :=
  ∃ before e after, t.events = before ++ e :: after ∧ before.length = n ∧
    t.Violates ast before after e fault

theorem hasToken_iff {id : MarkerId} :
    t.HasToken id after ↔ ((t.marker id).offset.or (firstOffset after)).isSome = true := by
  have hfirst : (firstOffset after).isSome = true ↔
      ∃ token, .token token ∈ after ∧ token.isTrivia = false := by
    unfold firstOffset
    rw [List.findSome?_isSome_iff]
    constructor
    · rintro ⟨e, he, hoffset⟩
      cases e with
      | token token =>
        refine ⟨token, he, ?_⟩
        by_contra htrivia
        simp [Event.significantOffset?, htrivia] at hoffset
      | start id => cases hoffset
      | stop id => cases hoffset
    · rintro ⟨token, he, htrivia⟩
      exact ⟨.token token, he, by simp [Event.significantOffset?, htrivia]⟩
  unfold HasToken
  rw [Option.isSome_or, Bool.or_eq_true, hfirst]

theorem violationAt_iff (h : t.events = before ++ e :: after) :
    t.ViolationAt ast before.length fault ↔ t.Violates ast before after e fault := by
  constructor
  · rintro ⟨before', e', after', hevents, hlength, hviolates⟩
    obtain ⟨rfl, hrest⟩ := List.append_inj (hevents.symm.trans h) hlength
    obtain ⟨rfl, rfl⟩ := List.cons.inj hrest
    exact hviolates
  · intro hviolates
    exact ⟨before, e, after, h, rfl, hviolates⟩

/-- An event violates in one way only. -/
theorem ViolationAt.unique {other : Fault} (h : t.ViolationAt ast n fault)
    (h' : t.ViolationAt ast n other) : fault = other := by
  obtain ⟨before, e, after, hevents, rfl, hviolates⟩ := h
  have hviolates' := (violationAt_iff hevents).mp h'
  cases hviolates with
  | stop => cases hviolates' with | stop => rfl
  | start => cases hviolates' with | start => rfl

/-! ### What the replay answers -/

/-- What it takes for an answer of the replay to be right. -/
def Justified (t : Transcript) (ast : Ast) : Except Fault Assembly → Prop
  | .ok _ => (∀ n fault, ¬ t.ViolationAt ast n fault) ∧ Bracketed t.events
  | .error fault =>
    (∃ n, t.ViolationAt ast n fault ∧ ∀ m < n, ∀ other, ¬ t.ViolationAt ast m other) ∨
      ((∀ n other, ¬ t.ViolationAt ast n other) ∧
        ∃ id, fault = .unbalanced id ∧ LeftOpen t.events id)

/-- By induction on the events that are left: no event before them is a violation, and the markers
    entered and not left are those that are open there. -/
theorem replay_justified (hevents : t.events = before ++ rest)
    (hopen : openedAfter [] before = some (frames.map Frame.marker))
    (hclear : ∀ n < before.length, ∀ other, ¬ t.ViolationAt ast n other) :
    t.Justified ast (t.replay file ast rest a frames) := by
  induction rest generalizing before a frames with
  | nil =>
    rw [List.append_nil] at hevents
    have hnone : ∀ n other, ¬ t.ViolationAt ast n other := by
      rintro n other ⟨before', e, after, hevents', rfl, hviolates⟩
      refine hclear before'.length ?_ other ⟨before', e, after, hevents', rfl, hviolates⟩
      rw [← hevents, hevents', List.length_append, List.length_cons]
      omega
    rw [← hevents] at hopen
    cases frames with
    | nil => exact ⟨hnone, bracketed_iff.mpr hopen⟩
    | cons frame frames =>
      exact Or.inr ⟨hnone, frame.marker, rfl, (leftOpen_iff hopen).mpr rfl⟩
  | cons e rest ih =>
    have hnext : ∀ {a' : Assembly} {frames' : List Frame},
        openedAfter (frames.map Frame.marker) [e] = some (frames'.map Frame.marker) →
        (∀ other, ¬ t.Violates ast before rest e other) →
        t.Justified ast (t.replay file ast rest a' frames') := by
      intro a' frames' hstep hno
      have hevents' : t.events = (before ++ [e]) ++ rest := by simp [hevents]
      refine ih hevents' ?_ ?_
      · rw [openedAfter_append, hopen]
        exact hstep
      · intro n hn other hviolation
        rw [List.length_append, List.length_singleton] at hn
        rcases Nat.lt_succ_iff_lt_or_eq.mp hn with hn | rfl
        · exact hclear n hn other hviolation
        · exact hno other ((violationAt_iff hevents).mp hviolation)
    have hfails : ∀ {fault : Fault}, t.Violates ast before rest e fault →
        t.Justified ast (.error fault) :=
      fun hviolates => Or.inl ⟨before.length, (violationAt_iff hevents).mpr hviolates, hclear⟩
    cases e with
    | token token => exact hnext (by simp) (by rintro other ⟨⟩)
    | start id =>
      unfold replay
      dsimp only
      split
      · next hnode =>
        split
        · next hnone =>
          refine hfails (.start hnode ?_)
          rw [hasToken_iff, hnone]
          simp
        · next offset hoffset =>
          refine hnext (by simp) ?_
          rintro other (_ | ⟨-, hno⟩)
          rw [hasToken_iff, hoffset] at hno
          exact hno rfl
      · next hnode =>
        refine hnext (by simp) ?_
        rintro other (_ | ⟨hyes, -⟩)
        exact hnode hyes
    | stop id =>
      have hmatch := leftOpen_iff (m := id) hopen
      cases frames with
      | nil =>
        refine hfails (.stop ?_)
        rw [hmatch]
        simp
      | cons frame outer =>
        unfold replay
        dsimp only
        split
        · next hid =>
          refine hfails (.stop ?_)
          rw [hmatch]
          simpa using hid
        · next hid =>
          have hid : frame.marker = id := Decidable.not_not.mp hid
          subst hid
          have hno : ∀ other, ¬ t.Violates ast before rest (.stop frame.marker) other := by
            rintro other (⟨hno⟩ | _)
            exact hno (hmatch.mpr rfl)
          split <;> exact hnext (by simp) hno

theorem assemble_justified (t : Transcript) (file : FileId) (ast : Ast) :
    t.Justified ast (t.assemble file ast) := by
  have hevents : t.events = [] ++ t.events := rfl
  refine replay_justified hevents (openedAfter_nil []) ?_
  intro n hn
  cases hn

/-- Where everything is well bracketed only a missing token is a violation. -/
theorem violationAt_of_bracketed (h : Bracketed t.events) :
    (∀ n other, ¬ t.ViolationAt ast n other) ↔
      ∀ before id after, t.events = before ++ .start id :: after →
        (t.marker id).hasTreeNode ast = true → t.HasToken id after := by
  constructor
  · intro hclear before id after hevents hnode
    by_contra hno
    exact hclear before.length _ ((violationAt_iff hevents).mpr (.start hnode hno))
  · rintro htoken n other ⟨before, e, after, hevents, -, hviolates⟩
    cases hviolates with
    | @stop id hno => exact hno (leftOpen_of_stop (bracketed_iff.mp (hevents ▸ h)))
    | @start id hnode hno => exact hno (htoken before id after hevents hnode)

/-- At most one fault is justified. -/
theorem Justified.unique {other : Fault} (h : t.Justified ast (.error fault))
    (h' : t.Justified ast (.error other)) : fault = other := by
  rcases h with ⟨n, hn, hfirst⟩ | ⟨hnone, id, rfl, hopen⟩
  · rcases h' with ⟨n', hn', hfirst'⟩ | ⟨hnone, -⟩
    · rcases Nat.lt_trichotomy n n' with hlt | rfl | hlt
      · exact absurd hn (hfirst' n hlt _)
      · exact hn.unique hn'
      · exact absurd hn' (hfirst n' hlt _)
    · exact absurd hn (hnone n _)
  · rcases h' with ⟨n', hn', -⟩ | ⟨-, id', rfl, hopen'⟩
    · exact absurd hn' (hnone n' _)
    · rw [hopen.unique hopen']

/-- Where a tree is justified no fault is. -/
theorem Justified.not_error {r : Assembly} (h : t.Justified ast (.ok r)) :
    ¬ t.Justified ast (.error fault) := by
  rintro (⟨n, hn, -⟩ | ⟨-, id, -, hopen⟩)
  · exact h.1 n _ hn
  · exact h.2.not_leftOpen hopen

theorem assemble_ne_unbalanced (h : Bracketed t.events) (file : FileId) (ast : Ast)
    (id : MarkerId) : t.assemble file ast ≠ .error (.unbalanced id) := by
  intro hassemble
  have hanswer := t.assemble_justified file ast
  rw [hassemble] at hanswer
  rcases hanswer with ⟨n, hviolation, -⟩ | ⟨-, j, -, hopen⟩
  · obtain ⟨before, e, after, hevents, -, hviolates⟩ := hviolation
    cases hviolates with
    | stop hno =>
      exact hno (leftOpen_of_stop (bracketed_iff.mp (hevents ▸ h)))
  · exact h.not_leftOpen hopen

/-- A recording has a tree if and only if its events are well bracketed and a token follows the
    start of each marker that becomes a node.  Otherwise the first event that is a violation is
    named, and if there is none, the innermost marker that is left open. -/
theorem assembles_or_names_first_violation (t : Transcript) (file : FileId) (ast : Ast) :
    ((∃ r, t.assemble file ast = .ok r) ↔
      Bracketed t.events ∧ ∀ before id after, t.events = before ++ .start id :: after →
        (t.marker id).hasTreeNode ast = true → t.HasToken id after) ∧
    ∀ fault, t.assemble file ast = .error fault ↔
      (∃ n, t.ViolationAt ast n fault ∧ ∀ m < n, ∀ other, ¬ t.ViolationAt ast m other) ∨
        ((∀ n other, ¬ t.ViolationAt ast n other) ∧
          ∃ id, fault = .unbalanced id ∧ LeftOpen t.events id) := by
  have hanswer := t.assemble_justified file ast
  constructor
  · constructor
    · rintro ⟨r, hr⟩
      rw [hr] at hanswer
      exact ⟨hanswer.2, (violationAt_of_bracketed hanswer.2).mp hanswer.1⟩
    · rintro ⟨hbracketed, htoken⟩
      have hok : ∀ r, t.Justified ast (.ok r) :=
        fun _ => ⟨(violationAt_of_bracketed hbracketed).mpr htoken, hbracketed⟩
      cases hassemble : t.assemble file ast with
      | ok r => exact ⟨r, rfl⟩
      | error fault =>
        rw [hassemble] at hanswer
        exact absurd hanswer (hok {}).not_error
  · intro fault
    constructor
    · intro hfault
      rw [hfault] at hanswer
      exact hanswer
    · intro hfault
      have hfault : t.Justified ast (.error fault) := hfault
      cases hassemble : t.assemble file ast with
      | ok r =>
        rw [hassemble] at hanswer
        exact absurd hfault hanswer.not_error
      | error other =>
        rw [hassemble] at hanswer
        rw [hanswer.unique hfault]

end Transcript

end ScriptAnalysis
