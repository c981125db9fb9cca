import Mathlib.Data.List.TakeWhile
import ScriptAnalysis.Proofs.Recording.Balance
import ScriptAnalysis.Proofs.Recording.Settled

/-!
# What an action does to a draft

`Draft.Step` lists what an action can do to a draft, with all that it changes: it records tokens,
opens a marker at the end of the events or in front of another one, takes a marker back, or closes
the innermost opened one.  A property that every such step keeps is a property of every draft that
comes about without misuse (`Placed.applyAll`).

Here nothing is asked of the actions, so a marker may be put around a closed one across the start of
an open one.  The events are then no longer those of a stack of markers, but each marker still
starts once (`Draft.Placed`).
-/

namespace ScriptAnalysis

namespace Draft

variable {d d₁ d' : Draft} {id inner m : MarkerId} {action : RecordAction}

/-! ### Steps -/

/-- The innermost opened marker is closed, with a new message or without one. -/
def Finishes (d : Draft) (id : MarkerId) (d' : Draft) : Prop :=
  d.Settles id d' ∨ ∃ diagnostic, d.Tells id diagnostic d'

namespace Finishes

theorem closes (h : d.Finishes id d') : d.Closes id d' := by
  rcases h with h | ⟨_, h⟩
  · exact h.toCloses
  · exact h.toCloses

theorem was_opened (h : d.Finishes id d') : (d.marker id).state = .opened := by
  rcases h with h | ⟨_, h⟩
  · exact h.was_opened
  · exact h.was_opened

theorem isClosed (h : d.Finishes id d') : (d'.marker id).state.isClosed = true := by
  rcases h with h | ⟨_, h⟩
  · rcases h.state with hstate | hstate <;>
    · rw [hstate]
      rfl
  · rw [h.state]
    rfl

end Finishes

/-- What an action can do to a draft. -/
inductive Step (d : Draft) : RecordAction → Draft → Prop
  /-- The next token is not the one wanted, or the parse is cancelled. -/
  | idle {action : RecordAction} : Step d action d
  | record {action : RecordAction} (ts ahead : List Token) : d.ahead = ts ++ ahead →
      Step d action { d with ahead, history := (ts.map .token).reverse ++ d.history }
  | opens (marksLeft : Option Nat) :
      Step d .openMarker { d with
        markers := d.markers.push { resume := d.ahead }
        history := .start d.markers.size :: d.history
        opened := d.markers.size :: d.opened
        marksLeft }
  | around {inner : MarkerId} {later earlier : List Event} :
      d.history = later ++ .start inner :: earlier → .start inner ∉ later →
      Step d (.openBefore inner) { d with
        markers := d.markers.push { resume := (d.marker inner).resume }
        history := later ++ .start inner :: .start d.markers.size :: earlier
        opened := if inner ∈ d.opened then insertOutside inner d.markers.size d.opened
          else d.markers.size :: d.opened }
  | takesBack {id : MarkerId} {later earlier : List Event} :
      (d.marker id).state = .opened →
      d.history = later ++ .start id :: earlier → .start id ∉ later →
      Step d (.undo id)
        { ((later ++ [Event.start id]).filterMap Event.started?).foldl retract d with
        history := earlier
        opened := if id ∈ d.opened then (d.opened.dropWhile (· ≠ id)).tail else d.opened
        ahead := (d.marker id).resume }
  | closes {action : RecordAction} {id : MarkerId} {d' : Draft} :
      d.Finishes id d' → Step d action d'

theorem start_notMem_since (d : Draft) (id : MarkerId) : .start id ∉ d.since id := by
  intro hmem
  have := List.mem_takeWhile_imp hmem
  simp [Event.isStart] at this

theorem advance_step (d : Draft) (action : RecordAction) : d.Step action d.advance := by
  rcases advance_cases d with ⟨blank, t, rest, hahead, -, -, -, hadv⟩ | ⟨-, hadv⟩
  · rw [hadv]
    exact .record (blank ++ [t]) rest (by simp [hahead])
  · rw [hadv]
    exact .record d.ahead [] (List.append_nil _).symm

theorem undo_step (hok : d.undo id = .ok d') : d.Step (.undo id) d' := by
  obtain ⟨hstate, earlier, hhistory, rfl⟩ := undo_cases hok
  exact .takesBack hstate hhistory (d.start_notMem_since id)

theorem openBefore_step (hok : d.openBefore inner = .ok (id, d')) :
    d.Step (.openBefore inner) d' := by
  obtain ⟨-, earlier, hhistory, rfl⟩ := openBefore_cases hok
  exact .around hhistory (d.start_notMem_since inner)

/-- An action that is allowed does one of these steps. -/
theorem apply_step (hknown : ∀ id ∈ d.opened, id < d.markers.size)
    (hok : d.apply action = .ok d') : d.Step action d' := by
  cases action with
  | advance =>
    cases hok
    exact d.advance_step _
  | accept kind =>
    cases hok
    split
    · exact d.advance_step _
    · exact .idle
  | openMarker =>
    cases hopen : d.openMarker with
    | error e =>
      simp only [Draft.apply, hopen] at hok
      cases hok
      exact .idle
    | ok r =>
      obtain ⟨id, d₁⟩ := r
      simp only [Draft.apply, hopen] at hok
      cases hok
      unfold Draft.openMarker at hopen
      split at hopen
      · cases hopen
      · cases hopen
        exact .opens _
  | openBefore inner =>
    cases hopen : d.openBefore inner with
    | error e =>
      simp only [Draft.apply, hopen] at hok
      cases hok
    | ok r =>
      obtain ⟨id, d₁⟩ := r
      simp only [Draft.apply, hopen] at hok
      cases hok
      exact openBefore_step hopen
  | undo id => exact undo_step hok
  | closeAs id node kind => exact .closes (.inl (closeAs_settles hknown hok))
  | closeWith id node ast => exact .closes (.inl (closeWith_settles hknown hok))
  | closeGroup id => exact .closes (.inl (closeGroup_settles hknown hok))
  | dissolve id => exact .closes (.inl (dissolve_settles hknown hok))
  | closeError id diagnostic =>
    exact .closes ((closeError_told hknown hok).imp (·.2) fun htells => ⟨diagnostic, htells⟩)

/-- No marker is ever forgotten. -/
theorem Step.size_le (hs : d.Step action d') : d.markers.size ≤ d'.markers.size := by
  cases hs with
  | idle => exact Nat.le_refl _
  | record ts ahead _ => exact Nat.le_refl _
  | opens marksLeft => simp
  | around _ _ => simp
  | takesBack _ _ _ => exact Nat.le_of_eq (foldl_retract _ d).2.2.2.1.symm
  | closes hfinishes => exact Nat.le_of_eq hfinishes.closes.size.symm

/-- A marker that is not opened is never opened again. -/
theorem Step.opened_before (hs : d.Step action d') (hm : m < d.markers.size)
    (hstate : (d'.marker m).state = .opened) : (d.marker m).state = .opened := by
  cases hs with
  | idle => exact hstate
  | record ts ahead _ => exact hstate
  | opens marksLeft =>
    have hmarker := d.marker_push { resume := d.ahead } m
    rw [if_neg (Nat.ne_of_lt hm)] at hmarker
    exact (congrArg Marker.state hmarker).symm.trans hstate
  | @around inner later earlier _ _ =>
    have hmarker := d.marker_push { resume := (d.marker inner).resume } m
    rw [if_neg (Nat.ne_of_lt hm)] at hmarker
    exact (congrArg Marker.state hmarker).symm.trans hstate
  | @takesBack id later earlier _ _ _ =>
    have hretracted :=
      foldl_retract_state ((later ++ [Event.start id]).filterMap Event.started?) d hm
    have hstate := hretracted.symm.trans hstate
    split at hstate
    · cases hstate
    · exact hstate
  | @closes action id d' hfinishes =>
    by_cases hid : m = id
    · rw [hid]
      exact hfinishes.was_opened
    · rw [hfinishes.closes.marker m hid] at hstate
      exact hstate

/-! ### Where markers start -/

/-- Each marker that was not taken back starts among the events, and it starts only once. -/
structure Placed (d : Draft) : Prop where
  once : (d.history.filterMap Event.started?).Nodup
  known : ∀ id, .start id ∈ d.history → id < d.markers.size
  stacked : ∀ id ∈ d.opened, id < d.markers.size
  starts : ∀ id < d.markers.size, (d.marker id).state ≠ .rolledBack → .start id ∈ d.history

namespace Placed

theorem ofTokens (tokens : List Token) (marksLeft : Option Nat) :
    (Draft.ofTokens tokens marksLeft).Placed := by
  refine ⟨List.nodup_nil, ?_, ?_, ?_⟩
  · intro id hid
    cases hid
  · intro id hid
    cases hid
  · intro id hid
    cases hid

/-- A new marker starts somewhere among the events. -/
theorem push (h : d.Placed) {p q : List Event} {resume : List Token}
    (hhistory : d.history = p ++ q) (hmarkers : d'.markers = d.markers.push { resume })
    (hhistory' : d'.history = p ++ .start d.markers.size :: q)
    (hopened : ∀ id ∈ d'.opened, id = d.markers.size ∨ id ∈ d.opened) : d'.Placed := by
  have hsize : d'.markers.size = d.markers.size + 1 := by
    rw [hmarkers, Array.size_push]
  have hstart : ∀ id, .start id ∈ d'.history ↔ id = d.markers.size ∨ .start id ∈ d.history := by
    intro id
    rw [hhistory', hhistory]
    simp only [List.mem_append, List.mem_cons, Event.start.injEq]
    tauto
  have hnew : .start d.markers.size ∉ d.history := fun hmem => Nat.lt_irrefl _ (h.known _ hmem)
  refine ⟨?_, ?_, ?_, ?_⟩
  · have hperm : (d'.history.filterMap Event.started?).Perm
        (d.markers.size :: d.history.filterMap Event.started?) := by
      rw [hhistory', hhistory, List.filterMap_append, List.filterMap_append]
      exact List.perm_middle
    rw [hperm.nodup_iff]
    exact List.nodup_cons.mpr ⟨mt mem_started_iff.mp hnew, h.once⟩
  · intro id hid
    rw [hsize]
    rcases (hstart id).mp hid with rfl | hid
    · exact Nat.lt_succ_self _
    · exact Nat.lt_succ_of_lt (h.known id hid)
  · intro id hid
    rw [hsize]
    rcases hopened id hid with rfl | hid
    · exact Nat.lt_succ_self _
    · exact Nat.lt_succ_of_lt (h.stacked id hid)
  · intro id hid hstate
    rw [hstart]
    by_cases hlast : id = d.markers.size
    · exact .inl hlast
    · rw [hsize] at hid
      unfold marker at hstate
      rw [hmarkers, marker_push, if_neg hlast] at hstate
      exact .inr (h.starts id (by omega) hstate)

theorem mem_insertOutside {outer : MarkerId} {ids : List MarkerId}
    (h : m ∈ insertOutside inner outer ids) : m = outer ∨ m ∈ ids := by
  induction ids with
  | nil => cases h
  | cons i ids ih =>
    unfold insertOutside at h
    split at h
    · simp only [List.mem_cons] at h ⊢
      tauto
    · rcases List.mem_cons.mp h with rfl | h
      · exact .inr List.mem_cons_self
      · exact (ih h).imp id (List.mem_cons_of_mem i)

/-- Taking a marker back takes back all that start since. -/
theorem takeBack (h : d.Placed) {later earlier : List Event}
    (hhistory : d.history = later ++ .start id :: earlier) (hold : d'.history = earlier)
    (hmarkers : d'.markers =
      (((later ++ [Event.start id]).filterMap Event.started?).foldl retract d).markers)
    (hopened : d'.opened ⊆ d.opened) : d'.Placed := by
  let ids := (later ++ [Event.start id]).filterMap Event.started?
  have hsize : d'.markers.size = d.markers.size := by
    rw [hmarkers]
    exact (foldl_retract ids d).2.2.2.1
  have hsplit : d.history = (later ++ [.start id]) ++ earlier := by
    rw [hhistory]
    simp
  refine ⟨?_, ?_, ?_, ?_⟩
  · have honce := h.once
    rw [hsplit, List.filterMap_append] at honce
    rw [hold]
    exact (List.nodup_append.mp honce).2.1
  · intro j hj
    rw [hold] at hj
    rw [hsize]
    refine h.known j ?_
    rw [hsplit]
    exact List.mem_append_right _ hj
  · intro j hj
    rw [hsize]
    exact h.stacked j (hopened hj)
  · intro j hj hstate
    rw [hsize] at hj
    have hretracted := foldl_retract_state ids d hj
    unfold marker at hstate
    rw [hmarkers] at hstate
    have hkept : j ∉ ids := by
      intro hmem
      rw [if_pos hmem] at hretracted
      exact hstate hretracted
    rw [if_neg hkept] at hretracted
    have hmem := h.starts j hj fun hgone => hstate (hretracted.trans hgone)
    rw [hsplit] at hmem
    rw [hold]
    exact (List.mem_append.mp hmem).resolve_left fun hmem => hkept (mem_started_iff.mpr hmem)

/-- Nothing starts and nothing is taken back. -/
theorem congr (h : d.Placed)
    (hstarted : d'.history.filterMap Event.started? = d.history.filterMap Event.started?)
    (hsize : d'.markers.size = d.markers.size) (hopened : d'.opened ⊆ d.opened)
    (hstate : ∀ id, (d'.marker id).state ≠ .rolledBack → (d.marker id).state ≠ .rolledBack) :
    d'.Placed := by
  have hstart : ∀ id, .start id ∈ d'.history ↔ .start id ∈ d.history := by
    intro id
    rw [← mem_started_iff, ← mem_started_iff, hstarted]
  refine ⟨?_, ?_, ?_, ?_⟩
  · rw [hstarted]
    exact h.once
  · intro id hid
    rw [hsize]
    exact h.known id ((hstart id).mp hid)
  · intro id hid
    rw [hsize]
    exact h.stacked id (hopened hid)
  · intro id hid hkept
    rw [hsize] at hid
    exact (hstart id).mpr (h.starts id hid (hstate id hkept))

theorem step (h : d.Placed) (hs : d.Step action d') : d'.Placed := by
  cases hs with
  | idle => exact h
  | record ts ahead _ =>
    refine h.congr ?_ rfl (List.Subset.refl _) fun _ hkept => hkept
    have hnone : (ts.map Event.token).reverse.filterMap Event.started? = [] := by
      rw [List.filterMap_eq_nil_iff]
      intro e he
      obtain ⟨t, -, rfl⟩ := List.mem_map.mp (List.mem_reverse.mp he)
      rfl
    dsimp only
    rw [List.filterMap_append, hnone, List.nil_append]
  | opens marksLeft =>
    refine h.push (p := []) rfl rfl rfl ?_
    intro id hid
    exact List.mem_cons.mp hid
  | @around inner later earlier hhistory hfirst =>
    have hsplit : d.history = (later ++ [.start inner]) ++ earlier := by
      rw [hhistory]
      simp
    refine h.push hsplit rfl (by simp) ?_
    intro id hid
    dsimp only at hid
    split at hid
    · exact mem_insertOutside hid
    · exact List.mem_cons.mp hid
  | @takesBack id later earlier hstate hhistory hfirst =>
    refine h.takeBack hhistory rfl rfl ?_
    intro j hj
    dsimp only at hj
    split at hj
    · exact (List.dropWhile_sublist _).subset (List.mem_of_mem_tail hj)
    · exact hj
  | @closes action id d' hfinishes =>
    have hcloses := hfinishes.closes
    refine h.congr ?_ hcloses.size ?_ ?_
    · rw [hcloses.history]
      rfl
    · rw [hcloses.opened]
      exact List.subset_cons_self _ _
    · intro j hkept hgone
      by_cases hid : j = id
      · rw [hid, hfinishes.was_opened] at hgone
        cases hgone
      · rw [hcloses.marker j hid] at hkept
        exact hkept hgone

/-- What every step keeps holds of every draft that some actions lead to. -/
theorem applyAll {P : Draft → Prop} {actions : List RecordAction} (h : d.Placed) (hP : P d)
    (hstep : ∀ {d action d'}, action ∈ actions → d.Placed → P d → d.Step action d' → P d')
    (hok : d.applyAll actions = .ok d') : d'.Placed ∧ P d' := by
  unfold Draft.applyAll at hok
  induction actions generalizing d with
  | nil =>
    cases hok
    exact ⟨h, hP⟩
  | cons action actions ih =>
    rw [List.foldlM_cons] at hok
    cases heq : d.apply action with
    | error e =>
      rw [heq] at hok
      cases hok
    | ok d₁ =>
      rw [heq] at hok
      have hs := apply_step h.stacked heq
      refine ih (h.step hs) (hstep List.mem_cons_self h hP hs) ?_ hok
      intro d action d' hmem
      exact hstep (List.mem_cons_of_mem _ hmem)

end Placed

end Draft

end ScriptAnalysis
