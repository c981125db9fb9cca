import Mathlib.Data.List.Induction
import ScriptAnalysis.Proofs.Recording.Brackets

/-!
# Well bracketed events

`Bracketed` says without a stack what well bracketed events are: a list of tokens and of pairs
around well bracketed events.  `LeftOpen events id` says that `id` is the innermost marker that
starts in the events and does not end there.  `bracketed_iff` and `leftOpen_iff` tie both to
`openedAfter`, which reads the events once and keeps the markers that are open; `openedAfter_split`
and `openedAfter_close` find the start and the end of an open marker.

`Encloses events i j` says that the pair that starts at position `i` is around the event at position
`j`.  `Spine` keeps the positions at which the open markers start; before an event they are those
that enclose it (`Spine.mem_iff`).
-/

namespace ScriptAnalysis

/-- Every start has its end behind it and every end its start before it, and no two pairs cross. -/
inductive Bracketed : List Event → Prop
  | nil : Bracketed []
  | token {events : List Event} (t : Token) : Bracketed events → Bracketed (.token t :: events)
  | pair {body events : List Event} (id : MarkerId) :
      Bracketed body → Bracketed events → Bracketed (.start id :: body ++ .stop id :: events)

/-- The marker is the innermost one that starts in the events and does not end there. -/
def LeftOpen (events : List Event) (id : MarkerId) : Prop :=
  ∃ before body, events = before ++ .start id :: body ∧ Bracketed body

section

variable {σ τ ρ α β : List MarkerId} {m : MarkerId} {es p q : List Event}

/-! ### Open markers that are not touched -/

/-- What is open further out does not matter as long as it is not ended. -/
theorem openedAfter_frame (h : openedAfter σ es = some τ) (ρ : List MarkerId) :
    openedAfter (σ ++ ρ) es = some (τ ++ ρ) := by
  induction es generalizing σ with
  | nil =>
    rw [openedAfter_nil, Option.some.injEq] at h
    rw [openedAfter_nil, h]
  | cons e es ih =>
    cases e with
    | token t =>
      rw [openedAfter_token] at h ⊢
      exact ih h
    | start id =>
      rw [openedAfter_start] at h ⊢
      exact ih h
    | stop id =>
      cases σ with
      | nil => cases h
      | cons top σ =>
        rw [openedAfter] at h
        split at h
        · next htop =>
          subst htop
          rw [List.cons_append, openedAfter_stop]
          exact ih h
        · cases h

theorem Bracketed.balanced (h : Bracketed es) : Balanced es := by
  induction h with
  | nil => exact Balanced.nil
  | token t _ ih =>
    intro σ
    rw [openedAfter_token]
    exact ih σ
  | pair id _ _ ih₁ ih₂ =>
    intro σ
    rw [List.cons_append, openedAfter_start, openedAfter_append, ih₁, Option.bind_some,
      openedAfter_stop]
    exact ih₂ σ

theorem Bracketed.append (h : Bracketed p) (k : Bracketed q) : Bracketed (p ++ q) := by
  induction h with
  | nil => exact k
  | token t _ ih => exact .token t ih
  | pair id hbody _ _ ih =>
    rw [List.append_assoc]
    exact .pair id hbody ih

/-- An open marker stays open, or the events up to its end are well bracketed. -/
theorem openedAfter_top (h : openedAfter (m :: σ) es = some τ) :
    (∃ inner, openedAfter [] es = some inner ∧ τ = inner ++ m :: σ) ∨
      ∃ body rest, es = body ++ .stop m :: rest ∧ Bracketed body ∧
        openedAfter σ rest = some τ := by
  induction hlength : es.length using Nat.strongRecOn generalizing es m σ with
  | ind n ih =>
    subst hlength
    cases es with
    | nil =>
      rw [openedAfter_nil, Option.some.injEq] at h
      exact .inl ⟨[], rfl, h.symm⟩
    | cons e es =>
      cases e with
      | token t =>
        rw [openedAfter_token] at h
        rcases ih es.length (Nat.lt_succ_self _) h rfl with ⟨inner, hin, hτ⟩ | hends
        · exact .inl ⟨inner, by rwa [openedAfter_token], hτ⟩
        · obtain ⟨body, rest, rfl, hbody, hrest⟩ := hends
          exact .inr ⟨.token t :: body, rest, rfl, .token t hbody, hrest⟩
      | start id =>
        rw [openedAfter_start] at h
        rcases ih es.length (Nat.lt_succ_self _) h rfl with ⟨inner, hin, hτ⟩ | hends
        · refine .inl ⟨inner ++ [id], ?_, by simp [hτ]⟩
          rw [openedAfter_start]
          exact openedAfter_frame hin [id]
        · -- The marker that started first has ended; what matters is what comes behind it.
          obtain ⟨body, rest, rfl, hbody, hrest⟩ := hends
          have hshorter : rest.length < (Event.start id :: (body ++ .stop id :: rest)).length := by
            simp only [List.length_cons, List.length_append]
            omega
          rcases ih rest.length hshorter hrest rfl with ⟨inner, hin, hτ⟩ | hends
          · refine .inl ⟨inner, ?_, hτ⟩
            rw [openedAfter_start, openedAfter_append, hbody.balanced, Option.bind_some,
              openedAfter_stop]
            exact hin
          · obtain ⟨body', rest', rfl, hbody', hrest'⟩ := hends
            exact .inr ⟨_, rest', by simp, .pair id hbody hbody', hrest'⟩
      | stop id =>
        rw [openedAfter] at h
        split at h
        · next hid =>
          subst hid
          exact .inr ⟨[], es, rfl, .nil, h⟩
        · cases h

theorem bracketed_iff : Bracketed es ↔ openedAfter [] es = some [] := by
  constructor
  · intro h
    exact h.balanced []
  · intro h
    induction hlength : es.length using Nat.strongRecOn generalizing es with
    | ind n ih =>
      subst hlength
      cases es with
      | nil => exact .nil
      | cons e es =>
        cases e with
        | token t =>
          rw [openedAfter_token] at h
          exact .token t (ih es.length (Nat.lt_succ_self _) h rfl)
        | start id =>
          rw [openedAfter_start] at h
          rcases openedAfter_top h with ⟨inner, -, hnil⟩ | ⟨body, rest, rfl, hbody, hrest⟩
          · exact absurd hnil (by simp)
          · have hshorter : rest.length <
                (Event.start id :: (body ++ .stop id :: rest)).length := by
              simp only [List.length_cons, List.length_append]
              omega
            exact .pair id hbody (ih rest.length hshorter hrest rfl)
        | stop id => cases h

/-! ### The start and the end of an open marker -/

/-- By induction from the last event: where an open marker starts, which markers are open there, and
    which ones were opened since. -/
theorem openedAfter_split (h : openedAfter [] es = some (α ++ m :: β)) :
    ∃ before body, es = before ++ .start m :: body ∧ openedAfter [] before = some β ∧
      openedAfter [] body = some α := by
  induction es using List.reverseRecOn generalizing α with
  | nil =>
    rw [openedAfter_nil, Option.some.injEq] at h
    exact absurd h (by simp)
  | append_singleton es e ih =>
    rw [openedAfter_append] at h
    obtain ⟨ρ, hρ, hlast⟩ := Option.bind_eq_some_iff.mp h
    cases e with
    | token t =>
      rw [openedAfter_token, openedAfter_nil, Option.some.injEq] at hlast
      subst hlast
      obtain ⟨before, body, rfl, hbefore, hbody⟩ := ih hρ
      refine ⟨before, body ++ [.token t], by simp, hbefore, ?_⟩
      rw [openedAfter_append, hbody, Option.bind_some, openedAfter_token, openedAfter_nil]
    | start id =>
      rw [openedAfter_start, openedAfter_nil, Option.some.injEq] at hlast
      cases α with
      | nil =>
        obtain ⟨rfl, rfl⟩ := List.cons.inj hlast
        exact ⟨es, [], rfl, hρ, openedAfter_nil []⟩
      | cons a α =>
        obtain ⟨rfl, rfl⟩ := List.cons.inj hlast
        obtain ⟨before, body, rfl, hbefore, hbody⟩ := ih hρ
        refine ⟨before, body ++ [.start id], by simp, hbefore, ?_⟩
        rw [openedAfter_append, hbody, Option.bind_some, openedAfter_start, openedAfter_nil]
    | stop id =>
      cases ρ with
      | nil => cases hlast
      | cons top ρ =>
        rw [openedAfter] at hlast
        split at hlast
        · next htop =>
          subst htop
          rw [openedAfter_nil, Option.some.injEq] at hlast
          subst hlast
          obtain ⟨before, body, rfl, hbefore, hbody⟩ := ih (α := top :: α) hρ
          refine ⟨before, body ++ [.stop top], by simp, hbefore, ?_⟩
          rw [openedAfter_append, hbody, Option.bind_some, openedAfter_stop, openedAfter_nil]
        · cases hlast

/-- If all markers are ended in the end, an open marker ends somewhere, after those inside it. -/
theorem openedAfter_close (h : openedAfter (α ++ m :: β) es = some []) :
    ∃ body rest, es = body ++ .stop m :: rest ∧ openedAfter α body = some [] ∧
      openedAfter β rest = some [] := by
  have hend : ∀ {a : MarkerId} {σ : List MarkerId} {es : List Event},
      openedAfter (a :: σ) es = some [] → ∃ body rest, es = body ++ .stop a :: rest ∧
        Bracketed body ∧ openedAfter σ rest = some [] := by
    intro a σ es h
    rcases openedAfter_top h with ⟨inner, -, hnil⟩ | hends
    · exact absurd hnil (by simp)
    · exact hends
  induction α generalizing es with
  | nil =>
    obtain ⟨body, rest, rfl, hbody, hrest⟩ := hend h
    exact ⟨body, rest, rfl, hbody.balanced [], hrest⟩
  | cons a α ih =>
    obtain ⟨body, rest, rfl, hbody, hrest⟩ := hend h
    obtain ⟨body', rest', rfl, hbody', hrest'⟩ := ih hrest
    refine ⟨body ++ .stop a :: body', rest', by simp, ?_, hrest'⟩
    rw [openedAfter_append, hbody.balanced, Option.bind_some, openedAfter_stop]
    exact hbody'

theorem leftOpen_iff (h : openedAfter [] es = some σ) : LeftOpen es m ↔ σ.head? = some m := by
  constructor
  · rintro ⟨before, body, rfl, hbody⟩
    rw [openedAfter_append] at h
    obtain ⟨ρ, -, hrest⟩ := Option.bind_eq_some_iff.mp h
    rw [openedAfter_start, hbody.balanced, Option.some.injEq] at hrest
    rw [← hrest]
    rfl
  · intro hhead
    obtain ⟨σ, rfl⟩ := List.head?_eq_some_iff.mp hhead
    obtain ⟨before, body, hes, -, hbody⟩ := openedAfter_split (α := []) h
    exact ⟨before, body, hes, bracketed_iff.mpr hbody⟩

/-- Where the events are those of a stack of markers, an end ends the innermost open one. -/
theorem leftOpen_of_stop (h : openedAfter [] (p ++ .stop m :: q) = some σ) : LeftOpen p m := by
  rw [openedAfter_append] at h
  obtain ⟨τ, hτ, hrest⟩ := Option.bind_eq_some_iff.mp h
  rw [leftOpen_iff hτ]
  cases τ with
  | nil => cases hrest
  | cons top τ =>
    rw [openedAfter] at hrest
    split at hrest
    · next htop => rw [htop, List.head?_cons]
    · cases hrest

/-- Well bracketed events leave no marker open. -/
theorem Bracketed.not_leftOpen (h : Bracketed es) : ¬ LeftOpen es m := by
  rw [leftOpen_iff (bracketed_iff.mp h)]
  simp

/-- There is at most one innermost marker left open. -/
theorem LeftOpen.unique {m' : MarkerId} (h : LeftOpen es m) (h' : LeftOpen es m') : m = m' := by
  obtain ⟨before, body, rfl, hbody⟩ := h
  obtain ⟨before', body', heq, hbody'⟩ := h'
  rcases List.append_eq_append_iff.mp heq with ⟨more, -, hmore⟩ | ⟨more, -, hmore⟩
  · cases more with
    | nil =>
      obtain ⟨hstart, -⟩ := List.cons.inj hmore
      exact Event.start.inj hstart
    | cons e more =>
      obtain ⟨-, rfl⟩ := List.cons.inj hmore
      exact absurd ⟨more, body', rfl, hbody'⟩ hbody.not_leftOpen
  · cases more with
    | nil =>
      obtain ⟨hstart, -⟩ := List.cons.inj hmore
      exact (Event.start.inj hstart).symm
    | cons e more =>
      obtain ⟨-, rfl⟩ := List.cons.inj hmore
      exact absurd ⟨more, body, rfl, hbody⟩ hbody'.not_leftOpen

end

/-! ### Brackets around an event -/

/-- The pair that starts at `i` is around the event at `j`. -/
def Encloses (events : List Event) (i j : Nat) : Prop :=
  ∃ before id body after, events = before ++ .start id :: (body ++ .stop id :: after) ∧
    Bracketed body ∧ before.length = i ∧ i < j ∧ j ≤ i + body.length

theorem Encloses.lt {events : List Event} {i j : Nat} (h : Encloses events i j) : i < j := by
  obtain ⟨_, _, _, _, -, -, -, hlt, -⟩ := h
  exact hlt

/-! ### The starts of the open markers -/

/-- The open markers after some events, innermost first, and the positions of their starts. -/
inductive Spine : List Event → List MarkerId → List Nat → Prop
  | nil {events : List Event} : Bracketed events → Spine events [] []
  | cons {events body : List Event} {markers : List MarkerId} {starts : List Nat} {id : MarkerId} :
      Spine events markers starts → Bracketed body →
      Spine (events ++ .start id :: body) (id :: markers) (events.length :: starts)

namespace Spine

variable {events later : List Event} {markers : List MarkerId} {starts : List Nat} {id : MarkerId}
  {i : Nat}

theorem append (h : Spine events markers starts) (hb : Bracketed later) :
    Spine (events ++ later) markers starts := by
  cases h with
  | nil hevents => exact .nil (hevents.append hb)
  | cons hspine hbody =>
    rw [List.append_assoc, List.cons_append]
    exact .cons hspine (hbody.append hb)

theorem start (h : Spine events markers starts) (id : MarkerId) :
    Spine (events ++ [.start id]) (id :: markers) (events.length :: starts) := .cons h .nil

theorem stop (h : Spine events (id :: markers) (i :: starts)) :
    Spine (events ++ [.stop id]) markers starts := by
  cases h with
  | cons hspine hbody =>
    rw [List.append_assoc, List.cons_append]
    exact hspine.append (.pair id hbody .nil)

theorem openedAfter (h : Spine events markers starts) :
    openedAfter [] events = some markers := by
  induction h with
  | nil hevents => exact hevents.balanced []
  | cons _ hbody ih =>
    rw [openedAfter_append, ih, Option.bind_some, openedAfter_start]
    exact hbody.balanced _

/-- Starts further out stand further in front. -/
theorem lt_length (h : Spine events markers starts) : ∀ i ∈ starts, i < events.length := by
  induction h with
  | nil _ => simp
  | cons _ _ ih =>
    intro i hi
    rw [List.length_append, List.length_cons]
    rcases List.mem_cons.mp hi with rfl | hi
    · omega
    · have := ih i hi
      omega

theorem pairwise (h : Spine events markers starts) : starts.Pairwise (· > ·) := by
  induction h with
  | nil _ => exact .nil
  | cons hspine _ ih => exact .cons hspine.lt_length ih

/-- Each of the positions is that of a start that is not ended. -/
theorem split (h : Spine events markers starts) (hi : i ∈ starts) :
    ∃ before id inner rest, events = before ++ .start id :: rest ∧ before.length = i ∧
      ScriptAnalysis.openedAfter [] rest = some inner := by
  induction h with
  | nil _ => cases hi
  | @cons events body markers starts id hspine hbody ih =>
    rcases List.mem_cons.mp hi with rfl | hi
    · exact ⟨events, id, [], body, rfl, rfl, hbody.balanced []⟩
    · obtain ⟨before, id', inner, rest, rfl, hlength, hinner⟩ := ih hi
      refine ⟨before, id', id :: inner, rest ++ .start id :: body, by simp, hlength, ?_⟩
      rw [openedAfter_append, hinner, Option.bind_some, openedAfter_start]
      exact hbody.balanced _

/-- A start that is not ended has its position among them. -/
theorem mem {before rest : List Event} {inner : List MarkerId} (h : Spine events markers starts)
    (hevents : events = before ++ .start id :: rest)
    (hrest : ScriptAnalysis.openedAfter [] rest = some inner) : before.length ∈ starts := by
  -- A start that is not ended does not stand in well bracketed events.
  have hnone : ∀ {before rest : List Event} {inner : List MarkerId},
      ScriptAnalysis.openedAfter [] rest = some inner →
      ¬ Bracketed (before ++ .start id :: rest) := by
    intro before rest inner hrest hbracketed
    have hopen := hbracketed.balanced []
    rw [openedAfter_append] at hopen
    obtain ⟨σ, -, hlast⟩ := Option.bind_eq_some_iff.mp hopen
    have hframe := openedAfter_frame hrest (id :: σ)
    rw [openedAfter_start] at hlast
    rw [List.nil_append, hlast, Option.some.injEq] at hframe
    exact absurd hframe (by simp)
  induction h generalizing rest inner with
  | nil hbracketed => exact absurd (hevents ▸ hbracketed) (hnone hrest)
  | @cons events body markers starts id' hspine hbody ih =>
    rcases List.append_eq_append_iff.mp hevents with ⟨more, rfl, hmore⟩ | ⟨more, rfl, hmore⟩
    · cases more with
      | nil => simp
      | cons e more =>
        obtain ⟨-, rfl⟩ := List.cons.inj hmore
        exact absurd hbody (hnone hrest)
    · cases more with
      | nil => simp
      | cons e more =>
        rw [List.cons_append] at hmore
        obtain ⟨rfl, rfl⟩ := List.cons.inj hmore
        rw [openedAfter_append] at hrest
        obtain ⟨σ, hσ, -⟩ := Option.bind_eq_some_iff.mp hrest
        exact List.mem_cons_of_mem _ (ih rfl hσ)

/-- The open markers before an event are those that enclose it. -/
theorem mem_iff {e : Event} (h : Spine events markers starts)
    (hall : Bracketed (events ++ e :: later))
    (he : ∀ id, e ≠ .stop id) : i ∈ starts ↔ Encloses (events ++ e :: later) i events.length := by
  constructor
  · intro hi
    obtain ⟨before, id, inner, rest, rfl, hlength, hrest⟩ := h.split hi
    have hopen := hall.balanced []
    rw [List.append_assoc, openedAfter_append] at hopen
    obtain ⟨σ, -, hopen⟩ := Option.bind_eq_some_iff.mp hopen
    rw [List.cons_append, openedAfter_start, openedAfter_append] at hopen
    obtain ⟨τ, hτ, hopen⟩ := Option.bind_eq_some_iff.mp hopen
    have hframe := openedAfter_frame hrest (id :: σ)
    rw [List.nil_append, hτ, Option.some.injEq] at hframe
    subst hframe
    obtain ⟨body, after, hlater, hbody, -⟩ := openedAfter_close hopen
    have hwhole : Bracketed (rest ++ body) := by
      rw [bracketed_iff, openedAfter_append, hrest]
      exact hbody
    refine ⟨before, id, rest ++ body, after, ?_, hwhole, hlength, ?_, ?_⟩
    · rw [hlater]
      simp
    · rw [List.length_append, List.length_cons, hlength]
      omega
    · cases body with
      | nil => exact absurd (List.cons.inj hlater).1 (he id)
      | cons e' body =>
        rw [List.length_append, List.length_append, List.length_cons, List.length_cons, hlength]
        omega
  · rintro ⟨before, id, body, after, heq, hbody, hlength, hlt, hle⟩
    rcases List.append_eq_append_iff.mp heq with ⟨more, rfl, hmore⟩ | ⟨more, rfl, hmore⟩
    · rw [List.length_append] at hlength
      omega
    · cases more with
      | nil =>
        rw [List.append_nil] at hlt
        omega
      | cons e' rest =>
        obtain ⟨rfl, hrest⟩ := List.cons.inj hmore
        -- The events since the start are the first ones of the body.
        have hprefix : ∃ more, body = rest ++ more := by
          rcases List.append_eq_append_iff.mp hrest with ⟨more, rfl, -⟩ | ⟨more, hbody', -⟩
          · simp only [List.length_append, List.length_cons] at hle hlength
            cases more with
            | nil => exact ⟨[], by simp⟩
            | cons e'' more =>
              simp only [List.length_cons] at hle
              omega
          · exact ⟨more, hbody'⟩
        obtain ⟨more, rfl⟩ := hprefix
        have hopen := hbody.balanced []
        rw [openedAfter_append] at hopen
        obtain ⟨inner, hinner, -⟩ := Option.bind_eq_some_iff.mp hopen
        exact hlength ▸ h.mem rfl hinner

end Spine

end ScriptAnalysis
