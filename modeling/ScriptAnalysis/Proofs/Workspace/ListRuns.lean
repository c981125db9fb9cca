import ScriptAnalysis.Proofs.Workspace.SharedCache

/-!
# A cache in use is a list in the order of use

`ListState.step` tells what each action does to a plain list: whatever is used becomes the last one,
what is stored is the last one, and what does not fit is dropped from the front.  Nothing of the
cache is in it, no clock and no times.  A run on the cache answers what the steps on the list
answer, and leaves the files in the order of the list (`SharedStore.cache_run_refines`).
-/

namespace ScriptAnalysis

/-! ### Marked texts -/

/-- Whether the mark stands somewhere in the text. -/
theorem holdsMark_iff (mark text : List Char) : holdsMark mark text = true ↔ mark <:+: text := by
  induction text with
  | nil => simp [holdsMark]
  | cons c text ih =>
    rw [holdsMark, Bool.or_eq_true, ih, List.isPrefixOf_iff_prefix, List.infix_cons_iff]

namespace CachePolicy

/-- The text has the mark of texts of which the values are not kept. -/
def IsMarked (policy : CachePolicy) (text : String) : Prop :=
  ∃ mark, policy.unkeptMark = some mark ∧ mark.toList <:+: text.toList

theorem keeps_iff (policy : CachePolicy) (text : String) :
    policy.keeps text = true ↔ ¬ policy.IsMarked text := by
  unfold keeps IsMarked
  cases policy.unkeptMark with
  | none => simp
  | some mark => simp [← holdsMark_iff]

instance (policy : CachePolicy) (text : String) : Decidable (policy.IsMarked text) :=
  decidable_of_iff (policy.keeps text = false) (by
    rw [← Bool.not_eq_true, keeps_iff, Classical.not_not])

end CachePolicy

/-! ### Steps on a list -/

/-- What is held, the value not used for longest first, and the builds under way. -/
structure ListState (α : Type) where
  held : RecencyList α := []
  building : List (FileId × String) := []
deriving DecidableEq, Repr

namespace ListState

variable {α : Type}

/-- What is held for a file. -/
def find? (s : ListState α) (file : FileId) : Option (Held α) :=
  s.held.find? fun h => decide (h.file = file)

/-- What is held for a file, if it was made from this text. -/
def findFor? (s : ListState α) (file : FileId) (text : String) : Option (Held α) :=
  (s.find? file).filter fun h => decide (h.text = text)

/-- Makes something the last one that is held, in place of what is held for its file. -/
def push (s : ListState α) (h : Held α) : ListState α :=
  { s with held := s.held.without h.file ++ [h] }

/-- Stores the value of a text.  A marked text changes nothing, a text that is held already goes to
    the back and its value is the answer. -/
def store (policy : CachePolicy) (s : ListState α) (file : FileId) (text : String) (value : α) :
    α × ListState α :=
  if policy.IsMarked text then (value, s)
  else match s.findFor? file text with
    | some h => (h.value, s.push h)
    | none => (value, { s with held := (s.push ⟨file, text, value⟩).held.limit policy.capacity })

/-- The answer to an action and the list after it.  The one impossible action is to end a build that
    is not under way. -/
def step (policy : CachePolicy) (s : ListState α) : CacheAction α → Option (Option α × ListState α)
  | .get file =>
    match s.find? file with
    | some h => some (some h.value, s.push h)
    | none => some (none, s)
  | .getFor file text =>
    match s.findFor? file text with
    | some h => some (some h.value, s.push h)
    | none => some (none, s)
  | .lookUp file text =>
    match s.findFor? file text with
    | some h => some (some h.value, s.push h)
    | none => some (none, { s with building := (file, text) :: s.building })
  | .finish call built =>
    match s.building[call]?, built with
    | none, _ => none
    | some _, none => some (none, { s with building := s.building.eraseIdx call })
    | some (file, text), some value =>
      let (valid, s') :=
        store policy { s with building := s.building.eraseIdx call } file text value
      some (some valid, s')
  | .invalidate file => some (none, { s with held := s.held.without file })
  | .clear => some (none, { s with held := [] })

/-- The answers to some actions, one after the other, and the list after them. -/
def run (policy : CachePolicy) (s : ListState α) :
    List (CacheAction α) → Option (List (Option α) × ListState α)
  | [] => some ([], s)
  | action :: actions =>
    match s.step policy action with
    | none => none
    | some (answer, t) => (t.run policy actions).map fun rest => (answer :: rest.1, rest.2)

end ListState

/-! ### The list as a store -/

/-- The list of a store that is one, and the builds under way. -/
def SharedState.list {α : Type} (s : SharedState (RecencyList α) α) : ListState α :=
  ⟨s.store, s.building⟩

namespace ListState

variable {α : Type} {policy : CachePolicy}

/-- An access uses what is held for the file, if its text is wanted. -/
theorem access_eq (s : ListState α) (file : FileId) (wanted : String → Bool) :
    s.held.access file wanted =
      match (s.find? file).filter fun h => wanted h.text with
      | some h => (some h.value, (s.push h).held)
      | none => (none, s.held) := by
  unfold RecencyList.access find?
  cases hfind : s.held.find? fun h => decide (h.file = file) with
  | none => rfl
  | some h =>
    have hfile : h.file = file := by simpa using List.find?_some hfind
    by_cases hwanted : wanted h.text = true
    · simp [hwanted, push, hfile, Option.filter]
    · simp [hwanted, Option.filter]

theorem access_all (s : ListState α) (file : FileId) :
    s.held.access file (fun _ => true) =
      match s.find? file with
      | some h => (some h.value, (s.push h).held)
      | none => (none, s.held) := by
  rw [access_eq]
  cases s.find? file <;> rfl

theorem access_text (s : ListState α) (file : FileId) (text : String) :
    s.held.access file (· == text) =
      match s.findFor? file text with
      | some h => (some h.value, (s.push h).held)
      | none => (none, s.held) := by
  rw [access_eq]
  unfold findFor?
  have hsame : (fun h : Held α => h.text == text) = fun h => decide (h.text = text) :=
    funext fun h => by rw [beq_eq_decide]
  rw [hsame]

theorem store_eq (policy : CachePolicy) (s : ListState α) (file : FileId) (text : String)
    (value : α) : store policy s file text value =
      ((s.held.keep policy file text value).1,
        { s with held := (s.held.keep policy file text value).2 }) := by
  unfold RecencyList.keep store
  by_cases hmarked : policy.IsMarked text
  · rw [if_pos hmarked, if_neg (fun hkeeps => (policy.keeps_iff text).mp hkeeps hmarked)]
  · rw [if_neg hmarked, if_pos ((policy.keeps_iff text).mpr hmarked), access_text]
    cases s.findFor? file text <;> rfl

/-- A step on the list is one of the store that the list is. -/
theorem step_list (policy : CachePolicy) (s : SharedState (RecencyList α) α)
    (action : CacheAction α) :
    s.list.step policy action =
      ((listStore policy).perform s action).map fun r => (r.1, r.2.list) := by
  unfold step SharedStore.perform
  cases action with
  | get file =>
    have haccess : s.store.access file (fun _ => true) = _ := access_all s.list file
    simp only [listStore_access, haccess]
    cases s.list.find? file <;> rfl
  | getFor file text =>
    have haccess : s.store.access file (· == text) = _ := access_text s.list file text
    simp only [listStore_access, haccess]
    cases s.list.findFor? file text <;> rfl
  | lookUp file text =>
    have haccess : s.store.access file (· == text) = _ := access_text s.list file text
    simp only [listStore_access, haccess]
    cases s.list.findFor? file text <;> rfl
  | finish call built =>
    dsimp only [SharedState.list]
    cases s.building[call]? with
    | none => rfl
    | some request =>
      cases built with
      | none => rfl
      | some value =>
        simp only [store_eq]
        rfl
  | invalidate file => rfl
  | clear => rfl

theorem run_list (policy : CachePolicy) (s : SharedState (RecencyList α) α)
    (actions : List (CacheAction α)) : s.list.run policy actions =
      ((listStore policy).run s actions).map fun r => (r.1, r.2.list) := by
  induction actions generalizing s with
  | nil => rfl
  | cons action actions ih =>
    unfold run SharedStore.run
    rw [step_list]
    cases (listStore policy).perform s action with
    | none => rfl
    | some r =>
      dsimp only [Option.map_some, Option.bind_some]
      rw [ih]
      cases (listStore policy).run r.2 actions <;> rfl

/-- The one impossible step is to end a build that is not under way. -/
theorem step_eq_none {s : ListState α} {action : CacheAction α} :
    s.step policy action = none ↔
      ∃ call built, action = .finish call built ∧ s.building.length ≤ call := by
  constructor
  · intro h
    unfold step at h
    cases action with
    | finish call built =>
      refine ⟨call, built, rfl, ?_⟩
      dsimp only at h
      cases hcall : s.building[call]? with
      | none => exact List.getElem?_eq_none_iff.mp hcall
      | some request =>
        rw [hcall] at h
        cases built <;> cases h
    | get file =>
      dsimp only at h
      split at h <;> cases h
    | getFor file text =>
      dsimp only at h
      split at h <;> cases h
    | lookUp file text =>
      dsimp only at h
      split at h <;> cases h
    | invalidate file => cases h
    | clear => cases h
  · rintro ⟨call, built, rfl, hle⟩
    unfold step
    dsimp only
    rw [List.getElem?_eq_none_iff.mpr hle]

/-- A run is impossible if it comes to an impossible step. -/
theorem run_eq_none {s : ListState α} {actions : List (CacheAction α)}
    (h : s.run policy actions = none) :
    ∃ done call built rest answers t, actions = done ++ .finish call built :: rest ∧
      s.run policy done = some (answers, t) ∧ t.building.length ≤ call := by
  induction actions generalizing s with
  | nil => cases h
  | cons action actions ih =>
    unfold run at h
    cases hstep : s.step policy action with
    | none =>
      obtain ⟨call, built, rfl, hle⟩ := step_eq_none.mp hstep
      exact ⟨[], call, built, actions, [], s, rfl, rfl, hle⟩
    | some r =>
      rw [hstep] at h
      obtain ⟨done, call, built, rest, answers, t, rfl, hrun, hle⟩ :=
        ih (Option.map_eq_none_iff.mp h)
      refine ⟨action :: done, call, built, rest, r.1 :: answers, t, rfl, ?_, hle⟩
      unfold run
      rw [hstep]
      dsimp only
      rw [hrun]
      rfl

end ListState

/-! ### Runs -/

namespace SharedStore

/-- A cache in use is a list in the order of use, whatever is done and in whatever order: each
    action answers what the step on the list answers, and the cache has the entries of the list in
    its order, no more than fit, and none of a marked text.  A run is impossible only if it ends a
    build that is not under way. -/
theorem cache_run_refines {α : Type} (policy : CachePolicy) (actions : List (CacheAction α)) :
    (∃ answers s t, (cacheStore policy).run { store := .empty } actions = some (answers, s) ∧
      ListState.run policy {} actions = some (answers, t) ∧
      s.store.toList.map RecencyCache.held = t.held ∧ s.store.files = t.held.map Held.file ∧
      s.building = t.building ∧ (∀ n, policy.capacity = some n → s.store.size ≤ n) ∧
      ∀ h ∈ t.held, ¬ policy.IsMarked h.text) ∨
    (cacheStore policy).run { store := .empty } actions = none ∧
      ListState.run policy {} actions = none ∧ ∃ done call built rest answers t,
        actions = done ++ .finish call built :: rest ∧
        ListState.run policy {} done = some (answers, t) ∧ t.building.length ≤ call := by
  have hstart : Related RecencyCache.Refines
      ({ store := .empty } : SharedState (RecencyCache α) α) { store := [] } :=
    ⟨.empty, rfl, rfl⟩
  have hlist := ListState.run_list policy ({ store := [] } : SharedState (RecencyList α) α) actions
  rcases (cacheStore_simulates policy).run hstart actions with
    ⟨hc, hl⟩ | ⟨answers, s, s', hc, hl, hs⟩
  · rw [hl] at hlist
    exact .inr ⟨hc, hlist, ListState.run_eq_none hlist⟩
  · obtain ⟨hrefines, hbuilding, -⟩ := hs
    have hsound := run_sound hl
    rw [hl] at hlist
    refine .inl ⟨answers, s, s'.list, hc, hlist, hrefines.toList_eq, hrefines.files_eq, hbuilding,
      fun n hn => ?_, fun h hh => (policy.keeps_iff h.text).mp (hsound.keeps h hh)⟩
    rw [hrefines.size_eq]
    exact hsound.fits n hn

/-- Two values fit.  The value of file 1 is used again before that of file 3 is stored, so that of
    file 2 is dropped; meanwhile a build for file 4 fails, and a marked text of file 5 is built. -/
def busyRun : List (CacheAction Nat) :=
  [.lookUp 1 "a", .finish 0 (some 10), .lookUp 2 "b", .finish 0 (some 20), .lookUp 3 "c",
    .lookUp 1 "a", .lookUp 4 "d", .finish 0 none, .finish 0 (some 30), .lookUp 5 "e#",
    .finish 0 (some 50), .getFor 1 "z"]

theorem busyRun_drops_oldest :
    ∃ s, (cacheStore ⟨some 2, some "#"⟩).run { store := .empty } busyRun =
        some ([none, some 10, none, some 20, none, some 10, none, none, some 30, none, some 50,
          none], s) ∧ s.store.files = [1, 3] ∧ s.building = [] := by
  have hlist : ListState.run ⟨some 2, some "#"⟩ {} busyRun =
      some ([none, some 10, none, some 20, none, some 10, none, none, some 30, none, some 50, none],
        ⟨[⟨1, "a", 10⟩, ⟨3, "c", 30⟩], []⟩) := by decide +kernel
  rcases cache_run_refines ⟨some 2, some "#"⟩ busyRun with
    ⟨answers, s, t, hcache, hrun, -, hfiles, hbuilding, -⟩ | ⟨-, hnone, -⟩
  · obtain ⟨rfl, rfl⟩ := Prod.mk.inj (Option.some.inj (hlist.symm.trans hrun))
    exact ⟨s, hcache, hfiles, hbuilding⟩
  · rw [hlist] at hnone
    cases hnone

end SharedStore

end ScriptAnalysis
