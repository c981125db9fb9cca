import Mathlib.Data.List.Infix
import ScriptAnalysis.Proofs.Workspace.Recency

/-!
# A cache that many use at once

Whoever wants the value of a text looks it up, builds it without holding the cache if it is not
there, and then stores it.  `SharedStore.perform` does one such step, so that a list of actions is a
run of any number of users whose steps come in any order.

A run on a `RecencyCache` is a run on a plain list in the order of use
(`SharedStore.cacheStore_simulates`).  On the list it is easy to see what the cache keeps
(`RecencyList.Sound`).
-/

namespace ScriptAnalysis

/-- A store of values that were made from the texts of files. -/
structure SharedStore (σ α : Type) where
  access : σ → FileId → (String → Bool) → Option α × σ
  keep : σ → FileId → String → α → α × σ
  erase : σ → FileId → σ
  clear : σ → σ

/-- The cache as a store. -/
def cacheStore {α : Type} (policy : CachePolicy) : SharedStore (RecencyCache α) α where
  access := RecencyCache.access
  keep := RecencyCache.keep policy
  erase := RecencyCache.erase
  clear := RecencyCache.clear

/-- A list in the order of use as a store. -/
def listStore {α : Type} (policy : CachePolicy) : SharedStore (RecencyList α) α where
  access := RecencyList.access
  keep := RecencyList.keep policy
  erase := RecencyList.without
  clear := fun _ => []

@[simp] theorem listStore_access {α : Type} (policy : CachePolicy) (l : RecencyList α) :
    (listStore policy).access l = l.access := rfl

@[simp] theorem listStore_keep {α : Type} (policy : CachePolicy) (l : RecencyList α) :
    (listStore policy).keep l = l.keep policy := rfl

/-- What a user does in one step. -/
inductive CacheAction (α : Type) where
  /-- Uses what is stored for a file, whatever its text. -/
  | get (file : FileId)
  /-- Uses what is stored for a file, if it was made from this text. -/
  | getFor (file : FileId) (text : String)
  /-- Asks for the value of a text, and begins to build it if it is not stored. -/
  | lookUp (file : FileId) (text : String)
  /-- Ends one of the builds under way, with a value unless the build failed. -/
  | finish (call : Nat) (built : Option α)
  | invalidate (file : FileId)
  | clear

/-- A store that is in use. -/
structure SharedState (σ α : Type) where
  store : σ
  /-- The builds under way. -/
  building : List (FileId × String) := []
  /-- The values that were given to users who asked for one, the latest first. -/
  given : List (FileId × α) := []

namespace SharedStore

variable {σ α : Type}

/-- The answer to an action and the state after it; there is none if the build that the action ends
    is not under way. -/
def perform (ops : SharedStore σ α) (s : SharedState σ α) :
    CacheAction α → Option (Option α × SharedState σ α)
  | .get file =>
    let (found, store) := ops.access s.store file fun _ => true
    some (found, { s with store })
  | .getFor file text =>
    let (found, store) := ops.access s.store file (· == text)
    some (found, { s with store })
  | .lookUp file text =>
    match ops.access s.store file (· == text) with
    | (some value, store) => some (some value, { s with store, given := (file, value) :: s.given })
    | (none, store) => some (none, { s with store, building := (file, text) :: s.building })
  | .finish call built =>
    match s.building[call]? with
    | none => none
    | some (file, text) =>
      let building := s.building.eraseIdx call
      match built with
      | none => some (none, { s with building })
      | some value =>
        let (valid, store) := ops.keep s.store file text value
        some (some valid, ⟨store, building, (file, valid) :: s.given⟩)
  | .invalidate file => some (none, { s with store := ops.erase s.store file })
  | .clear => some (none, { s with store := ops.clear s.store })

/-- What the actions do, case by case. -/
inductive Performs (ops : SharedStore σ α) (s : SharedState σ α) :
    CacheAction α → Option α → SharedState σ α → Prop
  | get {file : FileId} {found : Option α} {store : σ} :
      ops.access s.store file (fun _ => true) = (found, store) →
      Performs ops s (.get file) found { s with store }
  | getFor {file : FileId} {text : String} {found : Option α} {store : σ} :
      ops.access s.store file (· == text) = (found, store) →
      Performs ops s (.getFor file text) found { s with store }
  | hit {file : FileId} {text : String} {value : α} {store : σ} :
      ops.access s.store file (· == text) = (some value, store) →
      Performs ops s (.lookUp file text) (some value)
        { s with store, given := (file, value) :: s.given }
  | miss {file : FileId} {text : String} {store : σ} :
      ops.access s.store file (· == text) = (none, store) →
      Performs ops s (.lookUp file text) none
        { s with store, building := (file, text) :: s.building }
  | fail {call : Nat} {file : FileId} {text : String} :
      s.building[call]? = some (file, text) →
      Performs ops s (.finish call none) none { s with building := s.building.eraseIdx call }
  | store {call : Nat} {file : FileId} {text : String} {value valid : α} {store : σ} :
      s.building[call]? = some (file, text) →
      ops.keep s.store file text value = (valid, store) →
      Performs ops s (.finish call (some value)) (some valid)
        ⟨store, s.building.eraseIdx call, (file, valid) :: s.given⟩
  | invalidate {file : FileId} :
      Performs ops s (.invalidate file) none { s with store := ops.erase s.store file }
  | clear : Performs ops s .clear none { s with store := ops.clear s.store }

theorem performs_of_perform {ops : SharedStore σ α} {s t : SharedState σ α}
    {action : CacheAction α} {answer : Option α} (h : ops.perform s action = some (answer, t)) :
    ops.Performs s action answer t := by
  unfold perform at h
  cases action with
  | get file =>
    cases h
    exact .get rfl
  | getFor file text =>
    cases h
    exact .getFor rfl
  | lookUp file text =>
    dsimp only at h
    split at h
    · next heq =>
      cases h
      exact .hit heq
    · next heq =>
      cases h
      exact .miss heq
  | finish call built =>
    dsimp only at h
    split at h
    · cases h
    · next hcall =>
      split at h
      · cases h
        exact .fail hcall
      · cases h
        exact .store hcall rfl
  | invalidate file =>
    cases h
    exact .invalidate
  | clear =>
    cases h
    exact .clear

/-- The answers to some actions, one after the other, and the state after them. -/
def run (ops : SharedStore σ α) (s : SharedState σ α) :
    List (CacheAction α) → Option (List (Option α) × SharedState σ α)
  | [] => some ([], s)
  | action :: actions =>
    (ops.perform s action).bind fun r =>
      (ops.run r.2 actions).map fun rest => (r.1 :: rest.1, rest.2)

variable {ops : SharedStore σ α} {s t u : SharedState σ α} {action : CacheAction α}
  {actions : List (CacheAction α)} {answers : List (Option α)}

theorem run_cons : ops.run s (action :: actions) = some (answers, u) ↔
    ∃ answer t rest, ops.perform s action = some (answer, t) ∧
      ops.run t actions = some (rest, u) ∧ answers = answer :: rest := by
  rw [run, Option.bind_eq_some_iff]
  constructor
  · rintro ⟨⟨answer, t⟩, hfirst, hrest⟩
    obtain ⟨r, hrun, heq⟩ := Option.map_eq_some_iff.mp hrest
    cases heq
    exact ⟨answer, t, r.1, hfirst, hrun, rfl⟩
  · rintro ⟨answer, t, rest, hfirst, hrest, rfl⟩
    exact ⟨(answer, t), hfirst, Option.map_eq_some_iff.mpr ⟨(rest, u), hrest, rfl⟩⟩

/-- By induction on the actions: what every step of these actions keeps, a run of them keeps. -/
theorem run_keeps {P : CacheAction α → Prop} {I : SharedState σ α → Prop}
    (hstep : ∀ s action answer t, P action → I s → ops.perform s action = some (answer, t) → I t)
    (hP : ∀ action ∈ actions, P action) (hs : I s) (hrun : ops.run s actions = some (answers, u)) :
    I u := by
  induction actions generalizing s answers with
  | nil =>
    cases hrun
    exact hs
  | cons action actions ih =>
    obtain ⟨answer, t, rest, hfirst, hrest, -⟩ := run_cons.mp hrun
    have ht := hstep s action answer t (hP action (by simp)) hs hfirst
    exact ih (fun a ha => hP a (List.mem_cons_of_mem _ ha)) ht hrest

/-! ### Simulation -/

/-- Two stores answer alike from states that are related, and stay related. -/
structure Simulates {τ : Type} (ops : SharedStore σ α) (ops' : SharedStore τ α)
    (R : σ → τ → Prop) : Prop where
  access : ∀ {c m}, R c m → ∀ file wanted, ∃ found c' m',
    ops.access c file wanted = (found, c') ∧ ops'.access m file wanted = (found, m') ∧ R c' m'
  keep : ∀ {c m}, R c m → ∀ file text value, ∃ valid c' m',
    ops.keep c file text value = (valid, c') ∧ ops'.keep m file text value = (valid, m') ∧ R c' m'
  erase : ∀ {c m}, R c m → ∀ file, R (ops.erase c file) (ops'.erase m file)
  clear : ∀ {c m}, R c m → R (ops.clear c) (ops'.clear m)

/-- States that differ in the store only, and there in a related way. -/
def Related {τ : Type} (R : σ → τ → Prop) (s : SharedState σ α) (s' : SharedState τ α) : Prop :=
  R s.store s'.store ∧ s.building = s'.building ∧ s.given = s'.given

/-- Results agree: neither is there, or both answer the same and leave related states. -/
def Agrees {τ β : Type} (R : σ → τ → Prop) (r : Option (β × SharedState σ α))
    (r' : Option (β × SharedState τ α)) : Prop :=
  (r = none ∧ r' = none) ∨
    ∃ answer s s', r = some (answer, s) ∧ r' = some (answer, s') ∧ Related R s s'

variable {τ : Type} {ops' : SharedStore τ α} {R : σ → τ → Prop} {s' : SharedState τ α}

theorem Simulates.perform (h : ops.Simulates ops' R) (hs : Related R s s')
    (action : CacheAction α) : Agrees R (ops.perform s action) (ops'.perform s' action) := by
  obtain ⟨store, building, given⟩ := s
  obtain ⟨store', building', given'⟩ := s'
  obtain ⟨hstore, hbuilding, hgiven⟩ := hs
  dsimp only at hstore hbuilding hgiven
  subst hbuilding hgiven
  unfold SharedStore.perform
  cases action with
  | get file =>
    obtain ⟨found, c, m, hc, hm, hR⟩ := h.access hstore file fun _ => true
    simp only [hc, hm]
    exact Or.inr ⟨_, _, _, rfl, rfl, hR, rfl, rfl⟩
  | getFor file text =>
    obtain ⟨found, c, m, hc, hm, hR⟩ := h.access hstore file (· == text)
    simp only [hc, hm]
    exact Or.inr ⟨_, _, _, rfl, rfl, hR, rfl, rfl⟩
  | lookUp file text =>
    obtain ⟨found, c, m, hc, hm, hR⟩ := h.access hstore file (· == text)
    simp only [hc, hm]
    cases found with
    | none => exact Or.inr ⟨_, _, _, rfl, rfl, hR, rfl, rfl⟩
    | some value => exact Or.inr ⟨_, _, _, rfl, rfl, hR, rfl, rfl⟩
  | finish call built =>
    dsimp only
    cases building[call]? with
    | none => exact Or.inl ⟨rfl, rfl⟩
    | some request =>
      cases built with
      | none => exact Or.inr ⟨_, _, _, rfl, rfl, hstore, rfl, rfl⟩
      | some value =>
        obtain ⟨valid, c, m, hc, hm, hR⟩ := h.keep hstore request.1 request.2 value
        simp only [hc, hm]
        exact Or.inr ⟨_, _, _, rfl, rfl, hR, rfl, rfl⟩
  | invalidate file => exact Or.inr ⟨_, _, _, rfl, rfl, h.erase hstore file, rfl, rfl⟩
  | clear => exact Or.inr ⟨_, _, _, rfl, rfl, h.clear hstore, rfl, rfl⟩

/-- By induction on the actions: if every step is simulated, every run is. -/
theorem Simulates.run (h : ops.Simulates ops' R) (hs : Related R s s')
    (actions : List (CacheAction α)) : Agrees R (ops.run s actions) (ops'.run s' actions) := by
  induction actions generalizing s s' with
  | nil => exact Or.inr ⟨_, _, _, rfl, rfl, hs⟩
  | cons action actions ih =>
    unfold SharedStore.run
    rcases h.perform hs action with ⟨h₁, h₂⟩ | ⟨answer, t, t', h₁, h₂, ht⟩
    · rw [h₁, h₂]
      exact Or.inl ⟨rfl, rfl⟩
    · rw [h₁, h₂, Option.bind_some, Option.bind_some]
      dsimp only
      rcases ih ht with ⟨h₃, h₄⟩ | ⟨answers, u, u', h₃, h₄, hu⟩
      · rw [h₃, h₄]
        exact Or.inl ⟨rfl, rfl⟩
      · rw [h₃, h₄]
        exact Or.inr ⟨_, _, _, rfl, rfl, hu⟩

theorem Simulates.run_of_run (h : ops.Simulates ops' R) (hs : Related R s s')
    (hrun : ops.run s actions = some (answers, t)) :
    ∃ t', ops'.run s' actions = some (answers, t') ∧ Related R t t' := by
  rcases h.run hs actions with ⟨hnone, -⟩ | ⟨_, _, t', hsome, hrun', ht⟩
  · rw [hnone] at hrun
    cases hrun
  · rw [hrun] at hsome
    cases hsome
    exact ⟨t', hrun', ht⟩

/-- The cache does what a list in the order of use does. -/
theorem cacheStore_simulates (policy : CachePolicy) :
    (cacheStore policy : SharedStore (RecencyCache α) α).Simulates (listStore policy)
      RecencyCache.Refines where
  access h file wanted := by
    obtain ⟨hanswer, hrefines⟩ := h.access file wanted
    exact ⟨_, _, _, rfl, Prod.ext hanswer.symm rfl, hrefines⟩
  keep h file text value := by
    obtain ⟨hanswer, hrefines⟩ := h.keep policy file text value
    exact ⟨_, _, _, rfl, Prod.ext hanswer.symm rfl, hrefines⟩
  erase h file := h.erase file
  clear _ := .clear _

end SharedStore

/-! ### What a list in the order of use holds -/

namespace RecencyList

variable {α : Type} {policy : CachePolicy} {l : RecencyList α} {file : FileId}
  {wanted : String → Bool} {text : String} {value : α} {h : Held α}

theorem mem_without : h ∈ l.without file ↔ h ∈ l ∧ h.file ≠ file := by
  simp [without]

/-- The two outcomes of an access. -/
theorem access_cases (l : RecencyList α) (file : FileId) (wanted : String → Bool) :
    (∃ h ∈ l, h.file = file ∧ wanted h.text = true ∧
      l.access file wanted = (some h.value, l.without file ++ [h])) ∨
    l.access file wanted = (none, l) := by
  unfold access
  split
  · next h hfind =>
    split
    · next hwanted =>
      exact Or.inl ⟨h, List.mem_of_find?_eq_some hfind, by simpa using List.find?_some hfind,
        hwanted, rfl⟩
    · exact Or.inr rfl
  · exact Or.inr rfl

/-- A list that a policy allows: every file has one value, there are no more than fit, and none
    was made from a text of which the values are not kept. -/
structure Sound (policy : CachePolicy) (l : RecencyList α) : Prop where
  distinct : l.Pairwise fun a b => a.file ≠ b.file
  fits : ∀ n, policy.capacity = some n → l.length ≤ n
  keeps : ∀ h ∈ l, policy.keeps h.text = true

namespace Sound

theorem nil : Sound policy ([] : RecencyList α) :=
  ⟨.nil, fun _ _ => Nat.zero_le _, by simp⟩

theorem without (hl : l.Sound policy) (file : FileId) : (l.without file).Sound policy :=
  ⟨hl.distinct.filter _, fun n hn => Nat.le_trans (List.length_filter_le _ _) (hl.fits n hn),
    fun h hh => hl.keeps h (mem_without.mp hh).1⟩

theorem distinct_concat (hl : l.Pairwise fun a b => a.file ≠ b.file) (h : Held α) :
    (l.without h.file ++ [h]).Pairwise fun a b => a.file ≠ b.file := by
  refine List.pairwise_append.mpr ⟨hl.filter _, List.pairwise_singleton _ _, ?_⟩
  intro a ha b hb
  rw [List.mem_singleton.mp hb]
  exact (mem_without.mp ha).2

theorem concat (hl : l.Sound policy) (hmem : h ∈ l) : (l.without h.file ++ [h]).Sound policy := by
  refine ⟨distinct_concat hl.distinct h, fun n hn => ?_, ?_⟩
  · have hlt : (l.without h.file).length < l.length :=
      List.length_filter_lt_length_iff_exists.mpr ⟨h, hmem, by simp⟩
    rw [List.length_append, List.length_singleton]
    exact Nat.le_trans hlt (hl.fits n hn)
  · intro g hg
    rcases List.mem_append.mp hg with hg | hg
    · exact hl.keeps g (mem_without.mp hg).1
    · rw [List.mem_singleton.mp hg]
      exact hl.keeps h hmem

theorem access (hl : l.Sound policy) {found : Option α} {l' : RecencyList α}
    (heq : l.access file wanted = (found, l')) : l'.Sound policy := by
  rcases l.access_cases file wanted with ⟨h, hmem, rfl, -, heq'⟩ | heq'
  · rw [heq'] at heq
    cases heq
    exact hl.concat hmem
  · rw [heq'] at heq
    cases heq
    exact hl

/-- A list is allowed again once it is limited to what fits. -/
theorem limit (hdistinct : l.Pairwise fun a b => a.file ≠ b.file)
    (hkeeps : ∀ h ∈ l, policy.keeps h.text = true) : (l.limit policy.capacity).Sound policy := by
  unfold RecencyList.limit
  split
  · next hnone =>
    refine ⟨hdistinct, fun n hn => ?_, hkeeps⟩
    rw [hnone] at hn
    cases hn
  · next capacity hsome =>
    refine ⟨hdistinct.drop, fun n hn => ?_, fun g hg => hkeeps g (List.mem_of_mem_drop hg)⟩
    rw [hsome, Option.some.injEq] at hn
    rw [List.length_drop, hn]
    omega

theorem keep (hl : l.Sound policy) {valid : α} {l' : RecencyList α}
    (heq : l.keep policy file text value = (valid, l')) : l'.Sound policy := by
  unfold RecencyList.keep at heq
  split at heq
  · next hkeeps =>
    split at heq
    · next haccess =>
      cases heq
      exact hl.access haccess
    · cases heq
      refine .limit (distinct_concat hl.distinct ⟨file, text, value⟩) ?_
      intro g hg
      rcases List.mem_append.mp hg with hg | hg
      · exact hl.keeps g (mem_without.mp hg).1
      · rw [List.mem_singleton.mp hg]
        exact hkeeps
  · cases heq
    exact hl

end Sound

end RecencyList

namespace SharedStore

variable {α : Type} {policy : CachePolicy}

theorem Performs.sound {s t : SharedState (RecencyList α) α} {action : CacheAction α}
    {answer : Option α} (h : (listStore policy).Performs s action answer t)
    (hs : s.store.Sound policy) : t.store.Sound policy := by
  cases h with
  | get heq =>
    rw [listStore_access] at heq
    exact hs.access heq
  | getFor heq =>
    rw [listStore_access] at heq
    exact hs.access heq
  | hit heq =>
    rw [listStore_access] at heq
    exact hs.access heq
  | miss heq =>
    rw [listStore_access] at heq
    exact hs.access heq
  | fail _ => exact hs
  | store _ heq =>
    rw [listStore_keep] at heq
    exact hs.keep heq
  | @invalidate file => exact hs.without file
  | clear => exact .nil

/-- Whatever is done, the list is one that the policy allows. -/
theorem run_sound {actions : List (CacheAction α)} {answers : List (Option α)}
    {s : SharedState (RecencyList α) α}
    (h : (listStore policy).run { store := [] } actions = some (answers, s)) :
    s.store.Sound policy := by
  refine run_keeps (P := fun _ => True) (I := fun s => s.store.Sound policy) ?_
    (fun _ _ => trivial) .nil h
  intro s action answer t _ hs hperform
  exact (performs_of_perform hperform).sound hs

end SharedStore

end ScriptAnalysis
