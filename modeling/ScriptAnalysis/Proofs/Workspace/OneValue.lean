import Mathlib.Data.Finset.Card
import ScriptAnalysis.Proofs.Workspace.SharedCache

/-!
# All users of a text get one value

If every file is wanted with one text, no build fails, and all files fit into the cache, then
whoever stores the first value of a file decides which value everyone gets: nothing that is done
later removes it.
-/

namespace ScriptAnalysis

/-- What users do who want these files, each with one text: they ask for values and look at what is
    there, and their builds succeed. -/
def CacheAction.Wants {α : Type} (files : Finset FileId) (textOf : FileId → String) :
    CacheAction α → Prop
  | .get _ | .getFor _ _ => True
  | .lookUp file text => file ∈ files ∧ text = textOf file
  | .finish _ built => built.isSome
  | .invalidate _ | .clear => False

namespace RecencyList

variable {α : Type} {policy : CachePolicy} {l l' : RecencyList α} {file : FileId}
  {wanted : String → Bool} {files : Finset FileId} {textOf : FileId → String} {value valid : α}

/-- The list has values of these texts only. -/
structure Within (files : Finset FileId) (textOf : FileId → String) (l : RecencyList α) : Prop where
  distinct : l.Pairwise fun a b => a.file ≠ b.file
  file_mem : ∀ h ∈ l, h.file ∈ files
  text_eq : ∀ h ∈ l, h.text = textOf h.file

/-- There are no more values than files. -/
theorem Within.length_le (hl : l.Within files textOf) : l.length ≤ files.card := by
  have hnodup : (l.map Held.file).Nodup := List.pairwise_map.mpr hl.distinct
  rw [← List.length_map (f := Held.file), ← List.toFinset_card_of_nodup hnodup]
  apply Finset.card_le_card
  intro f hf
  obtain ⟨h, hh, rfl⟩ := List.mem_map.mp (List.mem_toFinset.mp hf)
  exact hl.file_mem h hh

/-- A use changes the order only. -/
theorem Within.access (hl : l.Within files textOf) {found : Option α}
    (heq : l.access file wanted = (found, l')) :
    l'.Within files textOf ∧ ∀ h, h ∈ l' ↔ h ∈ l := by
  rcases l.access_cases file wanted with ⟨h, hmem, rfl, -, heq'⟩ | heq'
  · rw [heq'] at heq
    cases heq
    have hiff : ∀ g, g ∈ l.without h.file ++ [h] ↔ g ∈ l := by
      intro g
      rw [List.mem_append, mem_without, List.mem_singleton]
      constructor
      · rintro (⟨hg, -⟩ | rfl)
        · exact hg
        · exact hmem
      · intro hg
        by_cases hgh : g = h
        · exact Or.inr hgh
        · have : Std.Symm fun a b : Held α => a.file ≠ b.file := ⟨fun _ _ => Ne.symm⟩
          exact Or.inl ⟨hg, hl.distinct.forall hg hmem hgh⟩
    refine ⟨⟨Sound.distinct_concat hl.distinct h, ?_, ?_⟩, hiff⟩
    · intro g hg
      exact hl.file_mem g ((hiff g).mp hg)
    · intro g hg
      exact hl.text_eq g ((hiff g).mp hg)
  · rw [heq'] at heq
    cases heq
    exact ⟨hl, fun _ => Iff.rfl⟩

/-- What is found was made from the wanted text. -/
theorem Within.mem_of_access (hl : l.Within files textOf)
    (heq : l.access file wanted = (some value, l')) : ⟨file, textOf file, value⟩ ∈ l := by
  rcases l.access_cases file wanted with ⟨h, hmem, rfl, -, heq'⟩ | heq'
  · rw [heq'] at heq
    cases heq
    rw [← hl.text_eq h hmem]
    exact hmem
  · rw [heq'] at heq
    cases heq

/-- Where nothing is found there is no value of the file. -/
theorem Within.absent_of_access (hl : l.Within files textOf)
    (heq : l.access file (· == textOf file) = (none, l')) : ∀ h ∈ l, h.file ≠ file := by
  intro g hg hfile
  unfold RecencyList.access at heq
  split at heq
  · next h hfind =>
    have hfile : h.file = file := by simpa using List.find?_some hfind
    have htext := hl.text_eq h (List.mem_of_find?_eq_some hfind)
    simp only [htext, hfile, beq_self_eq_true, if_true] at heq
    cases heq
  · next hfind => exact List.find?_eq_none.mp hfind g hg (by simpa using hfile)

theorem without_eq_self (habsent : ∀ h ∈ l, h.file ≠ file) : l.without file = l := by
  apply List.filter_eq_self.mpr
  intro h hh
  simpa using habsent h hh

/-- A value of a file without one may be added. -/
theorem Within.concat (hl : l.Within files textOf) (hfile : file ∈ files)
    (habsent : ∀ h ∈ l, h.file ≠ file) (value : α) :
    Within files textOf (l ++ [⟨file, textOf file, value⟩]) := by
  refine ⟨?_, ?_, ?_⟩
  · have hconcat := Sound.distinct_concat hl.distinct ⟨file, textOf file, value⟩
    rw [without_eq_self habsent] at hconcat
    exact hconcat
  · intro h hh
    rcases List.mem_append.mp hh with hh | hh
    · exact hl.file_mem h hh
    · rw [List.mem_singleton.mp hh]
      exact hfile
  · intro h hh
    rcases List.mem_append.mp hh with hh | hh
    · exact hl.text_eq h hh
    · rw [List.mem_singleton.mp hh]

/-- What fits is kept whole. -/
theorem Within.limit_eq (hl : l.Within files textOf) {capacity : Option Nat}
    (hcapacity : ∀ n, capacity = some n → files.card ≤ n) : l.limit capacity = l := by
  unfold RecencyList.limit
  cases capacity with
  | none => rfl
  | some n =>
    dsimp only
    rw [Nat.sub_eq_zero_of_le (Nat.le_trans hl.length_le (hcapacity n rfl)), List.drop_zero]

/-- Storing a value of a file adds it, or finds the one that is there. -/
theorem Within.keep (hl : l.Within files textOf) (hfile : file ∈ files)
    (hkeeps : policy.keeps (textOf file) = true)
    (hcapacity : ∀ n, policy.capacity = some n → files.card ≤ n)
    (heq : l.keep policy file (textOf file) value = (valid, l')) :
    l'.Within files textOf ∧ (∀ h ∈ l, h ∈ l') ∧ ⟨file, textOf file, valid⟩ ∈ l' := by
  unfold RecencyList.keep at heq
  rw [if_pos hkeeps] at heq
  split at heq
  · next other used haccess =>
    cases heq
    obtain ⟨hwithin, hiff⟩ := hl.access haccess
    exact ⟨hwithin, fun h hh => (hiff h).mpr hh, (hiff _).mpr (hl.mem_of_access haccess)⟩
  · next used haccess =>
    cases heq
    have habsent := hl.absent_of_access haccess
    have hnew := hl.concat hfile habsent value
    rw [without_eq_self habsent, hnew.limit_eq hcapacity]
    refine ⟨hnew, ?_, ?_⟩
    · intro h hh
      exact List.mem_append_left _ hh
    · exact List.mem_append_right _ (List.mem_singleton_self _)

end RecencyList

/-! ### Runs -/

namespace SharedStore

variable {α : Type} {policy : CachePolicy} {files : Finset FileId} {textOf : FileId → String}
  {s t : SharedState (RecencyList α) α} {action : CacheAction α} {answer : Option α}

/-- Everyone was given what is stored, and what is being built will be given that as well. -/
structure Shares (files : Finset FileId) (textOf : FileId → String)
    (s : SharedState (RecencyList α) α) : Prop where
  within : s.store.Within files textOf
  building : ∀ request ∈ s.building, request.1 ∈ files ∧ request.2 = textOf request.1
  given : ∀ x ∈ s.given, ⟨x.1, textOf x.1, x.2⟩ ∈ s.store

/-- One step keeps the values that are stored, and gives one of them. -/
theorem Performs.shares (hkeeps : ∀ file ∈ files, policy.keeps (textOf file) = true)
    (hcapacity : ∀ n, policy.capacity = some n → files.card ≤ n)
    (h : (listStore policy).Performs s action answer t) (hwants : action.Wants files textOf)
    (hs : Shares files textOf s) :
    Shares files textOf t ∧ (∀ h ∈ s.store, h ∈ t.store) ∧ ∀ x ∈ s.given, x ∈ t.given := by
  obtain ⟨hwithin, hbuilding, hgiven⟩ := hs
  cases h with
  | get heq =>
    rw [listStore_access] at heq
    obtain ⟨hwithin', hiff⟩ := hwithin.access heq
    exact ⟨⟨hwithin', hbuilding, fun x hx => (hiff _).mpr (hgiven x hx)⟩,
      fun h hh => (hiff h).mpr hh, fun x hx => hx⟩
  | getFor heq =>
    rw [listStore_access] at heq
    obtain ⟨hwithin', hiff⟩ := hwithin.access heq
    exact ⟨⟨hwithin', hbuilding, fun x hx => (hiff _).mpr (hgiven x hx)⟩,
      fun h hh => (hiff h).mpr hh, fun x hx => hx⟩
  | @hit file text value store heq =>
    rw [listStore_access] at heq
    obtain ⟨hwithin', hiff⟩ := hwithin.access heq
    refine ⟨⟨hwithin', hbuilding, ?_⟩, fun h hh => (hiff h).mpr hh,
      fun x hx => List.mem_cons_of_mem _ hx⟩
    intro x hx
    rcases List.mem_cons.mp hx with rfl | hx
    · exact (hiff _).mpr (hwithin.mem_of_access heq)
    · exact (hiff _).mpr (hgiven x hx)
  | @miss file text store heq =>
    rw [listStore_access] at heq
    obtain ⟨hwithin', hiff⟩ := hwithin.access heq
    refine ⟨⟨hwithin', ?_, fun x hx => (hiff _).mpr (hgiven x hx)⟩,
      fun h hh => (hiff h).mpr hh, fun x hx => hx⟩
    intro request hrequest
    rcases List.mem_cons.mp hrequest with rfl | hrequest
    · exact hwants
    · exact hbuilding request hrequest
  | fail _ => cases hwants
  | @store call file text value valid store hcall heq =>
    obtain ⟨hfile, htext⟩ := hbuilding _ (List.mem_of_getElem? hcall)
    dsimp only at hfile htext
    subst htext
    rw [listStore_keep] at heq
    obtain ⟨hwithin', hstays, hmem⟩ := hwithin.keep hfile (hkeeps file hfile) hcapacity heq
    refine ⟨⟨hwithin', ?_, ?_⟩, hstays, fun x hx => List.mem_cons_of_mem _ hx⟩
    · intro request hrequest
      exact hbuilding request (List.mem_of_mem_eraseIdx hrequest)
    · intro x hx
      rcases List.mem_cons.mp hx with rfl | hx
      · exact hmem
      · exact hstays _ (hgiven x hx)
  | invalidate => cases hwants
  | clear => cases hwants

/-- By induction on the actions: a run keeps the values that are stored. -/
theorem run_shares (hkeeps : ∀ file ∈ files, policy.keeps (textOf file) = true)
    (hcapacity : ∀ n, policy.capacity = some n → files.card ≤ n)
    {actions : List (CacheAction α)} {answers : List (Option α)}
    (hwants : ∀ action ∈ actions, action.Wants files textOf) (hs : Shares files textOf s)
    (h : (listStore policy).run s actions = some (answers, t)) :
    Shares files textOf t ∧ (∀ h ∈ s.store, h ∈ t.store) ∧ ∀ x ∈ s.given, x ∈ t.given := by
  refine run_keeps (P := fun action => action.Wants files textOf)
    (I := fun t => Shares files textOf t ∧ (∀ h ∈ s.store, h ∈ t.store) ∧
      ∀ x ∈ s.given, x ∈ t.given) ?_ hwants ⟨hs, fun _ hh => hh, fun _ hx => hx⟩ h
  rintro u action answer v hwants ⟨hu, hstore, hgiven⟩ hperform
  obtain ⟨hv, hstore', hgiven'⟩ :=
    (performs_of_perform hperform).shares hkeeps hcapacity hwants hu
  exact ⟨hv, fun h hh => hstore' h (hstore h hh), fun x hx => hgiven' x (hgiven x hx)⟩

/-- What one user of a file was given is what every user of it is given, before and afterwards, and
    it stays in the cache: provided that the cache keeps the texts of the files, and that as many
    values fit as there are files. -/
theorem users_share_one_value {α : Type} (policy : CachePolicy) (files : Finset FileId)
    (textOf : FileId → String)
    (hkeeps : ∀ file ∈ files, policy.keeps (textOf file) = true)
    (hcapacity : ∀ n, policy.capacity = some n → files.card ≤ n)
    (before after : List (CacheAction α)) (s t : SharedState (RecencyCache α) α)
    (answers answers' : List (Option α))
    (hbefore : ∀ action ∈ before, action.Wants files textOf)
    (hafter : ∀ action ∈ after, action.Wants files textOf)
    (hs : (cacheStore policy).run { store := .empty } before = some (answers, s))
    (ht : (cacheStore policy).run s after = some (answers', t))
    (file : FileId) (value : α) (hgiven : (file, value) ∈ s.given) :
    (∃ used, t.store.entries[file]? = some ⟨textOf file, value, used⟩) ∧
      ∀ other, (file, other) ∈ t.given → other = value := by
  have hstart : Related RecencyCache.Refines
      ({ store := .empty } : SharedState (RecencyCache α) α) { store := [] } :=
    ⟨.empty, rfl, rfl⟩
  have hempty : Shares files textOf ({ store := [] } : SharedState (RecencyList α) α) :=
    ⟨⟨.nil, by simp, by simp⟩, by simp, by simp⟩
  obtain ⟨s', hrun, hrelated⟩ := (cacheStore_simulates policy).run_of_run hstart hs
  obtain ⟨t', hrun', hrelated'⟩ := (cacheStore_simulates policy).run_of_run hrelated ht
  obtain ⟨hs', -, -⟩ := run_shares hkeeps hcapacity hbefore hempty hrun
  obtain ⟨ht', hstays, -⟩ := run_shares hkeeps hcapacity hafter hs' hrun'
  obtain ⟨-, -, hsgiven⟩ := hrelated
  obtain ⟨hrefines, -, htgiven⟩ := hrelated'
  rw [hsgiven] at hgiven
  have hstored := hstays _ (hs'.given _ hgiven)
  refine ⟨hrefines.mem_iff.mp hstored, ?_⟩
  intro other hother
  rw [htgiven] at hother
  have hentry := hrefines.mem_iff.mp hstored
  have hentry' := hrefines.mem_iff.mp (ht'.given _ hother)
  obtain ⟨used, hused⟩ := hentry
  obtain ⟨used', hused'⟩ := hentry'
  rw [hused] at hused'
  cases hused'
  rfl

/-- Two users want one text, neither finds it, and both build it: the second one to finish is given
    the value of the first. -/
theorem second_builder_gets_first_value :
    ∃ answers answers' s t,
      (cacheStore {}).run { store := .empty }
        [.lookUp 7 "a", .lookUp 7 "a", .finish 1 (some 10)] = some (answers, s) ∧
      (cacheStore {}).run s [.finish 0 (some 20)] = some (answers', t) ∧
      (∃ used, t.store.entries[7]? = some ⟨"a", 10, used⟩) ∧
      ∀ other, (7, other) ∈ t.given → other = 10 := by
  refine ⟨_, _, _, _, rfl, rfl, ?_⟩
  refine users_share_one_value {} {7} (fun _ => "a") ?_ ?_
    [.lookUp 7 "a", .lookUp 7 "a", .finish 1 (some 10)] [.finish 0 (some 20)] _ _ _ _ ?_ ?_ rfl rfl
    7 10 (List.mem_singleton_self _)
  · intro file _
    decide
  · intro n hn
    cases hn
    decide
  · simp [CacheAction.Wants]
  · simp [CacheAction.Wants]

end SharedStore

end ScriptAnalysis
