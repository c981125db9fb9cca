import Mathlib.Data.List.Basic
import Mathlib.Data.List.Pairwise
import ScriptAnalysis.Workspace.Cache

/-!
# The order of last use

A cache numbers its accesses, and the number of an entry's last use is the only order that it knows.
`RecencyCache.Lists` says that a list has the entries in that order; there is at most one such list,
the one that `toList` answers.  Every operation on the cache is a plain operation on the list: using
an entry moves it to the end, and forgetting the oldest one drops the head.
-/

namespace ScriptAnalysis

namespace RecencyCache

variable {α : Type} {c c' : RecencyCache α} {file : FileId} {entry : CacheEntry α}
  {l : List (FileId × CacheEntry α)} {wanted : String → Bool} {value : α} {text : String}

/-- The list has the entries of the cache, the one not used for longest first. -/
structure Lists (c : RecencyCache α) (l : List (FileId × CacheEntry α)) : Prop where
  mem_iff : ∀ file entry, (file, entry) ∈ l ↔ c.entries[file]? = some entry
  sorted : l.Pairwise fun a b => a.2.lastUsed < b.2.lastUsed
  le_clock : ∀ x ∈ l, x.2.lastUsed ≤ c.clock

namespace Lists

theorem nodup (h : c.Lists l) : l.Nodup := by
  refine h.sorted.imp ?_
  rintro a _ hlt rfl
  exact Nat.lt_irrefl _ hlt

theorem eq_of_lastUsed_eq (h : c.Lists l) {a b : FileId × CacheEntry α} (ha : a ∈ l) (hb : b ∈ l)
    (heq : a.2.lastUsed = b.2.lastUsed) : a = b := by
  by_contra hne
  have : Std.Symm fun a b : FileId × CacheEntry α => a.2.lastUsed ≠ b.2.lastUsed :=
    ⟨fun _ _ => Ne.symm⟩
  have hne_used : l.Pairwise fun a b => a.2.lastUsed ≠ b.2.lastUsed := h.sorted.imp Nat.ne_of_lt
  exact hne_used.forall ha hb hne heq

/-- A file has one entry. -/
theorem distinct (h : c.Lists l) : l.Pairwise fun a b => a.1 ≠ b.1 := by
  refine h.sorted.imp_of_mem ?_
  intro a b ha hb hlt hfile
  have ha' := (h.mem_iff a.1 a.2).mp ha
  have hb' := (h.mem_iff b.1 b.2).mp hb
  rw [hfile, hb', Option.some.injEq] at ha'
  rw [ha'] at hlt
  exact Nat.lt_irrefl _ hlt

theorem toList_perm (h : c.Lists l) : c.entries.toList.Perm l := by
  have hkeys : c.entries.toList.Nodup := by
    refine Std.TreeMap.distinct_keys_toList.imp ?_
    rintro a _ hne rfl
    exact hne Std.ReflCmp.compare_self
  apply (List.perm_ext_iff_of_nodup hkeys h.nodup).mpr
  intro x
  rw [h.mem_iff x.1 x.2]
  exact Std.TreeMap.mem_toList_iff_getElem?_eq_some

/-- The order of last use is the only one of its kind. -/
theorem toList_eq (h : c.Lists l) : c.toList = l := by
  have hperm : c.toList.Perm l := (List.mergeSort_perm _ _).trans h.toList_perm
  have hle : c.toList.Pairwise fun a b => a.2.lastUsed ≤ b.2.lastUsed := by
    have hsorted : c.toList.Pairwise fun a b => decide (a.2.lastUsed ≤ b.2.lastUsed) = true := by
      apply List.pairwise_mergeSort
      · intro a b c hab hbc
        simp only [decide_eq_true_eq] at *
        omega
      · intro a b
        simp only [Bool.or_eq_true, decide_eq_true_eq]
        omega
    exact hsorted.imp fun hab => of_decide_eq_true hab
  refine hperm.eq_of_pairwise ?_ hle (h.sorted.imp Nat.le_of_lt)
  intro a b ha hb hab hba
  exact h.eq_of_lastUsed_eq (hperm.mem_iff.mp ha) hb (Nat.le_antisymm hab hba)

theorem files_eq (h : c.Lists l) : c.files = l.map Prod.fst := by
  unfold files
  rw [h.toList_eq]

theorem size_eq (h : c.Lists l) : c.size = l.length := by
  rw [← h.toList_perm.length_eq]
  exact Std.TreeMap.length_toList.symm

/-! ### Operations -/

theorem empty : (empty : RecencyCache α).Lists [] :=
  ⟨by simp [RecencyCache.empty], .nil, by simp⟩

/-- An access that finds nothing advances the clock only. -/
theorem tick (h : c.Lists l) : Lists { c with clock := c.clock + 1 } l :=
  ⟨h.mem_iff, h.sorted, fun x hx => Nat.le_succ_of_le (h.le_clock x hx)⟩

/-- What is entered as used last comes last. -/
theorem put (h : c.Lists l) (file : FileId) (text : String) (value : α) :
    Lists ⟨c.entries.insert file ⟨text, value, c.clock + 1⟩, c.clock + 1⟩
      (l.filter (fun x => decide (x.1 ≠ file)) ++ [(file, ⟨text, value, c.clock + 1⟩)]) := by
  refine ⟨fun f e => ?_, ?_, ?_⟩
  · rw [Std.TreeMap.getElem?_insert, List.mem_append, List.mem_filter, h.mem_iff]
    by_cases hf : file = f
    · subst hf
      simp [eq_comm]
    · simp [hf, Ne.symm hf]
  · rw [List.pairwise_append]
    refine ⟨h.sorted.filter _, List.pairwise_singleton _ _, ?_⟩
    intro x hx y hy
    rw [List.mem_singleton.mp hy]
    exact Nat.lt_succ_of_le (h.le_clock x (List.mem_of_mem_filter hx))
  · intro x hx
    rcases List.mem_append.mp hx with hx | hx
    · exact Nat.le_succ_of_le (h.le_clock x (List.mem_of_mem_filter hx))
    · obtain rfl := List.mem_singleton.mp hx
      exact Nat.le_refl _

theorem erase (h : c.Lists l) (file : FileId) :
    (c.erase file).Lists (l.filter fun x => decide (x.1 ≠ file)) := by
  refine ⟨fun f e => ?_, h.sorted.filter _, fun x hx => h.le_clock x (List.mem_of_mem_filter hx)⟩
  unfold RecencyCache.erase
  rw [Std.TreeMap.getElem?_erase, List.mem_filter, h.mem_iff]
  by_cases hf : file = f
  · subst hf
    simp
  · simp [hf, Ne.symm hf]

theorem clear (c : RecencyCache α) : c.clear.Lists [] :=
  ⟨by simp [RecencyCache.clear], .nil, by simp⟩

/-- The head of the list is the entry not used for longest. -/
theorem dropOldest (h : c.Lists l) : c.dropOldest.Lists l.tail := by
  unfold RecencyCache.dropOldest
  rw [h.files_eq]
  cases l with
  | nil => exact h
  | cons x l =>
    have herase := h.erase x.1
    have hfilter : (x :: l).filter (fun y => decide (y.1 ≠ x.1)) = l := by
      rw [List.filter_cons_of_neg (by simp)]
      apply List.filter_eq_self.mpr
      intro y hy
      simpa using (List.rel_of_pairwise_cons h.distinct hy).symm
    rw [hfilter] at herase
    exact herase

theorem repeat_dropOldest (h : c.Lists l) (n : Nat) :
    (Nat.repeat RecencyCache.dropOldest n c).Lists (l.drop n) := by
  induction n with
  | zero => exact h
  | succ n ih =>
    rw [← List.tail_drop]
    exact ih.dropOldest

end Lists

end RecencyCache

/-! ### Plain lists in the order of use -/

/-- A value that is kept for a file, and the text from which it was made. -/
structure Held (α : Type) where
  file : FileId
  text : String
  value : α
deriving DecidableEq, Repr

/-- What is kept, the value not used for longest first. -/
abbrev RecencyList (α : Type) := List (Held α)

namespace RecencyList

variable {α : Type}

/-- Without what is kept for a file. -/
def without (l : RecencyList α) (file : FileId) : RecencyList α :=
  l.filter fun h => decide (h.file ≠ file)

/-- Uses what is kept for a file if its text is wanted: it becomes the last one. -/
def access (l : RecencyList α) (file : FileId) (wanted : String → Bool) :
    Option α × RecencyList α :=
  match l.find? fun h => decide (h.file = file) with
  | some h => if wanted h.text then (some h.value, l.without file ++ [h]) else (none, l)
  | none => (none, l)

/-- What finds nothing changes nothing. -/
theorem access_none {l : RecencyList α} {file : FileId} {wanted : String → Bool}
    (h : (l.access file wanted).1 = none) : (l.access file wanted).2 = l := by
  unfold access at h ⊢
  split
  · next held hfind =>
    rw [hfind] at h
    dsimp only at h
    split
    · next hwanted =>
      rw [if_pos hwanted] at h
      cases h
    · rfl
  · rfl

/-- Drops as many from the front as there are more than `capacity`. -/
def limit (l : RecencyList α) : Option Nat → RecencyList α
  | none => l
  | some capacity => l.drop (l.length - capacity)

/-- Stores a value, unless one of the same text is kept, or texts like it are not kept.  Answers
    the value that is valid from now on. -/
def keep (policy : CachePolicy) (l : RecencyList α) (file : FileId) (text : String) (value : α) :
    α × RecencyList α :=
  if policy.keeps text then
    match l.access file (· == text) with
    | (some other, used) => (other, used)
    | (none, _) => (value, limit (l.without file ++ [⟨file, text, value⟩]) policy.capacity)
  else (value, l)

end RecencyList

namespace RecencyCache

variable {α : Type} {c : RecencyCache α} {m : RecencyList α} {l : List (FileId × CacheEntry α)}

/-- An entry without the time of its last use. -/
def held (x : FileId × CacheEntry α) : Held α := ⟨x.1, x.2.text, x.2.value⟩

/-- The cache is a plain list: its entries, the one not used for longest first. -/
def Refines (c : RecencyCache α) (m : RecencyList α) : Prop := ∃ l, c.Lists l ∧ m = l.map held

namespace Refines

theorem empty : (empty : RecencyCache α).Refines [] := ⟨[], .empty, rfl⟩

theorem toList_eq (h : c.Refines m) : c.toList.map held = m := by
  obtain ⟨l, hl, rfl⟩ := h
  rw [hl.toList_eq]

theorem files_eq (h : c.Refines m) : c.files = m.map Held.file := by
  obtain ⟨l, hl, rfl⟩ := h
  rw [hl.files_eq, List.map_map]
  rfl

theorem size_eq (h : c.Refines m) : c.size = m.length := by
  obtain ⟨l, hl, rfl⟩ := h
  rw [hl.size_eq, List.length_map]

theorem mem_iff (h : c.Refines m) {file : FileId} {text : String} {value : α} :
    ⟨file, text, value⟩ ∈ m ↔ ∃ used, c.entries[file]? = some ⟨text, value, used⟩ := by
  obtain ⟨l, hl, rfl⟩ := h
  constructor
  · intro hmem
    obtain ⟨x, hx, heq⟩ := List.mem_map.mp hmem
    cases heq
    exact ⟨x.2.lastUsed, (hl.mem_iff _ _).mp hx⟩
  · rintro ⟨used, hentry⟩
    exact List.mem_map.mpr ⟨_, (hl.mem_iff _ _).mpr hentry, rfl⟩

theorem without_map (file : FileId) :
    (l.filter fun x => decide (x.1 ≠ file)).map held = RecencyList.without (l.map held) file := by
  unfold RecencyList.without
  rw [List.filter_map]
  rfl

theorem find?_map (file : FileId) :
    (l.map held).find? (fun h => decide (h.file = file)) =
      (l.find? fun x => decide (x.1 = file)).map held := by
  rw [List.find?_map]
  rfl

/-- The list finds for a file what the cache finds. -/
theorem find?_eq (hl : c.Lists l) (file : FileId) :
    l.find? (fun x => decide (x.1 = file)) = c.entries[file]?.map fun entry => (file, entry) := by
  cases hentry : c.entries[file]? with
  | none =>
    rw [Option.map_none, List.find?_eq_none]
    rintro ⟨f, e⟩ hx
    have hx := (hl.mem_iff f e).mp hx
    simp only [decide_eq_true_eq]
    rintro rfl
    rw [hentry] at hx
    cases hx
  | some entry =>
    rw [Option.map_some]
    have hmem := (hl.mem_iff file entry).mpr hentry
    cases hfind : l.find? fun x => decide (x.1 = file) with
    | none => exact absurd (List.find?_eq_none.mp hfind _ hmem) (by simp)
    | some x =>
      have hfile : x.1 = file := by simpa using List.find?_some hfind
      have hx := (hl.mem_iff x.1 x.2).mp (List.mem_of_find?_eq_some hfind)
      rw [hfile, hentry, Option.some.injEq] at hx
      rw [hx, ← hfile]

theorem access (h : c.Refines m) (file : FileId) (wanted : String → Bool) :
    (c.access file wanted).1 = (m.access file wanted).1 ∧
      (c.access file wanted).2.Refines (m.access file wanted).2 := by
  obtain ⟨l, hl, rfl⟩ := h
  unfold RecencyCache.access RecencyList.access
  rw [find?_map, find?_eq hl]
  dsimp only
  cases hentry : c.entries[file]? with
  | none => exact ⟨rfl, l, hl.tick, rfl⟩
  | some entry =>
    rw [Option.map_some, Option.map_some]
    dsimp only
    by_cases hwanted : wanted entry.text = true
    · rw [if_pos hwanted, if_pos (show wanted (held (file, entry)).text = true from hwanted)]
      refine ⟨rfl, _, hl.put file entry.text entry.value, ?_⟩
      rw [List.map_append, without_map]
      rfl
    · rw [if_neg hwanted, if_neg (show ¬ wanted (held (file, entry)).text = true from hwanted)]
      exact ⟨rfl, l, hl.tick, rfl⟩

theorem erase (h : c.Refines m) (file : FileId) : (c.erase file).Refines (m.without file) := by
  obtain ⟨l, hl, rfl⟩ := h
  exact ⟨_, hl.erase file, (without_map file).symm⟩

theorem clear (c : RecencyCache α) : c.clear.Refines [] := ⟨[], .clear c, rfl⟩

theorem insert (h : c.Refines m) (file : FileId) (text : String) (value : α) :
    (c.insert file text value).Refines (m.without file ++ [⟨file, text, value⟩]) := by
  obtain ⟨l, hl, rfl⟩ := h
  refine ⟨_, hl.put file text value, ?_⟩
  rw [List.map_append, without_map]
  rfl

theorem trim (h : c.Refines m) (capacity : Option Nat) :
    (c.trim capacity).Refines (m.limit capacity) := by
  cases capacity with
  | none => exact h
  | some capacity =>
    unfold RecencyCache.trim RecencyList.limit
    dsimp only
    rw [h.size_eq]
    obtain ⟨l, hl, rfl⟩ := h
    exact ⟨_, hl.repeat_dropOldest _, List.map_drop.symm⟩

theorem keep (h : c.Refines m) (policy : CachePolicy) (file : FileId) (text : String)
    (value : α) :
    (c.keep policy file text value).1 = (m.keep policy file text value).1 ∧
      (c.keep policy file text value).2.Refines (m.keep policy file text value).2 := by
  unfold RecencyCache.keep RecencyList.keep
  split
  · obtain ⟨hanswer, hrefines⟩ := h.access file (· == text)
    unfold RecencyCache.store RecencyCache.getFor
    cases hm : m.access file (· == text) with
    | mk found used =>
      cases hc : c.access file (· == text) with
      | mk found' c' =>
        rw [hm, hc] at hanswer hrefines
        dsimp only at hanswer hrefines
        subst hanswer
        cases found' with
        | some other => exact ⟨rfl, hrefines⟩
        | none =>
          have hnone : (m.access file (· == text)).1 = none := by
            rw [hm]
          have hused := RecencyList.access_none hnone
          rw [hm] at hused
          dsimp only at hused
          subst hused
          exact ⟨rfl, (hrefines.insert file text value).trim _⟩
  · exact ⟨rfl, h⟩

end Refines

end RecencyCache

end ScriptAnalysis
