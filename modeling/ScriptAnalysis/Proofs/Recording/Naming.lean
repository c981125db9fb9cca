import ScriptAnalysis.Proofs.Recording.Recorded

/-!
# The name of a declaration

When a declaration ends, the marker of its name is looked for among the events in it.  What a
finished node holds is passed over, and so is whatever holds no name, so that only a name that
stands directly in the declaration is found.
-/

namespace ScriptAnalysis

variable {mk mk' : MarkerId → Marker} {markers : Array Marker} {wanted : NodeKind → Bool}
  {owner m j : MarkerId} {p q rest : List Event} {nodes : List Bool}

/-! ### Brackets -/

/-- A marker that ends has started. -/
theorem start_mem_of_stop {σ τ : List MarkerId} (h : openedAfter σ p = some τ)
    (hm : .stop m ∈ p) : m ∈ σ ∨ .start m ∈ p := by
  induction p generalizing σ with
  | nil => cases hm
  | cons e p ih =>
    cases e with
    | token t =>
      rw [openedAfter_token] at h
      exact (ih h (by simpa using hm)).imp_right (List.mem_cons_of_mem _)
    | start id =>
      rw [openedAfter_start] at h
      rcases ih h (by simpa using hm) with hmem | hmem
      · rcases List.mem_cons.mp hmem with rfl | hmem
        · exact .inr (List.mem_cons_self ..)
        · exact .inl hmem
      · exact .inr (List.mem_cons_of_mem _ hmem)
    | stop id =>
      cases σ with
      | nil => cases h
      | cons top σ =>
        rw [openedAfter] at h
        split at h
        · next htop =>
          rcases List.mem_cons.mp hm with hm | hm
          · cases hm
            exact .inl (htop ▸ List.mem_cons_self ..)
          · exact (ih h hm).imp (List.mem_cons_of_mem _) (List.mem_cons_of_mem _)
        · cases h

theorem Balanced.start_mem (h : Balanced p) (hm : .stop m ∈ p) : .start m ∈ p := by
  rcases start_mem_of_stop (h []) hm with hmem | hmem
  · cases hmem
  · exact hmem

/-! ### What is passed over -/

theorem findName_tokens (ts : List Token) (rest : List Event) (nodes : List Bool) :
    findName markers wanted owner (ts.map .token ++ rest) nodes =
      findName markers wanted owner rest nodes := by
  induction ts with
  | nil => rfl
  | cons t ts ih => exact ih

/-- Nothing is found in a finished node. -/
theorem findName_inside {σ τ : List MarkerId} {flags : List Bool}
    (h : openedAfter σ p = some τ) (hflags : flags.length = σ.length) (howner : .stop owner ∉ p)
    (hnodes : true ∈ nodes) : ∃ flags' : List Bool, flags'.length = τ.length ∧
      findName markers wanted owner (p ++ rest) (flags ++ nodes) =
        findName markers wanted owner rest (flags' ++ nodes) := by
  induction p generalizing σ flags with
  | nil =>
    rw [openedAfter_nil] at h
    cases h
    exact ⟨flags, hflags, rfl⟩
  | cons e p ih =>
    have howner' : .stop owner ∉ p := fun hmem => howner (List.mem_cons_of_mem _ hmem)
    cases e with
    | token t =>
      rw [openedAfter_token] at h
      exact ih h hflags howner'
    | start id =>
      rw [openedAfter_start] at h
      have hcontains : (flags ++ nodes).contains true = true :=
        List.contains_iff_mem.mpr (List.mem_append_right _ hnodes)
      have hlength : ((markers.getD id {}).isDone :: flags).length = (id :: σ).length :=
        congrArg Nat.succ hflags
      obtain ⟨flags', hflags', heq⟩ := ih h hlength howner'
      refine ⟨flags', hflags', ?_⟩
      rw [List.cons_append, findName, hcontains, Bool.not_true, Bool.and_false,
        if_neg Bool.false_ne_true]
      exact heq
    | stop id =>
      cases σ with
      | nil => cases h
      | cons top σ =>
        rw [openedAfter] at h
        split at h
        · cases flags with
          | nil => cases hflags
          | cons flag flags =>
            have hne : id ≠ owner := by
              rintro rfl
              exact howner (List.mem_cons_self ..)
            obtain ⟨flags', hflags', heq⟩ := ih h (Nat.succ.inj hflags) howner'
            refine ⟨flags', hflags', ?_⟩
            rw [List.cons_append, findName, if_neg hne]
            exact heq
        · cases h

/-- Nothing among the events `p` is taken for a name of a wanted kind that is looked for around
    them. -/
def Passed (wanted : NodeKind → Bool) (mk : MarkerId → Marker) (p : List Event) : Prop :=
  ∀ (markers : Array Marker) (owner : MarkerId) (rest : List Event) (nodes : List Bool),
    (∀ j, .start j ∈ p → markers.getD j {} = mk j) → .stop owner ∉ p →
    findName markers wanted owner (p ++ rest) nodes = findName markers wanted owner rest nodes

namespace Passed

theorem tokens (ts : List Token) : Passed wanted mk (ts.map .token) :=
  fun _ _ rest nodes _ _ => findName_tokens ts rest nodes

theorem append (hp : Passed wanted mk p) (hq : Passed wanted mk q) : Passed wanted mk (p ++ q) := by
  intro markers owner rest nodes hmk howner
  rw [List.append_assoc, hp _ _ _ _ (fun j hj => hmk j (List.mem_append_left _ hj))
    fun h => howner (List.mem_append_left _ h)]
  exact hq _ _ _ _ (fun j hj => hmk j (List.mem_append_right _ hj))
    fun h => howner (List.mem_append_right _ h)

theorem congr (h : Passed wanted mk p) (hmk : ∀ j, .start j ∈ p → mk' j = mk j) :
    Passed wanted mk' p :=
  fun markers owner rest nodes hmarkers howner =>
    h markers owner rest nodes (fun j hj => (hmarkers j hj).trans (hmk j hj)) howner

theorem of_inside (hm : (mk m).kind.any wanted = false)
    (hinside : ∀ (markers : Array Marker) (owner : MarkerId) (rest : List Event)
      (nodes : List Bool), (∀ j, .start j ∈ .start m :: p → markers.getD j {} = mk j) →
      .stop owner ∉ p → findName markers wanted owner (p ++ rest) ((mk m).isDone :: nodes) =
        findName markers wanted owner rest ((mk m).isDone :: nodes)) :
    Passed wanted mk (.start m :: p ++ [.stop m]) := by
  intro markers owner rest nodes hmk howner
  have hself : markers.getD m {} = mk m := hmk m (by simp)
  have hne : m ≠ owner := by
    rintro rfl
    exact howner (by simp)
  rw [List.cons_append, List.cons_append, findName, hself, hm, Bool.and_false, Bool.false_and,
    if_neg Bool.false_ne_true, List.append_assoc, hinside _ _ _ _ (fun j hj => hmk j (by
      rcases List.mem_cons.mp hj with hj | hj
      · simp [hj]
      · simp [hj])) fun h => howner (by simp [h])]
  rw [List.singleton_append, findName, if_neg hne, List.tail_cons]

/-- What is around events without a name has none either, unless it is one. -/
theorem wrap (hp : Passed wanted mk p) (hm : (mk m).kind.any wanted = false) :
    Passed wanted mk (.start m :: p ++ [.stop m]) :=
  of_inside hm fun _ _ _ _ hmk howner =>
    hp _ _ _ _ (fun j hj => hmk j (List.mem_cons_of_mem _ hj)) howner

theorem leaf (ts : List Token) (hm : (mk m).kind.any wanted = false) :
    Passed wanted mk (leafEvents m ts) := (tokens ts).wrap hm

/-- A finished node hides the names in it. -/
theorem whole (hp : Balanced p) (hdone : (mk m).state = .done)
    (hm : (mk m).kind.any wanted = false) : Passed wanted mk (.start m :: p ++ [.stop m]) := by
  refine of_inside hm fun markers owner rest nodes _ howner => ?_
  have htrue : true ∈ (mk m).isDone :: nodes := by simp [Marker.isDone, hdone]
  obtain ⟨flags, hflags, heq⟩ := @findName_inside markers wanted owner p rest _ [] [] [] (hp []) rfl
    howner htrue
  rw [List.length_eq_zero_iff.mp hflags] at heq
  exact heq

end Passed

/-- Nothing among the events `p` is taken for a name, of whatever kind, that is looked for around
    them. -/
def Nameless (mk : MarkerId → Marker) (p : List Event) : Prop :=
  ∀ wanted : NodeKind → Bool, (∀ kind, wanted kind = true → kind.isName = true) →
    Passed wanted mk p

/-- The marker does not stand for a name. -/
def Marker.IsNoName (m : Marker) : Prop := ∀ kind ∈ m.kind, kind.isName = false

theorem Marker.IsNoName.any_eq_false {m : Marker} (h : m.IsNoName)
    (hwanted : ∀ kind, wanted kind = true → kind.isName = true) : m.kind.any wanted = false := by
  cases hkind : m.kind with
  | none => rfl
  | some kind =>
    rw [Option.any_some, Bool.eq_false_iff]
    intro hw
    have hname := h kind hkind
    rw [hwanted kind hw] at hname
    cases hname

namespace Nameless

theorem tokens (ts : List Token) : Nameless mk (ts.map .token) := fun _ _ => .tokens ts

theorem append (hp : Nameless mk p) (hq : Nameless mk q) : Nameless mk (p ++ q) :=
  fun wanted hwanted => (hp wanted hwanted).append (hq wanted hwanted)

theorem congr (h : Nameless mk p) (hmk : ∀ j, .start j ∈ p → mk' j = mk j) : Nameless mk' p :=
  fun wanted hwanted => (h wanted hwanted).congr hmk

theorem wrap (hp : Nameless mk p) (hm : (mk m).IsNoName) :
    Nameless mk (.start m :: p ++ [.stop m]) :=
  fun wanted hwanted => (hp wanted hwanted).wrap (hm.any_eq_false hwanted)

theorem leaf (ts : List Token) (hm : (mk m).IsNoName) : Nameless mk (leafEvents m ts) :=
  (tokens ts).wrap hm

theorem whole (hp : Balanced p) (hdone : (mk m).state = .done) (hm : (mk m).IsNoName) :
    Nameless mk (.start m :: p ++ [.stop m]) :=
  fun _ hwanted => .whole hp hdone (hm.any_eq_false hwanted)

end Nameless

/-! ### What is found -/

theorem findName_leaf (hdone : (markers.getD j {}).isDone = true)
    (hkind : (markers.getD j {}).kind.any wanted = true) (ts : List Token) (rest : List Event) :
    findName markers wanted owner (leafEvents j ts ++ rest) [] = some j := by
  unfold leafEvents
  rw [List.append_assoc, List.cons_append]
  dsimp only [findName]
  rw [hdone, hkind]
  rfl

theorem findName_stop : findName markers wanted owner [.stop owner] nodes = none := by
  rw [findName, if_pos rfl]

end ScriptAnalysis
