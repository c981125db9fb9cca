import Mathlib.Data.List.Basic
import ScriptAnalysis.Tree.Basic

/-!
# How a tree lies in its arena

Nodes get their ids in the order in which they are added, and a node is only added as the last child
of a node that is still open.  The ids of a subtree are therefore an interval that starts with its
root (`SourceTree.Runs`), and a tree that is being built is known by its open nodes, innermost first
(`SourceTree.Laid`).  A walk through the leaves goes through the tokens in the order of their ids.
-/

namespace ScriptAnalysis

namespace SourceTree

variable {t t' : SourceTree} {a b c p : TreeId} {cs ds above : List TreeId}

/-! ### Adding and changing nodes -/

theorem node_push (kind : TreeKind) (span : Span) (hp : p < t.size) (id : TreeId) :
    (t.push p kind span).2.node id =
      if id = t.size then { kind, span, parent := some p }
      else if id = p then { t.node p with children := (t.children p).push t.size }
      else t.node id := by
  have hp' : p < t.nodes.size := hp
  simp only [push, node, children, size, Array.getD_eq_getD_getElem?, Array.getElem?_modify,
    Array.getElem?_push]
  by_cases hid : id = t.nodes.size
  · subst hid
    simp [Nat.ne_of_lt hp']
  · by_cases hpid : p = id
    · subst hpid
      simp [hid, hp']
    · simp [hid, hpid, Ne.symm hpid]

theorem size_push (kind : TreeKind) (span : Span) : (t.push p kind span).2.size = t.size + 1 := by
  simp [push, size]

theorem children_push (kind : TreeKind) (span : Span) (hp : p < t.size) (id : TreeId) :
    (t.push p kind span).2.children id =
      if id = t.size then #[]
      else if id = p then (t.children p).push t.size else t.children id := by
  unfold children
  rw [node_push kind span hp]
  split
  · rfl
  · split <;> rfl

theorem node_modify (id : TreeId) (f : TreeNode → TreeNode) (h : id < t.size) (j : TreeId) :
    (t.modify id f).node j = if id = j then f (t.node j) else t.node j := by
  have h' : id < t.nodes.size := h
  simp only [modify, node, Array.getD_eq_getD_getElem?, Array.getElem?_modify]
  by_cases hid : id = j
  · subst hid
    simp [h']
  · simp [hid]

theorem size_modify (id : TreeId) (f : TreeNode → TreeNode) : (t.modify id f).size = t.size := by
  simp [modify, size]

/-- A change that keeps the children of a node keeps those of all nodes. -/
theorem children_modify {f : TreeNode → TreeNode} (hf : ∀ n, (f n).children = n.children)
    (id j : TreeId) : (t.modify id f).children j = t.children j := by
  by_cases h : id < t.size
  · unfold children
    rw [node_modify id f h]
    split
    · rw [hf]
    · rfl
  · have hnone : t.nodes.modify id f = t.nodes := by
      apply Array.ext_getElem?
      intro i
      rw [Array.getElem?_modify]
      split
      · next hi =>
        subst hi
        have : t.nodes[id]? = none := Array.getElem?_eq_none (Nat.le_of_not_lt h)
        simp [this]
      · rfl
    unfold children node modify
    rw [hnone]

/-! ### Subtrees as intervals -/

/-- The subtrees of some nodes, one after the other, take the ids from one to another. -/
inductive Runs (t : SourceTree) : TreeId → List TreeId → TreeId → Prop
  | nil (a : TreeId) : Runs t a [] a
  | cons {a b c : TreeId} {cs : List TreeId} :
      Runs t (a + 1) (t.children a).toList b → Runs t b cs c → Runs t a (a :: cs) c

namespace Runs

theorem le (h : Runs t a cs b) : a ≤ b := by
  induction h with
  | nil => exact Nat.le_refl _
  | cons _ _ ih₁ ih₂ => exact Nat.le_trans (Nat.le_of_lt ih₁) ih₂

theorem append (h : Runs t a cs b) (k : Runs t b ds c) : Runs t a (cs ++ ds) c := by
  induction h with
  | nil => exact k
  | cons h₁ _ _ ih => exact .cons h₁ (ih k)

/-- Only the nodes of the interval matter. -/
theorem congr (h : Runs t a cs b)
    (heq : ∀ i, a ≤ i → i < b → t'.children i = t.children i) : Runs t' a cs b := by
  induction h with
  | nil => exact .nil _
  | @cons a b c cs h₁ h₂ ih₁ ih₂ =>
    have hab : a < b := h₁.le
    refine .cons ?_ (ih₂ fun i hi hic => heq i (Nat.le_trans (Nat.le_of_lt hab) hi) hic)
    rw [heq a (Nat.le_refl _) (Nat.lt_of_lt_of_le hab h₂.le)]
    exact ih₁ fun i hi hib => heq i (Nat.le_of_lt hi) (Nat.lt_of_lt_of_le hib h₂.le)

/-- A last node without children. -/
theorem concat (h : Runs t a cs b) (hb : t.children b = #[]) : Runs t a (cs ++ [b]) (b + 1) := by
  refine h.append (.cons ?_ (.nil _))
  rw [hb]
  exact .nil _

/-- Where the interval is empty there are no nodes. -/
theorem eq_nil (h : Runs t a cs a) : cs = [] := by
  cases h with
  | nil => rfl
  | cons h₁ h₂ => exact absurd (Nat.lt_of_lt_of_le h₁.le h₂.le) (Nat.lt_irrefl _)

/-- The first of the nodes has the first id. -/
theorem head_eq (h : Runs t a (c :: cs) b) : c = a := by
  cases h
  rfl

/-- The subtree of the last node ends where all of them end. -/
theorem last (h : Runs t a (cs ++ [c]) b) : Runs t c [c] b := by
  induction cs generalizing a with
  | nil =>
    have hca := h.head_eq
    subst hca
    exact h
  | cons d ds ih =>
    cases h with
    | cons _ h => exact ih h

theorem of_childless (h : Runs t c [c] b) (hc : t.children c = #[]) : b = c + 1 := by
  cases h with
  | cons h₁ h₂ =>
    rw [hc] at h₁
    cases h₁
    cases h₂
    rfl

end Runs

/-! ### Trees that are being built -/

/-- A node is the last child of the innermost of the nodes above it, which hangs in the tree in the
    same way, up to the root. -/
inductive Hangs (t : SourceTree) : TreeId → List TreeId → Prop
  | root : Hangs t root []
  | child {p c : TreeId} {above before : List TreeId} :
      (t.children p).toList = before ++ [c] → Runs t (p + 1) before c → Hangs t p above →
      Hangs t c (p :: above)

/-- The tree is laid out, and these of its nodes are open, innermost first. -/
def Laid (t : SourceTree) : List TreeId → Prop
  | [] => False
  | p :: above => t.Hangs p above ∧ t.Runs (p + 1) (t.children p).toList t.size

namespace Hangs

/-- The nodes above have smaller ids. -/
theorem lt (h : Hangs t c above) : ∀ q ∈ above, q < c := by
  induction h with
  | root => simp
  | child hlast hruns _ ih =>
    intro q hq
    rcases List.mem_cons.mp hq with rfl | hq
    · exact hruns.le
    · exact Nat.lt_trans (ih q hq) hruns.le

/-- Only the children of nodes before it matter to where a node hangs. -/
theorem congr (h : Hangs t c above) (heq : ∀ i < c, t'.children i = t.children i) :
    Hangs t' c above := by
  induction h with
  | root => exact .root
  | @child p c above before hlast hruns _ ih =>
    have hpc : p < c := hruns.le
    refine .child (by rw [heq p hpc, hlast]) (hruns.congr fun i _ hi => heq i hi) (ih ?_)
    intro i hi
    exact heq i (Nat.lt_trans hi hpc)

end Hangs

namespace Laid

theorem lt_size (h : Laid t (p :: above)) : ∀ q ∈ p :: above, q < t.size := by
  have hp : p < t.size := h.2.le
  intro q hq
  rcases List.mem_cons.mp hq with rfl | hq
  · exact hp
  · exact Nat.lt_trans (h.1.lt q hq) hp

/-- Open nodes have smaller ids the further out they are. -/
theorem pairwise {path : List TreeId} (h : Laid t path) : path.Pairwise (· > ·) := by
  cases path with
  | nil => exact .nil
  | cons p above =>
    have hangs : ∀ {c : TreeId} {above : List TreeId}, Hangs t c above →
        (c :: above).Pairwise (· > ·) := by
      intro c above hc
      induction hc with
      | root => simp
      | child hlast hruns hp ih =>
        exact List.pairwise_cons.mpr ⟨(Hangs.child hlast hruns hp).lt, ih⟩
    exact hangs h.1

theorem empty : Laid empty [root] := ⟨.root, .nil 1⟩

/-- A node without children is added to the innermost open node. -/
theorem push (h : Laid t (p :: above)) (kind : TreeKind) (span : Span) :
    Laid (t.push p kind span).2 (p :: above) := by
  have hp : p < t.size := h.2.le
  have hchildren := fun id => children_push (t := t) kind span hp id
  refine ⟨h.1.congr fun i hi => ?_, ?_⟩
  · rw [hchildren, if_neg (Nat.ne_of_lt (Nat.lt_trans hi hp)), if_neg (Nat.ne_of_lt hi)]
  · rw [size_push, hchildren, if_neg (Nat.ne_of_lt hp), if_pos rfl, Array.toList_push]
    refine (h.2.congr fun i hi hit => ?_).concat (by rw [hchildren, if_pos rfl])
    rw [hchildren, if_neg (Nat.ne_of_lt hit), if_neg (Nat.ne_of_gt hi)]

/-- A node that is added may be opened. -/
theorem enter (h : Laid t (p :: above)) (kind : TreeKind) (span : Span) :
    Laid (t.push p kind span).2 (t.size :: p :: above) := by
  have hp : p < t.size := h.2.le
  have hchildren := fun id => children_push (t := t) kind span hp id
  have hlast : ((t.push p kind span).2.children p).toList = (t.children p).toList ++ [t.size] := by
    rw [hchildren, if_neg (Nat.ne_of_lt hp), if_pos rfl, Array.toList_push]
  refine ⟨.child hlast ?_ (h.1.congr fun i hi => ?_), ?_⟩
  · apply h.2.congr
    intro i hi hit
    rw [hchildren, if_neg (Nat.ne_of_lt hit), if_neg (Nat.ne_of_gt hi)]
  · rw [hchildren, if_neg (Nat.ne_of_lt (Nat.lt_trans hi hp)), if_neg (Nat.ne_of_lt hi)]
  · rw [size_push, hchildren, if_pos rfl]
    exact .nil _

/-- The innermost open node may be left. -/
theorem leave (h : Laid t (c :: p :: above)) : Laid t (p :: above) := by
  obtain ⟨hc, hruns⟩ := h
  cases hc with
  | child hlast hbefore hp =>
    refine ⟨hp, ?_⟩
    rw [hlast]
    exact hbefore.append (.cons hruns (.nil _))

theorem modify {path : List TreeId} (h : Laid t path) {f : TreeNode → TreeNode}
    (hf : ∀ n, (f n).children = n.children) (id : TreeId) : Laid (t.modify id f) path := by
  cases path with
  | nil => exact h
  | cons p above =>
    have hchildren := fun j => children_modify (t := t) hf id j
    refine ⟨h.1.congr fun i _ => hchildren i, ?_⟩
    rw [size_modify, hchildren]
    exact h.2.congr fun i _ _ => hchildren i

/-- If the last child of the innermost open node has no children, no node was added after it. -/
theorem last_eq (h : Laid t (p :: above)) (hlast : (t.children p).back? = some c)
    (hc : t.children c = #[]) : c + 1 = t.size := by
  obtain ⟨before, hbefore⟩ : ∃ before, (t.children p).toList = before ++ [c] := by
    rw [← Array.getLast?_toList] at hlast
    exact List.getLast?_eq_some_iff.mp hlast
  have hruns := h.2
  rw [hbefore] at hruns
  exact (hruns.last.of_childless hc).symm

end Laid

end SourceTree

end ScriptAnalysis
