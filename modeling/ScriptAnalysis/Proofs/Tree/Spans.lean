import ScriptAnalysis.Proofs.Grammar.ScriptRuns
import ScriptAnalysis.Proofs.Tree.Framing
import ScriptAnalysis.Proofs.Workspace.Reachable

/-!
# The spans of a tree

A node spans from its first leaf to its last one, unless a node without children comes after that
leaf: a construct that is missing in the text stands where the next token stands, behind the blanks
and comments before it (`SourceTree.SpansLeaves`).  So do the nodes that end with it, and these are
the only ones that may overlap the node behind.
-/

namespace ScriptAnalysis

/-- Each token ends in front of those that come after it. -/
theorem Tiles.apart {tokens : List Token} {start stop : Nat} (h : Tiles start tokens stop) :
    tokens.Pairwise fun u v => u.span.stop ≤ v.span.start := by
  induction h with
  | nil => exact .nil
  | @cons t ts stop _ hts ih =>
    refine List.pairwise_cons.mpr ⟨fun v hv => ?_, ih⟩
    obtain ⟨us, vs, rfl⟩ := List.append_of_mem hv
    exact hts.start_le.1

namespace SourceTree

variable {t t' : SourceTree} {a b c n p x y : TreeId} {cs above path : List TreeId}
  {later : List Event}

/-! ### Finished trees -/

/-- The finished tree of a framed recording. -/
structure Finished (t : SourceTree) : Prop where
  built : t.Built [root]
  linked : t.Linked
  covers : ∀ n first last, (t.children n)[0]? = some first → (t.children n).back? = some last →
    (t.node n).span = ⟨(t.node first).span.start, (t.node last).span.stop⟩
  point : ∀ n < t.size, (t.node n).isToken = false → t.children n = #[] →
    ∃ o, (t.node n).span = .point o ∧ t.startAfter? n = some o
  first : ∀ n c, (t.children n)[0]? = some c → (t.node c).isToken = true ∨ t.children c ≠ #[]
  filled : ∀ n, t.Filled n

/-- At the end the root gets the span of its children. -/
theorem Finished.of_framing {a : Assembly} (h : a.tree.Framing [root] [])
    (hfilled : ∀ n, a.tree.Filled n) (hroot : a.tree.children root ≠ #[]) :
    (a.closeNode root).tree.Finished := by
  have hsize : root < a.tree.size := h.built.lt_size (by simp)
  have hinner := h.built.inner root (by simp)
  rcases a.closeNode_tree root with ⟨first, last, hfirst, hlast, htree⟩ | ⟨hnone, -⟩
  · have hnode := fun id => node_coverChildren hsize first last id
    have hkeeps : a.tree.Keeps (a.tree.coverChildren root first last) :=
      keeps_coverChildren hsize hinner
    have hchildren := fun id => children_coverChildren (t := a.tree) root first last id
    have hkind : ∀ id, (a.tree.coverChildren root first last).kind id = a.tree.kind id := by
      intro id
      unfold SourceTree.kind
      rw [hnode]
      split <;> rfl
    have htoken : ∀ id, ((a.tree.coverChildren root first last).node id).isToken =
        (a.tree.node id).isToken := by
      intro id
      rw [hnode]
      split <;> rfl
    -- The root is nobody's child.
    have hchild : ∀ n, ∀ c ∈ a.tree.children n, root ≠ c := by
      rintro n c hc rfl
      rw [h.linked, h.root] at hc
      cases hc
    rw [htree]
    refine ⟨?_, h.linked.keeps hkeeps (size_coverChildren _ _ _) hchildren, ?_, ?_, ?_, ?_⟩
    · exact h.built.modify (by exact fun _ => rfl) hsize rfl
    · intro n first' last' hfirst' hlast'
      rw [hchildren] at hfirst' hlast'
      rw [hnode, hnode, hnode, if_neg (hchild n _ (Array.mem_of_getElem? hfirst')),
        if_neg (hchild n _ (Array.mem_of_back? hlast'))]
      by_cases hn : root = n
      · rw [if_pos hn]
        rw [← hn, hfirst, Option.some.injEq] at hfirst'
        rw [← hn, hlast, Option.some.injEq] at hlast'
        rw [hfirst', hlast']
      · rw [if_neg hn]
        exact h.covers n (by simpa using Ne.symm hn) first' last' hfirst' hlast'
    · intro n hn hinner' hnone
      rw [htoken] at hinner'
      rw [hchildren] at hnone
      rw [size_coverChildren] at hn
      have hne : root ≠ n := by
        rintro rfl
        exact hroot hnone
      obtain ⟨o, hspan, ho⟩ := h.point n hn (by simpa using Ne.symm hne) hinner' hnone
      rw [hnode, if_neg hne, startAfter?_coverChildren hsize hinner]
      exact ⟨o, hspan, by simpa [firstOffset] using ho⟩
    · intro n c hc
      rw [hchildren] at hc
      rw [htoken, hchildren]
      rcases h.first n c hc with htok | hne | hopen
      · exact .inl htok
      · exact .inr hne
      · exact absurd (List.mem_singleton.mp hopen).symm (hchild n c (Array.mem_of_getElem? hc))
    · intro n
      unfold Filled
      simp only [hchildren, hkind]
      exact hfilled n
  · exact absurd hnone hroot

/-! ### Leaves and last nodes -/

/-- The leaves under a node in the order of the text; a leaf is under itself. -/
def leavesUnder (t : SourceTree) (n : TreeId) : List TreeId := t.leavesBelow t.size n

/-- Goes down to the last child, at most `depth` times. -/
def lastBelow (t : SourceTree) : Nat → TreeId → TreeId
  | 0, n => n
  | depth + 1, n =>
    match (t.children n).back? with
    | some child => t.lastBelow depth child
    | none => n

/-- The last node under a node in the order of the text. -/
def lastUnder (t : SourceTree) (n : TreeId) : TreeId := t.lastBelow t.size n

/-- A construct that is missing in the text: a node without children. -/
def IsEmptyNode (t : SourceTree) (n : TreeId) : Prop :=
  (t.node n).isToken = false ∧ t.children n = #[]

/-- Where the first leaf after a node stands that is no trivia. -/
def nextStart? (t : SourceTree) (n : TreeId) : Option Nat :=
  (t.leaves.find? fun leaf => decide (n < leaf) && !(t.kind leaf).isTrivia).map fun leaf =>
    (t.node leaf).span.start

/-- Where the nodes of a tree start and end. -/
structure SpansLeaves (t : SourceTree) : Prop where
  /-- A node without children stands where the next leaf starts that is no trivia. -/
  point : ∀ n < t.size, t.IsEmptyNode n →
    ∃ o, t.nextStart? n = some o ∧ (t.node n).span = .point o
  /-- A node starts with its first leaf. -/
  start : ∀ n < t.size, ∀ leaf, (t.leavesUnder n).head? = some leaf →
    (t.node n).span.start = (t.node leaf).span.start
  /-- A node ends with its last leaf, unless a node without children comes after it. -/
  stop : ∀ n < t.size, ∀ leaf, (t.leavesUnder n).getLast? = some leaf →
    (t.lastUnder n = leaf ∧ (t.node n).span.stop = (t.node leaf).span.stop) ∨
    (t.IsEmptyNode (t.lastUnder n) ∧
      t.nextStart? (t.lastUnder n) = some (t.node n).span.stop)
  /-- A node ends in front of the next one, unless that starts with trivia and a node without
      children stands behind these. -/
  siblings : ∀ n i x y, (t.children n)[i]? = some x → (t.children n)[i + 1]? = some y →
    (t.node x).span.stop ≤ (t.node y).span.start ∨
    (t.IsEmptyNode (t.lastUnder x) ∧
      ∃ leaf, (t.leavesUnder y).head? = some leaf ∧ (t.kind leaf).isTrivia = true)

theorem Built.nextStart?_eq (h : t.Built [root]) (n : TreeId) :
    t.nextStart? n = t.startAfter? n := by
  unfold nextStart? startAfter?
  rw [h.leaves_eq, List.find?_filter]
  induction List.range t.size with
  | nil => rfl
  | cons id ids ih =>
    rw [List.find?_cons, List.filterMap_cons]
    by_cases hlt : n < id
    · cases htoken : (t.node id).token? with
      | none =>
        have hinner : (t.node id).isToken = false := by
          rw [← TreeNode.isSome_token?, htoken]
          rfl
        rw [hinner]
        simpa [hlt] using ih
      | some token =>
        obtain ⟨hkind, hspan⟩ := TreeNode.token?_eq_some.mp htoken
        have hleaf : (t.node id).isToken = true := by
          rw [← TreeNode.isSome_token?, htoken]
          rfl
        have htrivia : (t.kind id).isTrivia = token.isTrivia := by
          unfold SourceTree.kind
          rw [hkind]
          rfl
        cases hsig : token.isTrivia with
        | true => simpa [hlt, hleaf, htrivia, hsig, Token.significantOffset?] using ih
        | false =>
          simp [hlt, hleaf, htrivia, hsig, Token.significantOffset?, hspan, Token.offset]
    · simpa [hlt] using ih

theorem Built.nextStart?_eq_some (h : t.Built [root]) {o : Nat} :
    t.nextStart? n = some o ↔ ∃ leaf < t.size, n < leaf ∧ (t.node leaf).isToken = true ∧
      (t.kind leaf).isTrivia = false ∧ (t.node leaf).span.start = o ∧
      ∀ id < leaf, n < id → (t.node id).isToken = true → (t.kind id).isTrivia = true := by
  unfold nextStart?
  rw [h.leaves_eq, List.find?_filter, Option.map_eq_some_iff]
  constructor
  · rintro ⟨leaf, hfind, rfl⟩
    obtain ⟨hleaf, hmem, hall⟩ := List.find?_range_eq_some.mp hfind
    simp only [Bool.and_eq_true, decide_eq_true_eq, Bool.not_eq_true'] at hleaf
    refine ⟨leaf, List.mem_range.mp hmem, hleaf.2.1, hleaf.1, hleaf.2.2, rfl, ?_⟩
    intro id hid hn htoken
    simpa [hn, htoken] using hall id hid
  · rintro ⟨leaf, hlt, hn, htoken, htrivia, rfl, hall⟩
    refine ⟨leaf, List.find?_range_eq_some.mpr ⟨?_, List.mem_range.mpr hlt, ?_⟩, rfl⟩
    · simp [htoken, hn, htrivia]
    · intro id hid
      by_cases hboth : n < id ∧ (t.node id).isToken = true
      · simp [hboth.1, hall id hid hboth.1 hboth.2]
      · rw [not_and_or] at hboth
        rcases hboth with hle | hinner
        · simp [hle]
        · simp [hinner]

/-! ### Subtrees -/

theorem Runs.of_append {ds : List TreeId} (h : t.Runs a (cs ++ ds) b) :
    ∃ m, t.Runs a cs m ∧ t.Runs m ds b := by
  induction cs generalizing a with
  | nil => exact ⟨a, .nil a, h⟩
  | cons c cs ih =>
    cases h with
    | cons h₁ h₂ =>
      obtain ⟨m, hcs, hds⟩ := ih h₂
      exact ⟨m, .cons h₁ hcs, hds⟩

/-- Each node of an interval has an interval of its own in it. -/
theorem Runs.single (h : t.Runs a cs b) (ha : a ≤ n) (hb : n < b) :
    ∃ e ≤ b, t.Runs n [n] e := by
  induction h with
  | nil a => exact absurd hb (Nat.not_lt.mpr ha)
  | @cons a e b cs h₁ h₂ ih₁ ih₂ =>
    rcases Nat.eq_or_lt_of_le ha with rfl | hlt
    · exact ⟨e, h₂.le, .cons h₁ (.nil e)⟩
    · rcases Nat.lt_or_ge n e with hn | hn
      · obtain ⟨e', hle, hruns⟩ := ih₁ hlt hn
        exact ⟨e', Nat.le_trans hle h₂.le, hruns⟩
      · exact ih₂ hn hb

theorem Built.single (h : t.Built [root]) (hn : n < t.size) : ∃ e ≤ t.size, t.Runs n [n] e :=
  Runs.single (.cons h.laid.2 (.nil _)) (Nat.zero_le n) hn

/-- The leaves under a node are the tokens in its interval. -/
theorem Built.leavesUnder_eq (h : t.Built [root]) {e : TreeId} (hruns : t.Runs n [n] e)
    (he : e ≤ t.size) : t.leavesUnder n =
      (List.range' n (e - n)).filter fun id => (t.node id).isToken := by
  have hdepth : e ≤ n + t.size := Nat.le_trans he (Nat.le_add_left _ _)
  have hbelow := hruns.leavesBelow h.childless hdepth
  rwa [List.flatMap_singleton] at hbelow

/-- The first of some nodes starts with their first leaf, by induction on the interval of the
    nodes. -/
theorem Finished.start_eq (hf : t.Finished) (h : t.Runs a cs b) (hne : cs ≠ [])
    (hfirst : (t.node a).isToken = true ∨ t.children a ≠ #[]) :
    ∃ leaf, ((List.range' a (b - a)).filter fun id => (t.node id).isToken).head? = some leaf ∧
      (t.node a).span.start = (t.node leaf).span.start := by
  induction h with
  | nil a => exact absurd rfl hne
  | @cons a e b cs h₁ h₂ ih _ =>
    have hae : a < e := h₁.le
    rw [interval_cons (Nat.lt_of_lt_of_le hae h₂.le)]
    cases htoken : (t.node a).isToken with
    | true =>
      rw [List.filter_cons_of_pos (p := fun id => (t.node id).isToken) htoken]
      exact ⟨a, rfl, rfl⟩
    | false =>
      have hchildren := hfirst.resolve_left (by simp [htoken])
      obtain ⟨c, cs', hcs⟩ :=
        List.exists_cons_of_ne_nil (mt Array.toList_eq_nil_iff.mp hchildren)
      obtain rfl : c = a + 1 := by
        rw [hcs] at h₁
        exact h₁.head_eq
      have hc : (t.children a)[0]? = some (a + 1) := by
        rw [← Array.getElem?_toList, hcs]
        rfl
      obtain ⟨last, hlast⟩ :=
        Option.ne_none_iff_exists'.mp (mt Array.back?_eq_none_iff.mp hchildren)
      obtain ⟨leaf, hleaf, hstart⟩ := ih (by simp [hcs]) (hf.first a _ hc)
      rw [List.filter_cons_of_neg (p := fun id => (t.node id).isToken) (by simp [htoken])]
      refine ⟨leaf, ?_, by rw [hf.covers a _ _ hc hlast, hstart]⟩
      rw [interval_append hae h₂.le, List.filter_append, List.head?_append, hleaf]
      rfl

/-- A node ends with the last node under it, by induction on the depth. -/
theorem Finished.stop_eq (hf : t.Finished) {e : TreeId} (h : t.Runs n [n] e) {depth : Nat}
    (hdepth : e ≤ n + depth) : n ≤ t.lastBelow depth n ∧ t.lastBelow depth n + 1 = e ∧
      t.children (t.lastBelow depth n) = #[] ∧
      (t.node n).span.stop = (t.node (t.lastBelow depth n)).span.stop := by
  have hlt : n < e := by
    cases h with
    | cons h₁ h₂ => exact Nat.lt_of_lt_of_le h₁.le h₂.le
  induction depth generalizing n with
  | zero => exact absurd hlt (Nat.not_lt.mpr hdepth)
  | succ depth ih =>
    unfold lastBelow
    cases hback : (t.children n).back? with
    | none =>
      have hnone := Array.back?_eq_none_iff.mp hback
      exact ⟨Nat.le_refl n, (h.of_childless hnone).symm, hnone, rfl⟩
    | some c =>
      obtain ⟨before, hbefore⟩ : ∃ before, (t.children n).toList = before ++ [c] := by
        rw [← Array.getLast?_toList] at hback
        exact List.getLast?_eq_some_iff.mp hback
      have hruns : t.Runs (n + 1) (before ++ [c]) e := by
        cases h with
        | cons h₁ h₂ =>
          cases h₂
          rwa [hbefore] at h₁
      have hnc : n < c := hruns.ge c (by simp)
      have hce : c < e := by
        obtain ⟨m, -, hc⟩ := hruns.of_append
        cases hc with
        | cons h₁ h₂ => exact Nat.lt_of_lt_of_le h₁.le h₂.le
      obtain ⟨first, hfirst⟩ : ∃ first, (t.children n)[0]? = some first := by
        rw [← Array.getElem?_toList, hbefore]
        cases before <;> exact ⟨_, rfl⟩
      obtain ⟨hle, hlast, hnone, hstop⟩ := ih hruns.last (Nat.le_trans hdepth
        (Nat.le_trans (Nat.le_of_eq (Nat.add_right_comm n depth 1))
          (Nat.add_le_add_right hnc depth)))
        hce
      exact ⟨Nat.le_trans (Nat.le_of_lt hnc) hle, hlast, hnone,
        by rw [hf.covers n first c hfirst hback, hstop]⟩

/-- Leaves do not overlap. -/
theorem leaf_stop_le {stop : Nat} (h : Tiles 0 t.tokens stop) {i j : TreeId} (hij : i < j)
    (hj : j < t.size) (hi : (t.node i).isToken = true) (hj' : (t.node j).isToken = true) :
    (t.node i).span.stop ≤ (t.node j).span.start := by
  have hpairwise := List.pairwise_filterMap.mp h.apart
  rw [← TreeNode.isSome_token?] at hi hj'
  obtain ⟨x, hx⟩ := Option.isSome_iff_exists.mp hi
  obtain ⟨y, hy⟩ := Option.isSome_iff_exists.mp hj'
  have hrange := List.pairwise_iff_getElem.mp hpairwise i j
    (by simpa using Nat.lt_trans hij hj) (by simpa using hj) hij
  rw [(TreeNode.token?_eq_some.mp hx).2, (TreeNode.token?_eq_some.mp hy).2]
  exact hrange x (by simpa using hx) y (by simpa using hy)

/-- A node without children ends in front of the leaf that comes next, unless that is trivia and the
    node stands behind it. -/
theorem Finished.stop_le_next (hf : t.Finished) {stop : Nat} (htiles : Tiles 0 t.tokens stop)
    {leaf : TreeId} (hnone : t.children n = #[]) (hlt : leaf < t.size) (hn : n < leaf)
    (htoken : (t.node leaf).isToken = true)
    (hall : ∀ id < leaf, n < id → (t.node id).isToken = true → (t.kind id).isTrivia = true) :
    (t.node n).span.stop ≤ (t.node leaf).span.start ∨
      t.IsEmptyNode n ∧ (t.kind leaf).isTrivia = true := by
  cases hinner : (t.node n).isToken with
  | true => exact .inl (leaf_stop_le htiles hn hlt hinner htoken)
  | false =>
    cases htrivia : (t.kind leaf).isTrivia with
    | true => exact .inr ⟨⟨hinner, hnone⟩, rfl⟩
    | false =>
      obtain ⟨o, hspan, ho⟩ := hf.point n (Nat.lt_trans hn hlt) hinner hnone
      have hsame := hf.built.nextStart?_eq_some.mpr ⟨leaf, hlt, hn, htoken, htrivia, rfl, hall⟩
      rw [hf.built.nextStart?_eq, ho, Option.some.injEq] at hsame
      rw [hspan, ← hsame]
      exact .inl (Nat.le_refl _)

theorem leavesUnder_of_emptyNode (h : t.IsEmptyNode n) : t.leavesUnder n = [] := by
  have hnone : (t.node n).children = #[] := h.2
  unfold leavesUnder
  cases t.size <;> simp [leavesBelow, h.1, hnone]

/-- Two nodes, one after the other. -/
theorem Runs.adjacent (h : t.Runs a cs b) {i : Nat} (hx : cs[i]? = some x)
    (hy : cs[i + 1]? = some y) : t.Runs x [x] y ∧ ∃ e ≤ b, t.Runs y [y] e := by
  obtain ⟨hi, hxs⟩ := List.getElem?_eq_some_iff.mp hy
  have hsplit : cs = cs.take i ++ x :: y :: cs.drop (i + 2) := by
    obtain ⟨hi', rfl⟩ := List.getElem?_eq_some_iff.mp hx
    rw [← hxs, ← List.drop_eq_getElem_cons hi, ← List.drop_eq_getElem_cons hi',
      List.take_append_drop]
  rw [hsplit] at h
  obtain ⟨m, -, hm⟩ := h.of_append
  cases hm with
  | cons h₁ h₂ =>
    cases h₂ with
    | cons h₃ h₄ => exact ⟨.cons h₁ (.nil _), _, h₄.le, .cons h₃ (.nil _)⟩

/-- Two children of a node, one after the other. -/
theorem Built.adjacent (h : t.Built [root]) {i : Nat} (hx : (t.children n)[i]? = some x)
    (hy : (t.children n)[i + 1]? = some y) :
    t.Runs x [x] y ∧ ∃ e ≤ t.size, t.Runs y [y] e := by
  have hn : n < t.size := by
    by_contra hle
    rw [children_of_size_le (Nat.le_of_not_lt hle)] at hx
    cases hx
  obtain ⟨e, he, hruns⟩ := h.single hn
  rw [← Array.getElem?_toList] at hx hy
  cases hruns with
  | cons h₁ h₂ =>
    cases h₂
    obtain ⟨hxy, e', he', hye⟩ := h₁.adjacent hx hy
    exact ⟨hxy, e', Nat.le_trans he' he, hye⟩

namespace Finished

/-! ### Where a node starts and ends -/

theorem point_next (hf : t.Finished) (hn : n < t.size) (hempty : t.IsEmptyNode n) :
    ∃ o, t.nextStart? n = some o ∧ (t.node n).span = .point o := by
  obtain ⟨o, hspan, ho⟩ := hf.point n hn hempty.1 hempty.2
  exact ⟨o, (hf.built.nextStart?_eq n).trans ho, hspan⟩

theorem start_leaf (hf : t.Finished) (hn : n < t.size) (hempty : ¬ t.IsEmptyNode n) :
    ∃ leaf, (t.leavesUnder n).head? = some leaf ∧
      (t.node n).span.start = (t.node leaf).span.start := by
  obtain ⟨e, he, hruns⟩ := hf.built.single hn
  rw [hf.built.leavesUnder_eq hruns he]
  refine hf.start_eq hruns (by simp) ?_
  rw [IsEmptyNode, not_and_or] at hempty
  exact hempty.imp_left Bool.ne_false_iff.mp

theorem start_of_leaf (hf : t.Finished) (hn : n < t.size) {leaf : TreeId}
    (hleaf : (t.leavesUnder n).head? = some leaf) :
    (t.node n).span.start = (t.node leaf).span.start := by
  by_cases hempty : t.IsEmptyNode n
  · rw [leavesUnder_of_emptyNode hempty] at hleaf
    cases hleaf
  · obtain ⟨leaf', hleaf', heq⟩ := hf.start_leaf hn hempty
    rw [hleaf', Option.some.injEq] at hleaf
    rw [heq, hleaf]

theorem lastUnder_eq (hf : t.Finished) {e : TreeId} (hruns : t.Runs n [n] e)
    (he : e ≤ t.size) : n ≤ t.lastUnder n ∧ t.lastUnder n + 1 = e ∧
      t.children (t.lastUnder n) = #[] ∧
      (t.node n).span.stop = (t.node (t.lastUnder n)).span.stop :=
  hf.stop_eq hruns (Nat.le_trans he (Nat.le_add_left _ n))

/-- The last node under a node is its last leaf, or stands without children behind it. -/
theorem stop_of_leaf (hf : t.Finished) (hn : n < t.size) {leaf : TreeId}
    (hleaf : (t.leavesUnder n).getLast? = some leaf) :
    (t.lastUnder n = leaf ∧ (t.node n).span.stop = (t.node leaf).span.stop) ∨
    (t.IsEmptyNode (t.lastUnder n) ∧
      t.nextStart? (t.lastUnder n) = some (t.node n).span.stop) := by
  obtain ⟨e, he, hruns⟩ := hf.built.single hn
  obtain ⟨hle, rfl, hnone, hstop⟩ := hf.lastUnder_eq hruns he
  cases htoken : (t.node (t.lastUnder n)).isToken with
  | true =>
    rw [hf.built.leavesUnder_eq hruns he, interval_append hle (Nat.le_succ _), List.filter_append,
      interval_cons (Nat.lt_succ_self _), Nat.sub_self,
      List.filter_cons_of_pos (p := fun id => (t.node id).isToken) htoken,
      List.getLast?_append] at hleaf
    obtain rfl := Option.some.inj hleaf
    exact .inl ⟨rfl, hstop⟩
  | false =>
    obtain ⟨o, ho, hspan⟩ := hf.point_next he ⟨htoken, hnone⟩
    rw [hstop, hspan]
    exact .inr ⟨⟨htoken, hnone⟩, ho⟩

/-! ### Siblings -/

/-- A node without children stands behind the node before it. -/
theorem stop_le_empty (hf : t.Finished) {stop : Nat} (htiles : Tiles 0 t.tokens stop)
    (hnone : t.children n = #[]) (hy : n + 1 = y) (hlt : y < t.size) (hempty : t.IsEmptyNode y) :
    (t.node n).span.stop ≤ (t.node y).span.start := by
  obtain ⟨o, ho, hspan⟩ := hf.point_next hlt hempty
  obtain ⟨leaf, hleaf, hyl, htoken, htrivia, rfl, hall⟩ := hf.built.nextStart?_eq_some.mp ho
  rw [hspan]
  have hn : n < leaf := Nat.lt_trans (hy ▸ Nat.lt_succ_self n) hyl
  refine (hf.stop_le_next htiles hnone hleaf hn htoken fun id hid hn htok => ?_).resolve_right
    fun h => ?_
  · rcases Nat.eq_or_lt_of_le (hy ▸ hn : y ≤ id) with rfl | hyid
    · rw [hempty.1] at htok
      cases htok
    · exact hall id hid hyid htok
  · rw [htrivia] at h
    cases h.2

/-- A node with leaves stands behind the node before it, unless that has no children and the leaves
    begin with trivia. -/
theorem stop_le_leaf (hf : t.Finished) {stop : Nat} (htiles : Tiles 0 t.tokens stop)
    (hnone : t.children n = #[]) (hy : n + 1 = y) {e leaf : TreeId} (he : e ≤ t.size)
    (hruns : t.Runs y [y] e) (hleaf : (t.leavesUnder y).head? = some leaf) :
    (t.node n).span.stop ≤ (t.node leaf).span.start ∨
      t.IsEmptyNode n ∧ (t.kind leaf).isTrivia = true := by
  rw [hf.built.leavesUnder_eq hruns he, List.head?_filter, List.find?_range'_eq_some] at hleaf
  obtain ⟨htoken, hmem, hfirst⟩ := hleaf
  obtain ⟨hyl, hle⟩ := List.mem_range'_1.mp hmem
  have hlt : leaf < t.size :=
    Nat.lt_of_lt_of_le hle (Nat.le_trans (Nat.le_of_eq (Nat.add_sub_cancel' hruns.le)) he)
  have hn : n < leaf := Nat.lt_of_lt_of_le (hy ▸ Nat.lt_succ_self n) hyl
  refine hf.stop_le_next htiles hnone hlt hn htoken fun id hid hn htok => ?_
  have hfalse := hfirst id (hy ▸ hn) hid
  rw [htok] at hfalse
  cases hfalse

theorem siblings (hf : t.Finished) {stop : Nat} (htiles : Tiles 0 t.tokens stop) {i : Nat}
    (hx : (t.children n)[i]? = some x) (hy : (t.children n)[i + 1]? = some y) :
    (t.node x).span.stop ≤ (t.node y).span.start ∨
    (t.IsEmptyNode (t.lastUnder x) ∧
      ∃ leaf, (t.leavesUnder y).head? = some leaf ∧ (t.kind leaf).isTrivia = true) := by
  have hlt : y < t.size := hf.linked.lt_size (Array.mem_of_getElem? hy)
  obtain ⟨hxy, e, he, hye⟩ := hf.built.adjacent hx hy
  obtain ⟨-, hlast, hnone, hstop⟩ := hf.lastUnder_eq hxy (Nat.le_of_lt hlt)
  rw [hstop]
  by_cases hempty : t.IsEmptyNode y
  · exact .inl (hf.stop_le_empty htiles hnone hlast hlt hempty)
  · obtain ⟨leaf, hleaf, hstart⟩ := hf.start_leaf hlt hempty
    rw [hstart]
    exact (hf.stop_le_leaf htiles hnone hlast he hye hleaf).imp_right
      fun h => ⟨h.1, leaf, hleaf, h.2⟩

/-- The spans of a finished tree whose leaves stand side by side. -/
theorem spansLeaves (hf : t.Finished) {stop : Nat} (htiles : Tiles 0 t.tokens stop) :
    t.SpansLeaves where
  point _ hn hempty := hf.point_next hn hempty
  start _ hn _ hleaf := hf.start_of_leaf hn hleaf
  stop _ hn _ hleaf := hf.stop_of_leaf hn hleaf
  siblings _ _ _ _ hx hy := hf.siblings htiles hx hy

end Finished

/-! ### Leaves that stand side by side -/

theorem Change.tiles {tokens : List Token} {path' : List TreeId} {mid stop : Nat}
    (h : t.Change path tokens t' path') (hb : t.Built path) (ht : Tiles 0 t.tokens mid)
    (htokens : Tiles mid tokens stop) : Tiles 0 t'.tokens stop := by
  have hother {path'' : List TreeId} {t'' : SourceTree} (h : t.Change path [] t'' path'')
      (hnil : Tiles mid [] stop) : Tiles 0 t''.tokens stop := by
    rw [h.tokens_eq hb, ← Tiles.nil_iff.mp hnil]
    exact ht
  cases h with
  | leaf _ =>
    rw [tokens_push _ _ (hb.lt_size (by simp))]
    exact Tiles.append_iff.mpr ⟨mid, ht, htokens⟩
  | @join p last above token hj =>
    obtain ⟨x, hx, hlast, -⟩ := hb.last_token hj.back hj.isToken
    obtain ⟨before, hold, hnew⟩ := tokens_join token hlast hx
    rw [hold] at ht
    obtain ⟨start, hbefore, hxs⟩ := Tiles.append_iff.mp ht
    obtain ⟨hstart, hle, hmid⟩ := Tiles.cons_iff.mp hxs
    obtain ⟨hstart', hle', hstop⟩ := Tiles.cons_iff.mp htokens
    have hmid := Tiles.nil_iff.mp hmid
    have hstop := Tiles.nil_iff.mp hstop
    have hcover : x.span.cover token.span = ⟨start, stop⟩ := by
      unfold Span.cover
      rw [Nat.min_eq_left (by omega), Nat.max_eq_right (by omega), hstart, hstop]
    rw [hnew, hcover]
    refine Tiles.append_iff.mpr ⟨start, hbefore, Tiles.cons_iff.mpr ⟨rfl, ?_, .nil stop⟩⟩
    dsimp only
    omega
  | enter kind offset => exact hother (.enter kind offset) htokens
  | leave hfirst hlast hpath => exact hother (.leave hfirst hlast hpath) htokens
  | leaveEmpty hnone hpath => exact hother (.leaveEmpty hnone hpath) htokens
  | none => exact hother .none htokens

theorem Changes.tiles {tokens : List Token} {path' : List TreeId} {mid stop : Nat}
    (h : t.Changes path tokens t' path') (hb : t.Built path) (ht : Tiles 0 t.tokens mid)
    (htokens : Tiles mid tokens stop) : Tiles 0 t'.tokens stop := by
  induction h generalizing mid with
  | nil =>
    rw [← Tiles.nil_iff.mp htokens]
    exact ht
  | cons hchange _ ih =>
    obtain ⟨next, htokens, hrest⟩ := Tiles.append_iff.mp htokens
    exact ih (hchange.built hb) (hchange.tiles hb ht htokens) hrest

end SourceTree

/-- The tree of a framed recording, whose tokens stand side by side. -/
theorem Transcript.assemble_finished {t : Transcript} {file : FileId} {ast : Ast} {r : Assembly}
    (hp : Framed t.marker false t.events) (htokens : tokensIn t.events ≠ []) {stop : Nat}
    (htiles : Tiles 0 (tokensIn t.events) stop) (hr : t.assemble file ast = .ok r) :
    r.tree.Finished ∧ Tiles 0 r.tree.tokens stop := by
  obtain ⟨a, hreplays, rfl⟩ := assemble_ok.mp hr
  have hempty : ∀ n, SourceTree.empty.Filled n := by
    intro n hne
    have hn : ¬ SourceTree.empty.size ≤ n := fun hle => hne (SourceTree.children_of_size_le hle)
    obtain rfl : n = 0 := Nat.lt_one_iff.mp (Nat.not_le.mp hn)
    exact absurd rfl hne
  have hstart : Fits {} [] (t.events ++ []) := ⟨.empty _, hempty⟩
  obtain ⟨hfits, hne⟩ := hreplays.fits hp hstart (by simp)
  refine ⟨.of_framing hfits.framing hfits.filled (hne htokens), ?_⟩
  rw [(Assembly.closeNode_tokens hfits.framing.built).2]
  exact hreplays.changes.tiles SourceTree.Built.empty (.nil 0) htiles

/-- A text was parsed, and its tree is finished. -/
structure ParsedText (file : FileId) (text : String) (p : Parse) (assembly : Assembly) : Prop where
  parsed : parseScript text = .ok p
  assembled : p.transcript.assemble file p.ast = .ok assembly
  tokens : tokensIn p.transcript.events = scan text
  records : ∃ m body last, p.transcript.RecordsScript p.root p.ast m body last
  run : ScriptRun text p
  finished : assembly.tree.Finished
  tiles : Tiles 0 assembly.tree.tokens text.utf8ByteSize

theorem Toolchain.parse_finishes (globals : Except GlobalsFault Globals) (file : FileId)
    (text : String) : ∃ p assembly, ({ globals } : Toolchain).parse file text = .ok (p, assembly) ∧
      ParsedText file text p assembly := by
  obtain ⟨p, assembly, hparse, hscript, hassemble, -⟩ := parse_succeeds globals file text
  obtain ⟨p', m, body, last, hscript', htokens, hrecords⟩ :=
    parseWith_script text (scan_endsWithEof text)
  obtain rfl := Except.ok.inj (hscript.symm.trans hscript')
  have hnonempty : tokensIn p.transcript.events ≠ [] := by
    obtain ⟨body, heq, -, -⟩ := scan_eq text
    rw [htokens, heq]
    simp
  have hrun := ScriptRun.of_parse hscript
  obtain ⟨hfinished, htiles⟩ := Transcript.assemble_finished hrun.framed hnonempty
    (htokens ▸ scan_tiles text) hassemble
  exact ⟨p, assembly, hparse, hscript, hassemble, htokens, ⟨m, body, last, hrecords⟩, hrun,
    hfinished, htiles⟩

/-- Every text has a tree whose nodes span their leaves, but for those that end with a construct
    that is missing in the text. -/
theorem Toolchain.parse_spans_leaves (globals : Except GlobalsFault Globals) (file : FileId)
    (text : String) : ∃ p assembly, ({ globals } : Toolchain).parse file text = .ok (p, assembly) ∧
      assembly.tree.SpansLeaves := by
  obtain ⟨p, assembly, hparse, htext⟩ := parse_finishes globals file text
  exact ⟨p, assembly, hparse, htext.finished.spansLeaves htext.tiles⟩

/-- The body of the function is missing, and stands where the next token starts.  So the function
    ends behind its last leaf, and behind the start of the statement after it, which begins with the
    blank between them. -/
theorem Toolchain.missing_body_overlaps : ∃ p assembly,
    ({ globals := .ok .empty } : Toolchain).parse 0 "int f() x" = .ok (p, assembly) ∧
    assembly.tree.kind 2 = .node .funDecl ∧ (assembly.tree.leavesUnder 2).getLast? = some 10 ∧
    (assembly.tree.node 10).span = ⟨6, 7⟩ ∧ (assembly.tree.node 2).span = ⟨0, 8⟩ ∧
    (assembly.tree.children 1)[0]? = some 2 ∧ (assembly.tree.children 1)[1]? = some 12 ∧
    (assembly.tree.node 12).span = ⟨7, 9⟩ := by
  obtain ⟨p, assembly, hparse, -⟩ := parse_succeeds (.ok .empty) 0 "int f() x"
  have hcomputed : (({ globals := .ok .empty } : Toolchain).parse 0 "int f() x").toOption.any
      (fun result => decide (result.2.tree.kind 2 = .node .funDecl ∧
        (result.2.tree.leavesUnder 2).getLast? = some 10 ∧
        (result.2.tree.node 10).span = ⟨6, 7⟩ ∧ (result.2.tree.node 2).span = ⟨0, 8⟩ ∧
        (result.2.tree.children 1)[0]? = some 2 ∧ (result.2.tree.children 1)[1]? = some 12 ∧
        (result.2.tree.node 12).span = ⟨7, 9⟩)) = true := by decide +kernel
  rw [hparse] at hcomputed
  exact ⟨p, assembly, hparse, of_decide_eq_true hcomputed⟩

end ScriptAnalysis
