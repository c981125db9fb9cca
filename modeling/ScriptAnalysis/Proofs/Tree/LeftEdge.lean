import ScriptAnalysis.Proofs.Token.Cover
import ScriptAnalysis.Proofs.Tree.Replay

/-!
# The left edge of a tree

The nodes above the first leaf are the nodes that were opened before it, each the first child of the
one before.  As long as none of them was left before that leaf came, all of them start where the
text starts.  `Stem` is the tree before the first leaf, and `LeftEdge` the tree from then on.
-/

namespace ScriptAnalysis

namespace SourceTree

variable {t t' : SourceTree} {p ℓ : TreeId} {above path : List TreeId}

/-- All nodes are open, each the first child of the one before. -/
structure Stem (t : SourceTree) (path : List TreeId) : Prop where
  path : path = (List.range t.size).reverse
  first : ∀ i, i + 1 < t.size → (t.children i)[0]? = some (i + 1)

/-- The node `ℓ` is the first leaf and starts the text, as do the nodes above it that were left. -/
structure LeftEdge (t : SourceTree) (path : List TreeId) (ℓ : TreeId) : Prop where
  lt_size : ℓ < t.size
  isToken : (t.node ℓ).isToken = true
  start : (t.node ℓ).span.start = 0
  first : ∀ i < ℓ, (t.children i)[0]? = some (i + 1)
  left : ∀ i < ℓ, 0 < i → i ∉ path → (t.node i).span.start = 0

namespace Stem

theorem empty : Stem empty [root] :=
  ⟨rfl, fun _ hi => absurd (Nat.lt_of_succ_lt_succ hi) (Nat.not_lt_zero _)⟩

theorem head_eq (h : Stem t (p :: above)) : t.size = p + 1 := by
  have hpath := h.path
  cases hsize : t.size with
  | zero =>
    rw [hsize] at hpath
    cases hpath
  | succ n =>
    rw [hsize, List.range_succ, List.reverse_append] at hpath
    rw [(List.cons.inj hpath).1]

/-- The innermost node has no children yet. -/
theorem childless (h : Stem t (p :: above)) (hl : t.Laid (p :: above)) : t.children p = #[] := by
  have hruns := hl.2
  rw [h.head_eq] at hruns
  exact Array.toList_inj.mp hruns.eq_nil

/-- The first child of a node of the stem, after one more node was added to it. -/
theorem first_push (h : Stem t (p :: above)) (hl : t.Laid (p :: above)) (kind : TreeKind)
    (span : Span) (i : TreeId) (hi : i < t.size) :
    ((t.push p kind span).2.children i)[0]? = some (i + 1) := by
  have hsize := h.head_eq
  rw [children_push kind span hl.2.le, if_neg (Nat.ne_of_lt hi)]
  by_cases hip : i = p
  · rw [if_pos hip, h.childless hl, hip, hsize]
    rfl
  · rw [if_neg hip]
    rw [hsize] at hi
    have hlt : i < p := Nat.lt_of_le_of_ne (Nat.le_of_lt_succ hi) hip
    exact h.first i (by rw [hsize]; exact Nat.succ_lt_succ hlt)

theorem enter (h : Stem t (p :: above)) (hl : t.Laid (p :: above)) (kind : TreeKind)
    (span : Span) : Stem (t.push p kind span).2 (t.size :: p :: above) := by
  refine ⟨?_, fun i hi => ?_⟩
  · rw [size_push, List.range_succ, List.reverse_append, h.path]
    rfl
  · rw [size_push] at hi
    exact h.first_push hl kind span i (Nat.lt_of_succ_lt_succ hi)

/-- The first leaf. -/
theorem leaf (h : Stem t (p :: above)) (hl : t.Laid (p :: above)) {token : Token}
    (hstart : token.span.start = 0) :
    LeftEdge (t.push p (.token token.kind) token.span).2 (p :: above) t.size := by
  have hnew : (t.push p (.token token.kind) token.span).2.node t.size =
      { kind := .token token.kind, span := token.span, parent := some p } := by
    rw [node_push _ _ hl.2.le, if_pos rfl]
  refine ⟨?_, ?_, ?_, h.first_push hl _ _, ?_⟩
  · rw [size_push]
    exact Nat.lt_succ_self _
  · rw [hnew]
    rfl
  · rw [hnew]
    exact hstart
  · intro i hi _ hnot
    rw [h.path] at hnot
    exact absurd (by simpa using hi) hnot

end Stem

namespace LeftEdge

/-- The nodes above the first leaf have children, so they are no leaves. -/
theorem isToken_of_lt (h : LeftEdge t path ℓ) (hb : t.Built path) {i : TreeId} (hi : i < ℓ) :
    (t.node i).isToken = false := by
  cases htoken : (t.node i).isToken with
  | false => rfl
  | true =>
    have hfirst := h.first i hi
    rw [hb.childless i htoken] at hfirst
    cases hfirst

theorem push (h : LeftEdge t (p :: above) ℓ) (hb : t.Built (p :: above)) (kind : TreeKind)
    (span : Span) : LeftEdge (t.push p kind span).2 (p :: above) ℓ := by
  have hp : p < t.size := hb.laid.2.le
  have hnode := fun id => node_push (t := t) kind span hp id
  have hne : ℓ ≠ p := by
    rintro rfl
    have := hb.inner ℓ (by simp)
    rw [h.isToken] at this
    cases this
  have hold : (t.push p kind span).2.node ℓ = t.node ℓ := by
    rw [hnode, if_neg (Nat.ne_of_lt h.lt_size), if_neg hne]
  refine ⟨?_, ?_, ?_, ?_, ?_⟩
  · rw [size_push]
    exact Nat.lt_succ_of_lt h.lt_size
  · rw [hold]
    exact h.isToken
  · rw [hold]
    exact h.start
  · intro i hi
    have hfirst := h.first i hi
    rw [children_push kind span hp, if_neg (Nat.ne_of_lt (Nat.lt_trans hi h.lt_size))]
    split
    · next hip =>
      subst hip
      have hsize : 0 < (t.children i).size := by
        by_contra hzero
        rw [Array.getElem?_eq_none (Nat.le_of_not_lt hzero)] at hfirst
        cases hfirst
      rw [Array.getElem?_push, if_neg (Nat.ne_of_lt hsize)]
      exact hfirst
    · exact hfirst
  · intro i hi hpos hnot
    rw [hnode, if_neg (Nat.ne_of_lt (Nat.lt_trans hi h.lt_size)), if_neg]
    · exact h.left i hi hpos hnot
    · rintro rfl
      exact hnot (by simp)

/-- A node that is opened does not belong to the left edge. -/
theorem enter (h : LeftEdge t path ℓ) (n : TreeId) : LeftEdge t (n :: path) ℓ :=
  ⟨h.lt_size, h.isToken, h.start, h.first, fun i hi hpos hnot =>
    h.left i hi hpos fun hmem => hnot (List.mem_cons_of_mem _ hmem)⟩

/-- A token joined to a leaf does not change where the leaf starts. -/
theorem join (h : LeftEdge t (p :: above) ℓ) (hb : t.Built (p :: above)) {token : Token}
    {last : TreeId} (hj : t.Joins p token last) : LeftEdge (t.join last token) (p :: above) ℓ := by
  have hnode := fun id => node_join token (hj.lt_size hb) id
  refine ⟨by rw [size_join]; exact h.lt_size, ?_, ?_, ?_, ?_⟩
  · rw [hnode]
    split
    · rfl
    · exact h.isToken
  · rw [hnode]
    split
    · simp [Span.cover, h.start]
    · exact h.start
  · intro i hi
    rw [children_join]
    exact h.first i hi
  · intro i hi hpos hnot
    rw [hnode, if_neg]
    · exact h.left i hi hpos hnot
    · rintro rfl
      have := h.isToken_of_lt hb hi
      rw [hj.isToken] at this
      cases this

/-- Where the node after an innermost node of the left edge starts: it was left before, or is the
    first leaf. -/
theorem start_succ {n : TreeId} (h : LeftEdge t (n :: path) ℓ) (hb : t.Built (n :: path))
    (hn : n < ℓ) : (t.node (n + 1)).span.start = 0 := by
  rcases Nat.lt_or_ge (n + 1) ℓ with hnext | hnext
  · refine h.left (n + 1) hnext (Nat.succ_pos n) ?_
    intro hmem
    rcases List.mem_cons.mp hmem with he | hmem
    · exact absurd he (Nat.succ_ne_self n)
    · exact absurd (List.rel_of_pairwise_cons hb.laid.pairwise hmem)
        (Nat.not_lt.mpr (Nat.le_succ n))
  · have he : n + 1 = ℓ := Nat.le_antisymm hn hnext
    rw [he]
    exact h.start

/-- A node of the left edge that is left starts where its first child does. -/
theorem leave {n first : TreeId} (h : LeftEdge t (n :: path) ℓ) (hb : t.Built (n :: path))
    (hfirst : (t.children n)[0]? = some first) (last : TreeId) :
    LeftEdge (t.coverChildren n first last) path ℓ := by
  have hnode := fun id =>
    node_coverChildren (hb.laid.lt_size n (by simp)) first last id
  have hne : n ≠ ℓ := by
    rintro rfl
    have := hb.inner n (by simp)
    rw [h.isToken] at this
    cases this
  refine ⟨by rw [size_coverChildren]; exact h.lt_size, ?_, ?_, ?_, ?_⟩
  · rw [hnode, if_neg hne]
    exact h.isToken
  · rw [hnode, if_neg hne]
    exact h.start
  · intro i hi
    rw [children_coverChildren]
    exact h.first i hi
  · intro i hi hpos hnot
    rw [hnode]
    split
    · next hni =>
      subst hni
      rw [h.first n hi, Option.some.injEq] at hfirst
      rw [← hfirst]
      exact h.start_succ hb hi
    · next hni =>
      refine h.left i hi hpos ?_
      simp [hnot, Ne.symm hni]

/-- A node without children does not belong to the left edge. -/
theorem leaveEmpty {n : TreeId} (h : LeftEdge t (n :: path) ℓ) (hnone : t.children n = #[]) :
    LeftEdge t path ℓ := by
  refine ⟨h.lt_size, h.isToken, h.start, h.first, fun i hi hpos hnot => ?_⟩
  have hni : i ≠ n := by
    rintro rfl
    have hfirst := h.first i hi
    rw [hnone] at hfirst
    cases hfirst
  exact h.left i hi hpos (by simp [hnot, hni])

theorem change {path' : List TreeId} {tokens : List Token} (h : LeftEdge t path ℓ)
    (hb : t.Built path) (hc : t.Change path tokens t' path') : LeftEdge t' path' ℓ := by
  cases hc with
  | leaf _ => exact h.push hb _ _
  | join hj => exact h.join hb hj
  | enter _ _ => exact (h.push hb _ _).enter _
  | leave hfirst _ _ => exact h.leave hb hfirst _
  | leaveEmpty hnone _ => exact h.leaveEmpty hnone
  | none => exact h

theorem changes {path' : List TreeId} {tokens : List Token} (h : LeftEdge t path ℓ)
    (hb : t.Built path) (hc : t.Changes path tokens t' path') : LeftEdge t' path' ℓ := by
  induction hc with
  | nil => exact h
  | cons hchange _ ih => exact ih (h.change hb hchange) (hchange.built hb)

end LeftEdge

end SourceTree

namespace Transcript

variable {t : Transcript} {file : FileId} {ast : Ast} {later events : List Event} {e : Event}
  {a a' : Assembly} {frames frames' : List Frame}

/-- A marker entered has a node if its record says so. -/
def Matches (t : Transcript) (ast : Ast) (frames : List Frame) : Prop :=
  ∀ f ∈ frames, f.node.isSome = (t.marker f.marker).hasTreeNode ast

theorem Step.matches (h : t.Step file ast later e a frames a' frames')
    (hm : t.Matches ast frames) : t.Matches ast frames' := by
  have hcons : ∀ {f : Frame}, f.node.isSome = (t.marker f.marker).hasTreeNode ast →
      t.Matches ast (f :: frames) := by
    intro f hf g hg
    rcases List.mem_cons.mp hg with rfl | hg
    · exact hf
    · exact hm g hg
  cases h with
  | token token => exact hm
  | enter hnode _ => exact hcons hnode.symm
  | pass hnode => exact hcons hnode.symm
  | leave _ => exact fun f hf => hm f (List.mem_cons_of_mem _ hf)
  | drop _ => exact fun f hf => hm f (List.mem_cons_of_mem _ hf)

/-- By induction on the events: before the first token nodes are only opened, and that token makes
    the first leaf. -/
theorem Replays.leftEdge_of_stem (h : t.Replays file ast later events a frames a' frames')
    (hb : a.tree.Built (openNodes frames)) (hs : a.tree.Stem (openNodes frames))
    (hm : t.Matches ast frames)
    (hearly : ∀ id, .stop id ∈ leadIn events → (t.marker id).hasTreeNode ast = false)
    {stop : Nat} (htiles : Tiles 0 (tokensIn events) stop) (hsome : tokensIn events ≠ []) :
    ∃ ℓ, a'.tree.LeftEdge (openNodes frames') ℓ := by
  induction h with
  | nil => exact absurd rfl hsome
  | @cons e events a b c fa fb fc hstep hrest ih =>
    have hb' := hstep.change.built hb
    have hm' := hstep.matches hm
    cases hstep with
    | token token =>
      rw [tokensIn_token] at htiles
      obtain ⟨hstart, -, -⟩ := Tiles.cons_iff.mp htiles
      obtain ⟨above, heq⟩ := openNodes_eq fa
      rw [heq] at hb hs
      rcases a.pushLeaf_tree (currentParent fa) token with ⟨last, hj, -⟩ | ⟨-, htree⟩
      · have hback := hj.back
        rw [hs.childless hb.laid] at hback
        cases hback
      · have hl : (a.pushLeaf (currentParent fa) token).tree.LeftEdge (openNodes fa)
            a.tree.size := by
          rw [htree, heq]
          exact hs.leaf hb.laid hstart
        exact ⟨a.tree.size, hl.changes hb' hrest.changes⟩
    | enter hnode hoffset =>
      refine ih hb' ?_ hm' ?_ htiles hsome
      · obtain ⟨above, heq⟩ := openNodes_eq fa
        rw [openNodes_some rfl, heq]
        rw [heq] at hb hs
        exact hs.enter hb.laid _ _
      · exact fun id hid => hearly id (List.mem_cons_of_mem _ hid)
    | pass hnode =>
      exact ih hb' hs hm' (fun id hid => hearly id (List.mem_cons_of_mem _ hid)) htiles hsome
    | @leave _ frame _ node hnode =>
      have hmatch := hm frame (by simp)
      rw [hearly frame.marker (by simp [leadIn, Event.token?]), hnode] at hmatch
      cases hmatch
    | drop hnode =>
      rw [openNodes_none hnode] at hs
      exact ih hb' hs hm' (fun id hid => hearly id (List.mem_cons_of_mem _ hid)) htiles hsome

end Transcript

end ScriptAnalysis
