import ScriptAnalysis.Proofs.Tree.Leaves

/-!
# Walks through a tree

A pre-order walk through a tree that is laid out visits the ids in their order (`Laid.walk_eq`).
The links of a tree are mutual (`SourceTree.Linked`), and the nodes above a node are known from the
time at which it was added (`SourceTree.Above`), for no change of a tree moves a node or turns it
into another one (`SourceTree.Keeps`).
-/

namespace ScriptAnalysis

namespace SourceTree

variable {t t' : SourceTree} {a b c p : TreeId} {cs chain : List TreeId}

/-- A node and the nodes less than `depth` levels below it, each one before those below it. -/
def walkBelow (t : SourceTree) : Nat → TreeId → List TreeId
  | 0, _ => []
  | depth + 1, id => id :: (t.children id).toList.flatMap (t.walkBelow depth)

/-- All nodes in pre-order. -/
def walk (t : SourceTree) : List TreeId := t.walkBelow t.size root

/-- The nodes that are neither the root nor tokens, in the order of their ids. -/
def innerNodes (t : SourceTree) : List TreeId :=
  (List.range t.size).filter fun id => match t.kind id with
    | .node _ => true
    | _ => false

/-! ### The order of the ids -/

/-- The subtrees of an interval have their ids in it. -/
theorem Runs.ge (h : t.Runs a cs b) : ∀ c ∈ cs, a ≤ c := by
  induction h with
  | nil a => simp
  | cons h₁ _ _ ih =>
    intro c hc
    rcases List.mem_cons.mp hc with rfl | hc
    · exact Nat.le_refl _
    · exact Nat.le_trans (Nat.le_of_lt h₁.le) (ih c hc)

/-- By induction on the interval that the subtrees take. -/
theorem Runs.walkBelow (h : Runs t a cs b) {depth : Nat} (hdepth : b ≤ a + depth) :
    cs.flatMap (t.walkBelow depth) = List.range' a (b - a) := by
  induction h generalizing depth with
  | nil a => simp
  | @cons a b c cs h₁ h₂ ih₁ ih₂ =>
    have hab : a < b := h₁.le
    have hbc : b ≤ c := h₂.le
    obtain ⟨depth, rfl⟩ : ∃ n, depth = n + 1 := by
      refine Nat.exists_eq_succ_of_ne_zero ?_
      rintro rfl
      exact Nat.lt_irrefl a (Nat.lt_of_lt_of_le hab (Nat.le_trans hbc hdepth))
    have hfirst : t.walkBelow (depth + 1) a = List.range' a (b - a) := by
      rw [SourceTree.walkBelow, interval_cons hab, ih₁]
      exact Nat.le_trans hbc (Nat.le_trans hdepth (Nat.le_of_eq (Nat.add_right_comm a depth 1)))
    rw [List.flatMap_cons, hfirst, interval_append (Nat.le_of_lt hab) hbc,
      ih₂ (Nat.le_trans hdepth (Nat.add_le_add_right (Nat.le_of_lt hab) _))]

theorem Laid.walk_eq (h : t.Laid [root]) : t.walk = List.range t.size := by
  have hsize : root < t.size := h.2.le
  obtain ⟨n, hn⟩ : ∃ n, t.size = n + 1 := Nat.exists_eq_succ_of_ne_zero (Nat.ne_of_gt hsize)
  have hdepth : t.size ≤ root + 1 + n := Nat.le_of_eq (hn.trans (Nat.add_comm n 1))
  have hbelow := h.2.walkBelow hdepth
  have hrange : List.range' 0 t.size = root :: List.range' (root + 1) (t.size - (root + 1)) :=
    interval_cons hsize
  rw [List.range_eq_range', hrange, ← hbelow]
  unfold walk
  rw [hn]
  rfl

/-! ### Links -/

/-- Who has a child is its parent. -/
def Linked (t : SourceTree) : Prop := ∀ p c, c ∈ t.children p ↔ t.parent? c = some p

theorem node_of_size_le {id : TreeId} (h : t.size ≤ id) :
    t.node id = ⟨.root, .point 0, none, #[]⟩ := by
  have hnone : t.nodes[id]? = none := Array.getElem?_eq_none h
  simp [node, Array.getD_eq_getD_getElem?, hnone]

theorem Linked.lt_size (h : t.Linked) (hc : c ∈ t.children p) : c < t.size := by
  by_contra hle
  have hparent := (h p c).mp hc
  unfold parent? at hparent
  rw [node_of_size_le (Nat.le_of_not_lt hle)] at hparent
  cases hparent

theorem linked_empty : Linked empty := by
  intro p c
  have hempty : ∀ id, (empty.node id).children = #[] ∧ (empty.node id).parent = none := by
    intro id
    rcases Nat.eq_zero_or_pos id with rfl | hid
    · exact ⟨rfl, rfl⟩
    · rw [node_of_size_le (show empty.size ≤ id from hid)]
      exact ⟨rfl, rfl⟩
  unfold children parent?
  rw [(hempty p).1, (hempty c).2]
  simp

theorem parent?_push (kind : TreeKind) (span : Span) (hp : p < t.size) (id : TreeId) :
    (t.push p kind span).2.parent? id = if id = t.size then some p else t.parent? id := by
  unfold parent?
  rw [node_push kind span hp]
  split
  · rfl
  · split
    · next h => rw [h]
    · rfl

theorem kind_push (kind : TreeKind) (span : Span) (hp : p < t.size) (id : TreeId) :
    (t.push p kind span).2.kind id = if id = t.size then kind else t.kind id := by
  unfold SourceTree.kind
  rw [node_push kind span hp]
  split
  · rfl
  · split
    · next h => rw [h]
    · rfl

theorem Linked.push (h : t.Linked) (kind : TreeKind) (span : Span) (hp : p < t.size) :
    (t.push p kind span).2.Linked := by
  intro q c
  rw [children_push kind span hp, parent?_push kind span hp]
  by_cases hc : c = t.size
  · subst hc
    have hold : ∀ q, t.size ∉ t.children q := fun q hq => Nat.lt_irrefl _ (h.lt_size hq)
    have hself : q = t.size → some p ≠ some q := by
      rintro rfl heq
      exact Nat.ne_of_lt hp (Option.some.inj heq)
    rw [if_pos rfl]
    split
    · next hq => simpa using hself hq
    · split
      · next hq => simp [hq]
      · next hq => simpa [hold q] using Ne.symm hq
  · rw [if_neg hc]
    split
    · next hq =>
      have hnone : t.parent? c ≠ some q := by
        intro hparent
        have hempty : t.children q = #[] := by
          unfold children
          rw [node_of_size_le (Nat.le_of_eq hq.symm)]
        have hmem := (h q c).mpr hparent
        rw [hempty] at hmem
        simp at hmem
      simpa using hnone
    · split
      · next hq =>
        subst hq
        simp [hc, h q c]
      · exact h q c

theorem Linked.congr (h : t.Linked) (hchildren : ∀ id, t'.children id = t.children id)
    (hparent : ∀ id, t'.parent? id = t.parent? id) : t'.Linked := by
  intro p c
  rw [hchildren, hparent]
  exact h p c

/-! ### The nodes above a node -/

/-- The nodes above a node, innermost first, up to the root. -/
inductive Above (t : SourceTree) : TreeId → List TreeId → Prop
  | root : t.parent? root = none → Above t root []
  | child {c p : TreeId} {chain : List TreeId} :
      t.parent? c = some p → p < c → Above t p chain → Above t c (p :: chain)

namespace Above

theorem congr (h : t.Above c chain) (hparent : ∀ id ≤ c, t'.parent? id = t.parent? id) :
    t'.Above c chain := by
  induction h with
  | root hroot => exact .root ((hparent _ (Nat.le_refl _)).trans hroot)
  | child hc hlt _ ih =>
    refine .child ((hparent _ (Nat.le_refl _)).trans hc) hlt (ih ?_)
    exact fun id hid => hparent id (Nat.le_trans hid (Nat.le_of_lt hlt))

theorem length_le (h : t.Above c chain) : chain.length ≤ c := by
  induction h with
  | root _ => exact Nat.le_refl _
  | child _ hlt _ ih => exact Nat.lt_of_le_of_lt ih hlt

theorem chainAbove (h : t.Above c chain) {steps : Nat} (hsteps : chain.length ≤ steps) :
    t.chainAbove steps c = c :: chain := by
  induction h generalizing steps with
  | root hroot =>
    cases steps with
    | zero => rfl
    | succ steps => rw [SourceTree.chainAbove, hroot]
  | child hc _ _ ih =>
    obtain ⟨n, rfl⟩ := Nat.exists_eq_succ_of_ne_zero (Nat.ne_of_gt (Nat.lt_of_lt_of_le
      (Nat.succ_pos _) hsteps))
    rw [SourceTree.chainAbove, hc]
    exact congrArg (_ :: ·) (ih (Nat.le_of_succ_le_succ hsteps))

theorem ancestors (h : t.Above c chain) (hc : c < t.size) : t.ancestors c = c :: chain :=
  h.chainAbove (Nat.le_of_lt (Nat.lt_of_le_of_lt h.length_le hc))

theorem parent?_eq (h : t.Above c chain) : t.parent? c = chain.head? := by
  cases h with
  | root hroot => exact hroot
  | child hc _ _ => exact hc

end Above

/-- The open nodes are above each other. -/
theorem Hangs.above (h : t.Hangs c chain) (hlinked : t.Linked)
    (hroot : t.parent? SourceTree.root = none) :
    t.Above c chain := by
  induction h with
  | root => exact .root hroot
  | child hlast hruns _ ih =>
    refine .child ((hlinked _ _).mp ?_) hruns.le ih
    rw [← Array.mem_toList_iff, hlast]
    simp

/-! ### What a change of a tree keeps -/

variable {path path' : List TreeId} {tokens : List Token}

/-- The leaf has the kind and the span of the token, or the token was joined to other blanks. -/
def Holds (t : SourceTree) (leaf : TreeId) (token : Token) : Prop :=
  (t.node leaf).token? = some token ∨
    (token.kind.isBlank = true ∧ t.kind leaf = .token .whitespace)

/-- The nodes of the first tree are where they were, and hold what they held. -/
structure Keeps (t t' : SourceTree) : Prop where
  size_le : t.size ≤ t'.size
  parent? : ∀ id < t.size, t'.parent? id = t.parent? id
  kind : ∀ id < t.size, (t.node id).isToken = false → t'.kind id = t.kind id
  isToken : ∀ id < t.size, (t'.node id).isToken = (t.node id).isToken
  holds : ∀ id < t.size, ∀ token, t.Holds id token → t'.Holds id token

theorem Keeps.refl : t.Keeps t :=
  ⟨Nat.le_refl _, fun _ _ => rfl, fun _ _ _ => rfl, fun _ _ => rfl, fun _ _ _ h => h⟩

theorem keeps_push (kind : TreeKind) (span : Span) (hp : p < t.size) :
    t.Keeps (t.push p kind span).2 := by
  have hkind : ∀ id < t.size, (t.push p kind span).2.kind id = t.kind id := fun id hid => by
    rw [kind_push kind span hp, if_neg (Nat.ne_of_lt hid)]
  have hspan : ∀ id < t.size, ((t.push p kind span).2.node id).span = (t.node id).span := by
    intro id hid
    rw [node_push kind span hp, if_neg (Nat.ne_of_lt hid)]
    split
    · next h => rw [h]
    · rfl
  refine ⟨?_, ?_, fun id hid _ => hkind id hid, ?_, ?_⟩
  · rw [size_push]
    exact Nat.le_succ _
  · intro id hid
    rw [parent?_push kind span hp, if_neg (Nat.ne_of_lt hid)]
  · intro id hid
    unfold TreeNode.isToken
    rw [show ((t.push p kind span).2.node id).kind = (t.node id).kind from hkind id hid]
  · intro id hid token
    unfold Holds TreeNode.token?
    rw [hkind id hid, hspan id hid,
      show ((t.push p kind span).2.node id).kind = (t.node id).kind from hkind id hid]
    exact fun h => h

theorem Joins.keeps {token : Token} {last : TreeId} (hj : t.Joins p token last)
    (hlast : last < t.size) : t.Keeps (t.join last token) := by
  obtain ⟨kind, hkind, hblank⟩ := hj.kind
  refine ⟨Nat.le_of_eq (size_join token last).symm, ?_, ?_, ?_, ?_⟩
  · intro id _
    unfold SourceTree.parent?
    rw [node_join token hlast]
    split <;> rfl
  · intro id _ hinner
    unfold SourceTree.kind
    rw [node_join token hlast, if_neg]
    rintro rfl
    rw [hj.isToken] at hinner
    cases hinner
  · intro id _
    rw [node_join token hlast]
    split
    · next h =>
      subst h
      exact hj.isToken.symm
    · rfl
  · intro id _ other hother
    unfold Holds SourceTree.kind
    rw [node_join token hlast]
    split
    · next h =>
      subst h
      refine Or.inr ⟨?_, rfl⟩
      rcases hother with hother | ⟨hother, -⟩
      · obtain ⟨hsame, -⟩ := TreeNode.token?_eq_some.mp hother
        rw [hkind] at hsame
        cases hsame
        exact hblank
      · exact hother
    · exact hother

theorem keeps_coverChildren {n first last : TreeId} (hn : n < t.size)
    (hinner : (t.node n).isToken = false) : t.Keeps (t.coverChildren n first last) := by
  refine ⟨Nat.le_of_eq (size_coverChildren n first last).symm, ?_, ?_, ?_, ?_⟩
  · intro id _
    unfold SourceTree.parent?
    rw [node_coverChildren hn]
    split <;> rfl
  · intro id _ _
    unfold SourceTree.kind
    rw [node_coverChildren hn]
    split <;> rfl
  · intro id _
    rw [node_coverChildren hn]
    split <;> rfl
  · intro id _ token htoken
    unfold Holds SourceTree.kind
    rw [node_coverChildren hn]
    split
    · next h =>
      subst h
      rcases htoken with htoken | ⟨hblank, hkind⟩
      · rw [TreeNode.token?_eq_none hinner] at htoken
        cases htoken
      · exact Or.inr ⟨hblank, hkind⟩
    · exact htoken

theorem Change.keeps (h : t.Change path tokens t' path') (hb : t.Built path) : t.Keeps t' := by
  cases h with
  | leaf _ => exact keeps_push _ _ (hb.lt_size (by simp))
  | join hj => exact hj.keeps (hj.lt_size hb)
  | enter _ _ => exact keeps_push _ _ (hb.lt_size (by simp))
  | leave _ _ _ => exact keeps_coverChildren (hb.lt_size (by simp)) (hb.inner _ (by simp))
  | leaveEmpty _ _ => exact .refl
  | none => exact .refl

/-- A tree without new nodes has the old links. -/
theorem Linked.keeps (h : t.Linked) (hk : t.Keeps t') (hsize : t'.size = t.size)
    (hchildren : ∀ id, t'.children id = t.children id) : t'.Linked := by
  refine h.congr hchildren fun id => ?_
  by_cases hid : id < t.size
  · exact hk.parent? id hid
  · unfold SourceTree.parent?
    rw [node_of_size_le (Nat.le_of_not_lt hid), node_of_size_le (hsize ▸ Nat.le_of_not_lt hid)]

theorem Change.linked (h : t.Change path tokens t' path') (hb : t.Built path) (hl : t.Linked) :
    t'.Linked := by
  have hkeeps := h.keeps hb
  cases h with
  | leaf _ => exact hl.push _ _ (hb.lt_size (by simp))
  | join hj => exact hl.keeps hkeeps (size_join _ _) (children_join _ _)
  | enter _ _ => exact hl.push _ _ (hb.lt_size (by simp))
  | leave _ _ _ => exact hl.keeps hkeeps (size_coverChildren _ _ _) (children_coverChildren _ _ _)
  | leaveEmpty _ _ => exact hl
  | none => exact hl

theorem innerNodes_eq (h : t.Keeps t') : t'.innerNodes = t.innerNodes ++
    (List.range' t.size (t'.size - t.size)).filter fun id => match t'.kind id with
      | .node _ => true
      | _ => false := by
  have hrange : List.range t'.size =
      List.range t.size ++ List.range' t.size (t'.size - t.size) := by
    rw [List.range_eq_range', List.range_eq_range']
    exact interval_append (Nat.zero_le t.size) h.size_le
  unfold innerNodes
  rw [hrange, List.filter_append]
  congr 1
  apply List.filter_congr
  intro id hid
  have hid := List.mem_range.mp hid
  cases htoken : (t.node id).isToken with
  | false => rw [h.kind id hid htoken]
  | true =>
    have htoken' := (h.isToken id hid).trans htoken
    unfold TreeNode.isToken at htoken htoken'
    unfold SourceTree.kind
    split at htoken
    · next hkind =>
      split at htoken'
      · next hkind' => rw [hkind, hkind']
      · cases htoken'
    · cases htoken

theorem Above.keeps {chain : List TreeId} (h : t.Above c chain) (hk : t.Keeps t')
    (hc : c < t.size) : t'.Above c chain :=
  h.congr fun id hid => hk.parent? id (Nat.lt_of_le_of_lt hid hc)

end SourceTree

end ScriptAnalysis
