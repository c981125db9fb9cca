import ScriptAnalysis.Proofs.Token.Blanks
import ScriptAnalysis.Proofs.Tree.Change

/-!
# The leaves of a tree

The ids of a tree are in the order of the text, so a walk through its leaves meets the tokens in the
order of their ids (`SourceTree.Built.leaves_eq`).  This turns what is said of the text of a tree
into what is said of its arena, which only ever changes at its end: `SourceTree.tokens` are the
tokens of the arena, and a change of the tree adds a token to them or joins one to the last.
-/

namespace ScriptAnalysis

/-- The token of a leaf. -/
def TreeNode.token? (n : TreeNode) : Option Token :=
  match n.kind with
  | .token kind => some ⟨kind, n.span⟩
  | _ => none

theorem TreeNode.token?_eq_some {n : TreeNode} {t : Token} :
    n.token? = some t ↔ n.kind = .token t.kind ∧ n.span = t.span := by
  unfold token?
  constructor
  · intro h
    split at h
    · next hkind =>
      cases h
      exact ⟨hkind, rfl⟩
    · cases h
  · rintro ⟨hkind, hspan⟩
    rw [hkind, hspan]

theorem TreeNode.isSome_token? (n : TreeNode) : n.token?.isSome = n.isToken := by
  unfold token? isToken
  cases n.kind with
  | root => rfl
  | node kind => rfl
  | token kind => rfl

theorem TreeNode.token?_eq_none {n : TreeNode} (h : n.isToken = false) : n.token? = none := by
  rw [← isSome_token?] at h
  exact Option.not_isSome_iff_eq_none.mp (by simp [h])

namespace SourceTree

variable {t t' : SourceTree} {a b c p last : TreeId} {cs above path path' : List TreeId}

/-! ### The order of the leaves -/

theorem interval_cons {a b : Nat} (h : a < b) :
    List.range' a (b - a) = a :: List.range' (a + 1) (b - (a + 1)) := by
  rw [show b - a = b - (a + 1) + 1 by omega, List.range'_succ]

theorem interval_append {a b c : Nat} (hab : a ≤ b) (hbc : b ≤ c) :
    List.range' a (c - a) = List.range' a (b - a) ++ List.range' b (c - b) := by
  have happend := List.range'_append_1 (s := a) (m := b - a) (n := c - b)
  rw [show a + (b - a) = b by omega, show b - a + (c - b) = c - a by omega] at happend
  exact happend.symm

/-- By induction on the interval: the leaves below some nodes are the tokens among the ids that
    their subtrees take. -/
theorem Runs.leavesBelow (h : Runs t a cs b)
    (hchildless : ∀ id, (t.node id).isToken = true → t.children id = #[]) {depth : Nat}
    (hdepth : b ≤ a + depth) :
    cs.flatMap (t.leavesBelow depth) =
      (List.range' a (b - a)).filter fun id => (t.node id).isToken := by
  induction h generalizing depth with
  | nil a => simp
  | @cons a b c cs h₁ h₂ ih₁ ih₂ =>
    have hab : a < b := h₁.le
    have hbc : b ≤ c := h₂.le
    obtain ⟨depth, rfl⟩ : ∃ n, depth = n + 1 := by
      refine Nat.exists_eq_succ_of_ne_zero ?_
      rintro rfl
      exact Nat.lt_irrefl a (Nat.lt_of_lt_of_le hab (Nat.le_trans hbc hdepth))
    have hfirst : t.leavesBelow (depth + 1) a =
        (List.range' a (b - a)).filter fun id => (t.node id).isToken := by
      rw [interval_cons hab]
      unfold SourceTree.leavesBelow
      dsimp only
      by_cases htoken : (t.node a).isToken = true
      · rw [if_pos htoken, List.filter_cons_of_pos (p := fun id => (t.node id).isToken) htoken]
        rw [hchildless a htoken] at h₁
        cases h₁
        simp
      · rw [if_neg htoken, List.filter_cons_of_neg (p := fun id => (t.node id).isToken) htoken]
        refine ih₁ (Nat.le_trans hbc (Nat.le_trans hdepth (Nat.le_of_eq ?_)))
        exact Nat.add_right_comm a depth 1
    rw [List.flatMap_cons, hfirst, interval_append (Nat.le_of_lt hab) hbc, List.filter_append,
      ih₂ (Nat.le_trans hdepth (Nat.add_le_add_right (Nat.le_of_lt hab) _))]

/-- A walk through the leaves meets the tokens in the order of their ids. -/
theorem Built.leaves_eq (h : Built t [root]) :
    t.leaves = (List.range t.size).filter fun id => (t.node id).isToken := by
  have hroot : ¬ (t.node root).isToken = true := by simp [h.inner root (by simp)]
  have hsize : root < t.size := h.laid.2.le
  obtain ⟨n, hn⟩ : ∃ n, t.size = n + 1 := Nat.exists_eq_succ_of_ne_zero (Nat.ne_of_gt hsize)
  have hdepth : t.size ≤ root + 1 + n := Nat.le_of_eq (hn.trans (Nat.add_comm n 1))
  have hbelow := h.laid.2.leavesBelow h.childless hdepth
  have hrange : List.range' 0 t.size = root :: List.range' (root + 1) (t.size - (root + 1)) :=
    interval_cons hsize
  rw [List.range_eq_range', hrange, List.filter_cons_of_neg (p := fun id => (t.node id).isToken)
    hroot, ← hbelow]
  unfold leaves
  rw [hn]
  unfold SourceTree.leavesBelow
  dsimp only
  rw [if_neg hroot]
  rfl

/-! ### The tokens of an arena -/

/-- The tokens of a tree in the order of their ids. -/
def tokens (t : SourceTree) : List Token :=
  (List.range t.size).filterMap fun id => (t.node id).token?

theorem filterMap_range_succ (f : TreeId → Option Token) (n : Nat) :
    (List.range (n + 1)).filterMap f = (List.range n).filterMap f ++ (f n).toList := by
  rw [List.range_succ, List.filterMap_append, List.filterMap_cons]
  cases f n with
  | none => rfl
  | some token => rfl

/-- The leaves are the tokens. -/
theorem Built.leaves_tokens (h : Built t [root]) :
    t.leaves.map (fun id => ((t.node id).kind, (t.node id).span)) =
      t.tokens.map fun token => (.token token.kind, token.span) := by
  rw [h.leaves_eq]
  unfold tokens
  induction List.range t.size with
  | nil => rfl
  | cons id ids ih =>
    have hsome := (t.node id).isSome_token?
    rw [List.filter_cons, List.filterMap_cons]
    cases htoken : (t.node id).token? with
    | none =>
      rw [htoken] at hsome
      rw [if_neg (by simp [← hsome])]
      exact ih
    | some token =>
      obtain ⟨hkind, hspan⟩ := TreeNode.token?_eq_some.mp htoken
      rw [htoken] at hsome
      rw [if_pos (show (t.node id).isToken = true from hsome.symm), List.map_cons, List.map_cons,
        ih, hkind, hspan]

theorem tokens_push (kind : TreeKind) (span : Span) (hp : p < t.size) :
    (t.push p kind span).2.tokens =
      t.tokens ++ (TreeNode.token? { kind, span }).toList := by
  have hold : ∀ id < t.size, ((t.push p kind span).2.node id).token? = (t.node id).token? := by
    intro id hid
    rw [node_push kind span hp, if_neg (Nat.ne_of_lt hid)]
    split
    · next he =>
      subst he
      rfl
    · rfl
  unfold tokens
  rw [size_push, filterMap_range_succ]
  congr 1
  · exact List.filterMap_congr fun id hid => hold id (List.mem_range.mp hid)
  · rw [node_push kind span hp, if_pos rfl]
    rfl

/-- A change that keeps the kind and the span of tokens keeps the tokens. -/
theorem tokens_coverChildren {n : TreeId} (hn : n < t.size) (hinner : (t.node n).isToken = false)
    (first last : TreeId) : (t.coverChildren n first last).tokens = t.tokens := by
  unfold tokens
  rw [size_coverChildren]
  apply List.filterMap_congr
  intro id _
  rw [node_coverChildren hn]
  split
  · next he =>
    subst he
    rw [TreeNode.token?_eq_none hinner]
    exact TreeNode.token?_eq_none hinner
  · rfl

/-- Joining changes the last token. -/
theorem tokens_join (token : Token) {x : Token} (hlast : last + 1 = t.size)
    (hx : (t.node last).token? = some x) :
    ∃ before, t.tokens = before ++ [x] ∧
      (t.join last token).tokens = before ++ [⟨.whitespace, x.span.cover token.span⟩] := by
  have hlt : last < t.size := Nat.lt_of_succ_le (Nat.le_of_eq hlast)
  refine ⟨(List.range last).filterMap fun id => (t.node id).token?, ?_, ?_⟩
  · unfold tokens
    rw [← hlast, filterMap_range_succ, hx]
    rfl
  · unfold tokens
    rw [size_join, ← hlast, filterMap_range_succ]
    congr 1
    · apply List.filterMap_congr
      intro id hid
      rw [node_join _ hlt, if_neg (Nat.ne_of_gt (List.mem_range.mp hid))]
    · rw [node_join _ hlt, if_pos rfl]
      obtain ⟨-, hspan⟩ := TreeNode.token?_eq_some.mp hx
      rw [← hspan]
      rfl

end SourceTree

end ScriptAnalysis
