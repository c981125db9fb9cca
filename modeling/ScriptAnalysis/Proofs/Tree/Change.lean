import ScriptAnalysis.Proofs.Tree.Layout

/-!
# Trees that are being built

A tree is `Built` around its open nodes if it is laid out and has tokens as leaves only.  The replay
of a recording changes such a tree in few ways (`SourceTree.Change`): it adds a leaf, joins a token
to the last one, opens a node, or leaves the innermost one.  What these changes keep holds of every
tree.
-/

namespace ScriptAnalysis

namespace SourceTree

variable {t t' : SourceTree} {c p : TreeId} {above : List TreeId}

/-! ### Trees with tokens as leaves -/

/-- A tree that is laid out, with tokens as leaves only. -/
structure Built (t : SourceTree) (path : List TreeId) : Prop where
  laid : t.Laid path
  inner : ∀ q ∈ path, (t.node q).isToken = false
  childless : ∀ id, (t.node id).isToken = true → t.children id = #[]

namespace Built

variable {path : List TreeId}

theorem empty : Built empty [root] := by
  refine ⟨Laid.empty, ?_, ?_⟩
  · intro q hq
    have : q = root := by simpa using hq
    subst this
    rfl
  · intro id hid
    by_cases h : id = 0
    · subst h
      cases hid
    · have : SourceTree.empty.nodes[id]? = none :=
        Array.getElem?_eq_none (Nat.one_le_iff_ne_zero.mpr h)
      simp [node, Array.getD_eq_getD_getElem?, this, TreeNode.isToken] at hid

theorem lt_size (h : Built t path) {q : TreeId} (hq : q ∈ path) : q < t.size := by
  cases path with
  | nil => cases hq
  | cons p above => exact h.laid.lt_size q hq

/-- An open node is not among those without children, so one more child changes none of them. -/
theorem childless_push (h : Built t (p :: above)) (kind : TreeKind) (span : Span) (id : TreeId)
    (hid : ((t.push p kind span).2.node id).isToken = true) :
    (t.push p kind span).2.children id = #[] := by
  have hp : p < t.size := h.laid.2.le
  rw [node_push kind span hp] at hid
  rw [children_push kind span hp]
  by_cases hnew : id = t.size
  · rw [if_pos hnew]
  · rw [if_neg hnew] at hid ⊢
    by_cases hparent : id = p
    · rw [if_pos hparent] at hid
      exact absurd hid (by simpa [TreeNode.isToken] using h.inner p (by simp))
    · rw [if_neg hparent] at hid ⊢
      exact h.childless id hid

theorem isToken_push_of_lt (h : Built t (p :: above)) (kind : TreeKind) (span : Span)
    {id : TreeId} (hid : id < t.size) :
    ((t.push p kind span).2.node id).isToken = (t.node id).isToken := by
  rw [node_push kind span h.laid.2.le, if_neg (Nat.ne_of_lt hid)]
  split
  · next he =>
    subst he
    rfl
  · rfl

theorem push (h : Built t (p :: above)) (kind : TreeKind) (span : Span) :
    Built (t.push p kind span).2 (p :: above) := by
  refine ⟨h.laid.push kind span, ?_, h.childless_push kind span⟩
  intro q hq
  rw [h.isToken_push_of_lt kind span (h.laid.lt_size q hq)]
  exact h.inner q hq

theorem enter (h : Built t (p :: above)) (kind : NodeKind) (span : Span) :
    Built (t.push p (.node kind) span).2 (t.size :: p :: above) := by
  refine ⟨h.laid.enter _ span, ?_, h.childless_push _ span⟩
  intro q hq
  rcases List.mem_cons.mp hq with rfl | hq
  · rw [node_push _ span h.laid.2.le, if_pos rfl]
    rfl
  · rw [h.isToken_push_of_lt _ span (h.laid.lt_size q hq)]
    exact h.inner q hq

theorem leave (h : Built t (c :: p :: above)) : Built t (p :: above) :=
  ⟨h.laid.leave, fun q hq => h.inner q (List.mem_cons_of_mem _ hq), h.childless⟩

theorem modify (h : Built t path) {f : TreeNode → TreeNode}
    (hf : ∀ n, (f n).children = n.children) {id : TreeId} (hid : id < t.size)
    (htoken : (f (t.node id)).isToken = (t.node id).isToken) : Built (t.modify id f) path := by
  have hsame : ∀ j, ((t.modify id f).node j).isToken = (t.node j).isToken := by
    intro j
    rw [node_modify id f hid]
    split
    · next he =>
      subst he
      exact htoken
    · rfl
  refine ⟨h.laid.modify hf id, ?_, ?_⟩
  · intro q hq
    rw [hsame]
    exact h.inner q hq
  · intro j hj
    rw [children_modify hf]
    exact h.childless j (hsame j ▸ hj)

end Built

/-! ### Changes of a tree -/

/-- A token that follows a blank of the same node is joined to it. -/
structure Joins (t : SourceTree) (p : TreeId) (token : Token) (last : TreeId) : Prop where
  blank : token.kind.isBlank = true
  back : (t.children p).back? = some last
  kind : ∃ kind : TokenKind, (t.node last).kind = .token kind ∧ kind.isBlank = true
  stop : (t.node last).span.stop = token.span.start

/-- Joins a token to a leaf. -/
def join (t : SourceTree) (last : TreeId) (token : Token) : SourceTree :=
  t.modify last fun n => { n with span := n.span.cover token.span, kind := .token .whitespace }

/-- Gives a node the span of its children. -/
def coverChildren (t : SourceTree) (id first last : TreeId) : SourceTree :=
  t.modify id fun n => { n with span := ⟨(t.node first).span.start, (t.node last).span.stop⟩ }

/-- What an event of a recording may do to a tree and its open nodes, and the tokens that it
    adds. -/
inductive Change (t : SourceTree) :
    List TreeId → List Token → SourceTree → List TreeId → Prop
  | leaf {p : TreeId} {above : List TreeId} {token : Token} :
      (¬ ∃ last, Joins t p token last) →
      Change t (p :: above) [token] (t.push p (.token token.kind) token.span).2 (p :: above)
  | join {p last : TreeId} {above : List TreeId} {token : Token} :
      Joins t p token last → Change t (p :: above) [token] (t.join last token) (p :: above)
  | enter {p : TreeId} {above : List TreeId} (kind : NodeKind) (offset : Nat) :
      Change t (p :: above) [] (t.push p (.node kind) (.point offset)).2 (t.size :: p :: above)
  | leave {n first last : TreeId} {path : List TreeId} :
      (t.children n)[0]? = some first → (t.children n).back? = some last → path ≠ [] →
      Change t (n :: path) [] (t.coverChildren n first last) path
  | leaveEmpty {n : TreeId} {path : List TreeId} :
      t.children n = #[] → path ≠ [] → Change t (n :: path) [] t path
  | none {path : List TreeId} : Change t path [] t path

theorem Joins.isToken {token : Token} {last : TreeId} (h : Joins t p token last) :
    (t.node last).isToken = true := by
  obtain ⟨kind, hkind, -⟩ := h.kind
  simp [TreeNode.isToken, hkind]

/-- The leaf to which a token is joined was added last. -/
theorem Joins.last_eq {token : Token} {last : TreeId} (h : Joins t p token last)
    (hb : Built t (p :: above)) : last + 1 = t.size :=
  hb.laid.last_eq h.back (hb.childless last h.isToken)

theorem Joins.lt_size {token : Token} {last : TreeId} (h : Joins t p token last)
    (hb : Built t (p :: above)) : last < t.size :=
  Nat.lt_of_succ_le (Nat.le_of_eq (h.last_eq hb))

theorem node_join (token : Token) {last : TreeId} (hlast : last < t.size) (id : TreeId) :
    (t.join last token).node id = if last = id then
      { t.node id with span := (t.node id).span.cover token.span, kind := .token .whitespace }
      else t.node id :=
  node_modify last _ hlast id

theorem size_join (token : Token) (last : TreeId) : (t.join last token).size = t.size :=
  size_modify last _

theorem children_join (token : Token) (last id : TreeId) :
    (t.join last token).children id = t.children id :=
  children_modify (by exact fun _ => rfl) last id

theorem node_coverChildren {n : TreeId} (hn : n < t.size) (first last id : TreeId) :
    (t.coverChildren n first last).node id = if n = id then
      { t.node id with span := ⟨(t.node first).span.start, (t.node last).span.stop⟩ }
      else t.node id :=
  node_modify n _ hn id

theorem size_coverChildren (n first last : TreeId) :
    (t.coverChildren n first last).size = t.size :=
  size_modify n _

theorem children_coverChildren (n first last id : TreeId) :
    (t.coverChildren n first last).children id = t.children id :=
  children_modify (by exact fun _ => rfl) n id

namespace Change

variable {path path' : List TreeId} {tokens : List Token}

theorem built (h : Change t path tokens t' path') (hb : Built t path) : Built t' path' := by
  cases h with
  | leaf _ => exact hb.push _ _
  | @join _ last _ token hj =>
    unfold SourceTree.join
    refine hb.modify ?_ (hj.lt_size hb) ?_
    · exact fun _ => rfl
    · exact hj.isToken.symm
  | enter _ _ => exact hb.enter _ _
  | leave hfirst hlast hpath =>
    obtain ⟨p, above, rfl⟩ := List.exists_cons_of_ne_nil hpath
    unfold coverChildren
    refine hb.leave.modify ?_ (hb.laid.lt_size _ (by simp)) rfl
    exact fun _ => rfl
  | leaveEmpty _ hpath =>
    obtain ⟨p, above, rfl⟩ := List.exists_cons_of_ne_nil hpath
    exact hb.leave
  | none => exact hb

theorem size_le (h : Change t path tokens t' path') : t.size ≤ t'.size := by
  cases h with
  | leaf _ => exact Nat.le_trans (Nat.le_succ _) (Nat.le_of_eq (size_push _ _).symm)
  | join _ => exact Nat.le_of_eq (size_join _ _).symm
  | enter _ _ => exact Nat.le_trans (Nat.le_succ _) (Nat.le_of_eq (size_push _ _).symm)
  | leave _ _ _ => exact Nat.le_of_eq (size_coverChildren _ _ _).symm
  | leaveEmpty _ _ => exact Nat.le_refl _
  | none => exact Nat.le_refl _

/-- A node that is no token stays what it is. -/
theorem kind_eq (h : Change t path tokens t' path') (hb : Built t path) {id : TreeId}
    (hid : id < t.size) (hinner : (t.node id).isToken = false) : t'.kind id = t.kind id := by
  have hpush : ∀ {p : TreeId} (kind : TreeKind) (span : Span), p < t.size →
      (t.push p kind span).2.kind id = t.kind id := by
    intro p kind span hp
    unfold SourceTree.kind
    rw [node_push kind span hp, if_neg (Nat.ne_of_lt hid)]
    split
    · next he => rw [he]
    · rfl
  cases h with
  | leaf _ => exact hpush _ _ (hb.laid.lt_size _ (by simp))
  | join hj =>
    unfold SourceTree.kind
    rw [node_join _ (hj.lt_size hb), if_neg]
    rintro rfl
    rw [hj.isToken] at hinner
    cases hinner
  | enter _ _ => exact hpush _ _ (hb.laid.lt_size _ (by simp))
  | leave _ _ _ =>
    unfold SourceTree.kind
    rw [node_coverChildren (hb.laid.lt_size _ (by simp))]
    split <;> rfl
  | leaveEmpty _ _ => rfl
  | none => rfl

theorem isToken_eq (h : Change t path tokens t' path') (hb : Built t path) {id : TreeId}
    (hid : id < t.size) (hinner : (t.node id).isToken = false) :
    (t'.node id).isToken = false := by
  have hkind : (t'.node id).kind = (t.node id).kind := h.kind_eq hb hid hinner
  rw [← hinner]
  unfold TreeNode.isToken
  rw [hkind]

/-- A node that is not open is never opened again. -/
theorem not_mem (h : Change t path tokens t' path') {id : TreeId} (hid : id < t.size)
    (hnot : id ∉ path) : id ∉ path' := by
  cases h with
  | leaf _ => exact hnot
  | join _ => exact hnot
  | enter _ _ =>
    intro hmem
    rcases List.mem_cons.mp hmem with rfl | hmem
    · exact Nat.lt_irrefl _ hid
    · exact hnot hmem
  | leave _ _ _ => exact fun hmem => hnot (List.mem_cons_of_mem _ hmem)
  | leaveEmpty _ _ => exact fun hmem => hnot (List.mem_cons_of_mem _ hmem)
  | none => exact hnot

end Change

/-- Some changes, one after the other. -/
inductive Changes : SourceTree → List TreeId → List Token → SourceTree → List TreeId → Prop
  | nil {t : SourceTree} {path : List TreeId} : Changes t path [] t path
  | cons {t t' t'' : SourceTree} {path path' path'' : List TreeId} {tokens tokens' : List Token} :
      Change t path tokens t' path' → Changes t' path' tokens' t'' path'' →
      Changes t path (tokens ++ tokens') t'' path''

namespace Changes

variable {path path' : List TreeId} {tokens : List Token}

theorem built (h : Changes t path tokens t' path') (hb : Built t path) : Built t' path' := by
  induction h with
  | nil => exact hb
  | cons hchange _ ih => exact ih (hchange.built hb)

theorem kind_eq (h : Changes t path tokens t' path') (hb : Built t path) {id : TreeId}
    (hid : id < t.size) (hinner : (t.node id).isToken = false) : t'.kind id = t.kind id := by
  induction h with
  | nil => rfl
  | cons hchange _ ih =>
    rw [ih (hchange.built hb) (Nat.lt_of_lt_of_le hid hchange.size_le)
      (hchange.isToken_eq hb hid hinner), hchange.kind_eq hb hid hinner]

end Changes

end SourceTree

end ScriptAnalysis
