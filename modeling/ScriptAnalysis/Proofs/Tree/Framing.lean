import ScriptAnalysis.Proofs.Recording.Framed
import ScriptAnalysis.Proofs.Tree.Walk
import ScriptAnalysis.Proofs.Tree.RoundTrip

/-!
# Trees of framed recordings

A construct that is missing in the text becomes a node without children.  Where the recording is
framed (`Framed`), such a node is never the first child, a node never holds nothing but trivia, and
the node stands where the next token stands that is no trivia, since its marker has noted no offset
(`SourceTree.Framing`).  The spans of all other nodes are those of their children
(`SourceTree.Covers`).

Both are kept by every step of a replay, the first one from the start of a marker to its end, so the
induction is on the frames of the recording.
-/

namespace ScriptAnalysis

namespace SourceTree

variable {t t' : SourceTree} {c n p : TreeId} {above path path' : List TreeId} {tokens : List Token}
  {later : List Event}

theorem Runs.of_nil {a b : TreeId} (h : t.Runs a [] b) : a = b := by
  cases h
  rfl

/-! ### What a change keeps of spans and children -/

/-- Children are only added at the end. -/
theorem Change.children_grow (h : t.Change path tokens t' path') (hb : t.Built path) (id : TreeId)
    (hid : id < t.size) : (t.children id).toList <+: (t'.children id).toList := by
  have hpush : ∀ {p : TreeId} (kind : TreeKind) (span : Span), p < t.size →
      (t.children id).toList <+: ((t.push p kind span).2.children id).toList := by
    intro p kind span hp
    rw [children_push kind span hp, if_neg (Nat.ne_of_lt hid)]
    split
    · next heq => simp [heq]
    · exact List.prefix_refl _
  have hsame {u : SourceTree} (heq : u.children id = t.children id) :
      (t.children id).toList <+: (u.children id).toList := heq ▸ List.prefix_refl _
  cases h with
  | leaf _ => exact hpush _ _ (hb.lt_size (by simp))
  | join _ => exact hsame (children_join ..)
  | enter _ _ => exact hpush _ _ (hb.lt_size (by simp))
  | leave _ _ _ => exact hsame (children_coverChildren ..)
  | leaveEmpty _ _ => exact List.prefix_refl _
  | none => exact List.prefix_refl _

theorem Changes.children_grow (h : t.Changes path tokens t' path') (hb : t.Built path)
    (id : TreeId) (hid : id < t.size) : (t.children id).toList <+: (t'.children id).toList := by
  induction h with
  | nil => exact List.prefix_refl _
  | cons hchange _ ih =>
    exact (hchange.children_grow hb id hid).trans
      (ih (hchange.built hb) (Nat.lt_of_lt_of_le hid hchange.size_le))

theorem first_of_grow {xs ys : Array TreeId} (h : xs.toList <+: ys.toList) (hne : xs ≠ #[]) :
    ys[0]? = xs[0]? := by
  obtain ⟨more, hmore⟩ := h
  rw [← Array.getElem?_toList, ← hmore, List.getElem?_append_left, Array.getElem?_toList]
  exact List.length_pos_iff.mpr fun hnil => hne (Array.toList_eq_nil_iff.mp hnil)

theorem children_ne_of_grow (h : (t.children n).toList <+: (t'.children n).toList)
    (hne : t.children n ≠ #[]) : t'.children n ≠ #[] := by
  intro hnil
  rw [hnil] at h
  exact hne (Array.toList_eq_nil_iff.mp (List.prefix_nil.mp h))

/-- Only the node that is left gets another span. -/
theorem Change.span_eq (h : t.Change path tokens t' path') (hb : t.Built path) {id : TreeId}
    (hid : id < t.size) (hinner : (t.node id).isToken = false) (hopen : id ∈ path → id ∈ path') :
    (t'.node id).span = (t.node id).span := by
  have hpush : ∀ {p : TreeId} (kind : TreeKind) (span : Span), p < t.size →
      ((t.push p kind span).2.node id).span = (t.node id).span := by
    intro p kind span hp
    rw [node_push kind span hp, if_neg (Nat.ne_of_lt hid)]
    split
    · next heq => rw [heq]
    · rfl
  cases h with
  | leaf _ => exact hpush _ _ (hb.lt_size (by simp))
  | join hj =>
    rw [node_join _ (hj.lt_size hb), if_neg]
    rintro rfl
    rw [hj.isToken] at hinner
    cases hinner
  | enter _ _ => exact hpush _ _ (hb.lt_size (by simp))
  | leave _ _ _ =>
    rw [node_coverChildren (hb.lt_size (by simp)), if_neg]
    rintro rfl
    have hlt := List.rel_of_pairwise_cons hb.laid.pairwise (hopen (by simp))
    exact Nat.lt_irrefl _ hlt
  | leaveEmpty _ _ => rfl
  | none => rfl

theorem Changes.not_mem (h : t.Changes path tokens t' path') {id : TreeId} (hid : id < t.size)
    (hclosed : id ∉ path) : id ∉ path' := by
  induction h with
  | nil => exact hclosed
  | cons hchange _ ih =>
    exact ih (Nat.lt_of_lt_of_le hid hchange.size_le) (hchange.not_mem hid hclosed)

theorem Changes.parent?_eq (h : t.Changes path tokens t' path') (hb : t.Built path) {id : TreeId}
    (hid : id < t.size) : t'.parent? id = t.parent? id := by
  induction h with
  | nil => rfl
  | cons hchange _ ih =>
    have hk := hchange.keeps hb
    exact (ih (hchange.built hb) (Nat.lt_of_lt_of_le hid hk.size_le)).trans (hk.parent? id hid)

/-- A node that is still open at the end was open all the time. -/
theorem Changes.span_eq (h : t.Changes path tokens t' path') (hb : t.Built path) {id : TreeId}
    (hid : id < t.size) (hinner : (t.node id).isToken = false) (hopen : id ∈ path') :
    (t'.node id).span = (t.node id).span := by
  induction h with
  | nil => rfl
  | @cons t t₁ t' path path₁ path' _ _ hchange hrest ih =>
    have hid₁ := Nat.lt_of_lt_of_le hid hchange.size_le
    have hopen₁ : id ∈ path₁ := by
      by_contra hclosed
      exact hrest.not_mem hid₁ hclosed hopen
    rw [ih (hchange.built hb) hid₁ (hchange.isToken_eq hb hid hinner) hopen,
      hchange.span_eq hb hid hinner fun _ => hopen₁]

/-- The node above an open one is open. -/
theorem Laid.mem_of_child (h : t.Laid path) (hl : t.Linked) (hroot : t.parent? root = Option.none)
    (hc : c ∈ path) (hchild : c ∈ t.children n) : n ∈ path := by
  have hangs : ∀ {p : TreeId} {above : List TreeId}, t.Hangs p above → c ∈ p :: above →
      n ∈ above := by
    intro p above hp
    induction hp with
    | root =>
      intro hc
      rw [List.mem_singleton.mp hc, hl, hroot] at hchild
      cases hchild
    | @child q p above before hlast _ _ ih =>
      intro hc
      rcases List.mem_cons.mp hc with rfl | hc
      · have hmem : c ∈ t.children q := by
          rw [← Array.mem_toList_iff, hlast]
          simp
        rw [hl] at hchild hmem
        rw [hmem] at hchild
        exact (Option.some.inj hchild) ▸ List.mem_cons_self
      · exact List.mem_cons_of_mem _ (ih hc)
  cases path with
  | nil => exact h.elim
  | cons p above => exact List.mem_cons_of_mem _ (hangs h.1 hc)

/-- The children of a node that was left keep their spans. -/
theorem Change.child_span_eq (h : t.Change path tokens t' path') (hb : t.Built path)
    (hl : t.Linked) (hroot : t.parent? root = Option.none) (hn : n ∉ path) (hc : c ∈ t.children n) :
    (t'.node c).span = (t.node c).span := by
  have hlt := hl.lt_size hc
  have hclosed : c ∉ path := fun hmem => hn (hb.laid.mem_of_child hl hroot hmem hc)
  cases hinner : (t.node c).isToken with
  | false => exact h.span_eq hb hlt hinner fun hmem => absurd hmem hclosed
  | true =>
    cases h with
    | leaf _ =>
      rw [node_push _ _ (hb.lt_size (by simp)), if_neg (Nat.ne_of_lt hlt),
        if_neg fun (heq : c = _) => hclosed (heq ▸ List.mem_cons_self)]
    | @join p last above token hj =>
      rw [node_join _ (hj.lt_size hb), if_neg]
      rintro rfl
      have hmem := Array.mem_of_back? hj.back
      rw [hl] at hc hmem
      rw [hmem] at hc
      exact hn (Option.some.inj hc ▸ List.mem_cons_self)
    | enter _ _ =>
      rw [node_push _ _ (hb.lt_size (by simp)), if_neg (Nat.ne_of_lt hlt),
        if_neg fun (heq : c = _) => hclosed (heq ▸ List.mem_cons_self)]
    | leave _ _ _ =>
      rw [node_coverChildren (hb.lt_size (by simp)),
        if_neg fun (heq : _ = c) => hclosed (heq ▸ List.mem_cons_self)]
    | leaveEmpty _ _ => rfl
    | none => rfl

/-- What is no trivia is not joined to anything. -/
theorem Change.significant (h : t.Change path tokens t' path') (hb : t.Built path)
    (hc : c < t.size) (hkind : (t.kind c).isTrivia = false) : (t'.kind c).isTrivia = false := by
  cases hinner : (t.node c).isToken with
  | false => rw [h.kind_eq hb hc hinner, hkind]
  | true =>
    rw [← TreeNode.isSome_token?] at hinner
    obtain ⟨token, htoken⟩ := Option.isSome_iff_exists.mp hinner
    have hold : t.kind c = .token token.kind := (TreeNode.token?_eq_some.mp htoken).1
    rw [hold] at hkind
    rcases (h.keeps hb).holds c hc token (.inl htoken) with hnew | ⟨hblank, -⟩
    · have hnew' : t'.kind c = .token token.kind := (TreeNode.token?_eq_some.mp hnew).1
      rw [hnew']
      exact hkind
    · have htrivia : token.kind.isTrivia = false := hkind
      rw [TokenKind.isTrivia_of_isBlank hblank] at htrivia
      cases htrivia

/-! ### Nodes that cover their children -/

/-- The nodes that were left span from their first child to their last one. -/
def Covers (t : SourceTree) (path : List TreeId) : Prop :=
  ∀ n ∉ path, ∀ first last, (t.children n)[0]? = some first → (t.children n).back? = some last →
    (t.node n).span = ⟨(t.node first).span.start, (t.node last).span.stop⟩

theorem children_of_size_le {id : TreeId} (h : t.size ≤ id) : t.children id = #[] := by
  unfold children
  rw [node_of_size_le h]

/-- Only open nodes get children. -/
theorem Change.children_eq (h : t.Change path tokens t' path') (hb : t.Built path) (hn : n ∉ path) :
    t'.children n = t.children n := by
  have hpush : ∀ {p : TreeId} {above : List TreeId} (kind : TreeKind) (span : Span),
      path = p :: above → (t.push p kind span).2.children n = t.children n := by
    intro p above kind span hpath
    subst hpath
    rw [children_push _ _ (hb.lt_size (by simp)),
      if_neg fun (heq : n = p) => hn (heq ▸ List.mem_cons_self)]
    split
    · next heq => rw [children_of_size_le (Nat.le_of_eq heq.symm)]
    · rfl
  cases h with
  | leaf _ => exact hpush _ _ rfl
  | join _ => exact children_join _ _ _
  | enter _ _ => exact hpush _ _ rfl
  | leave _ _ _ => exact children_coverChildren _ _ _ _
  | leaveEmpty _ _ => rfl
  | none => rfl

theorem Change.covers (h : t.Change path tokens t' path') (hb : t.Built path)
    (hl : t.Linked) (hroot : t.parent? root = Option.none) (hc : t.Covers path) :
    t'.Covers path' := by
  intro n hn first last hfirst hlast
  by_cases hopen : n ∈ path
  · cases h with
    | leaf _ => exact absurd hopen hn
    | join _ => exact absurd hopen hn
    | enter _ _ => exact absurd (List.mem_cons_of_mem _ hopen) hn
    | @leave n' first' last' _ hfirst' hlast' _ =>
      obtain rfl : n = n' := (List.mem_cons.mp hopen).resolve_right hn
      rw [children_coverChildren] at hfirst hlast
      have hne {c : TreeId} (hmem : c ∈ t.children n) : n ≠ c := by
        rintro rfl
        have hself := hb.laid.2.ge _ (by simpa using hmem)
        exact Nat.not_succ_le_self _ hself
      have hnode := node_coverChildren (t := t) (hb.lt_size (by simp) : n < t.size) first' last'
      rw [hnode, hnode, hnode, if_pos rfl, if_neg (hne (Array.mem_of_getElem? hfirst)),
        if_neg (hne (Array.mem_of_back? hlast))]
      rw [hfirst', Option.some.injEq] at hfirst
      rw [hlast', Option.some.injEq] at hlast
      rw [hfirst, hlast]
    | leaveEmpty hnone _ =>
      obtain rfl := (List.mem_cons.mp hopen).resolve_right hn
      rw [hnone] at hfirst
      cases hfirst
    | none => exact absurd hopen hn
  · rw [h.children_eq hb hopen] at hfirst hlast
    have hlt : n < t.size := by
      by_contra hle
      rw [children_of_size_le (Nat.le_of_not_lt hle)] at hfirst
      cases hfirst
    have hinner : (t.node n).isToken = false := by
      by_contra htoken
      rw [hb.childless n (by simpa using htoken)] at hfirst
      cases hfirst
    rw [h.span_eq hb hlt hinner fun hmem => absurd hmem hopen,
      h.child_span_eq hb hl hroot hopen (Array.mem_of_getElem? hfirst),
      h.child_span_eq hb hl hroot hopen (Array.mem_of_back? hlast)]
    exact hc n hopen first last hfirst hlast

/-! ### Nodes without children -/

/-- Where the first token with a greater id stands that is no trivia.  These are the tokens that
    come after a node without children. -/
def startAfter? (t : SourceTree) (n : TreeId) : Option Nat :=
  ((List.range t.size).filterMap fun id =>
    if n < id then (t.node id).token?.bind Token.significantOffset? else Option.none).head?

theorem startAfter?_push (kind : TreeKind) (span : Span) (hp : p < t.size) (hn : n < t.size) :
    (t.push p kind span).2.startAfter? n = (t.startAfter? n).or
      ((TreeNode.token? { kind, span, parent := some p }).bind Token.significantOffset?) := by
  have hold : ∀ id ∈ List.range t.size,
      ((t.push p kind span).2.node id).token? = (t.node id).token? := by
    intro id hid
    rw [node_push kind span hp, if_neg (Nat.ne_of_lt (List.mem_range.mp hid))]
    split
    · next heq =>
      subst heq
      rfl
    · rfl
  unfold startAfter?
  rw [size_push, List.range_succ, List.filterMap_append, List.head?_append]
  congr 1
  · refine congrArg List.head? (List.filterMap_congr fun id hid => ?_)
    rw [hold id hid]
  · rw [List.filterMap_cons, if_pos hn, node_push kind span hp, if_pos rfl]
    cases (TreeNode.token? { kind, span, parent := some p }).bind Token.significantOffset? <;> rfl

theorem significantOffset?_of_blank {token : Token} (h : token.kind.isBlank = true) :
    token.significantOffset? = Option.none := by
  unfold Token.significantOffset? Token.isTrivia
  rw [TokenKind.isTrivia_of_isBlank h, if_pos rfl]

theorem startAfter?_join {token : Token} {last : TreeId} (hj : t.Joins p token last)
    (hlast : last < t.size) : (t.join last token).startAfter? n = t.startAfter? n := by
  unfold startAfter?
  rw [size_join]
  refine congrArg List.head? (List.filterMap_congr fun id _ => ?_)
  rw [node_join token hlast]
  split
  · split
    · next heq =>
      subst heq
      obtain ⟨kind, hkind, hblank⟩ := hj.kind
      have hbefore : (t.node last).token? = some ⟨kind, (t.node last).span⟩ :=
        TreeNode.token?_eq_some.mpr ⟨hkind, rfl⟩
      rw [hbefore]
      have hold : (Token.mk kind (t.node last).span).significantOffset? = Option.none :=
        significantOffset?_of_blank hblank
      have hnew : (Token.mk .whitespace ((t.node last).span.cover token.span)).significantOffset? =
          Option.none := significantOffset?_of_blank rfl
      exact hnew.trans hold.symm
    · rfl
  · rfl

theorem startAfter?_coverChildren {m first last : TreeId} (hm : m < t.size)
    (hinner : (t.node m).isToken = false) :
    (t.coverChildren m first last).startAfter? n = t.startAfter? n := by
  unfold startAfter?
  rw [size_coverChildren]
  refine congrArg List.head? (List.filterMap_congr fun id _ => ?_)
  rw [node_coverChildren hm]
  split
  · split
    · next heq =>
      subst heq
      rw [TreeNode.token?_eq_none hinner]
      exact congrArg (Option.bind · Token.significantOffset?) (TreeNode.token?_eq_none hinner)
    · rfl
  · rfl

/-- What a change adds is the last token of the tree. -/
theorem Change.startAfter?_eq (h : t.Change path tokens t' path') (hb : t.Built path)
    (hn : n < t.size) : t'.startAfter? n =
      (t.startAfter? n).or (tokens.findSome? Token.significantOffset?) := by
  cases h with
  | @leaf p above token _ =>
    rw [startAfter?_push _ _ (hb.lt_size (by simp)) hn, List.findSome?_singleton]
    rfl
  | join hj =>
    rw [startAfter?_join hj (hj.lt_size hb), List.findSome?_singleton,
      significantOffset?_of_blank hj.blank, Option.or_none]
  | enter kind offset =>
    rw [startAfter?_push _ _ (hb.lt_size (by simp)) hn]
    rfl
  | leave _ _ _ =>
    rw [startAfter?_coverChildren (hb.lt_size (by simp)) (hb.inner _ (by simp)), List.findSome?_nil,
      Option.or_none]
  | leaveEmpty _ _ => rw [List.findSome?_nil, Option.or_none]
  | none => rw [List.findSome?_nil, Option.or_none]

/-- Nothing stands after the node that was added last. -/
theorem startAfter?_last (hn : n + 1 = t.size) : t.startAfter? n = Option.none := by
  unfold startAfter?
  rw [List.head?_eq_none_iff, List.filterMap_eq_nil_iff]
  intro id hid
  rw [if_neg]
  exact Nat.not_lt.mpr (Nat.le_of_lt_succ (Nat.lt_of_lt_of_eq (List.mem_range.mp hid) hn.symm))

/-! ### Framed trees -/

/-- The tree so far of a framed recording that has `later` events yet to come. -/
structure Framing (t : SourceTree) (path : List TreeId) (later : List Event) : Prop where
  built : t.Built path
  linked : t.Linked
  root : t.parent? root = Option.none
  covers : t.Covers path
  /-- A node without children stands where the next token stands that is no trivia. -/
  point : ∀ n < t.size, n ∉ path → (t.node n).isToken = false → t.children n = #[] →
    ∃ o, (t.node n).span = .point o ∧ (t.startAfter? n).or (firstOffset later) = some o
  /-- The first child has children of its own if it is no token. -/
  first : ∀ n c, (t.children n)[0]? = some c →
    (t.node c).isToken = true ∨ t.children c ≠ #[] ∨ c ∈ path

/-- If the node has children, one of them is no trivia. -/
def Filled (t : SourceTree) (n : TreeId) : Prop :=
  t.children n ≠ #[] → ∃ c ∈ t.children n, (t.kind c).isTrivia = false

theorem Framing.empty (later : List Event) : empty.Framing [SourceTree.root] later := by
  have hchildren : ∀ n, SourceTree.empty.children n = #[] := by
    intro n
    rcases Nat.eq_zero_or_pos n with rfl | hn
    · rfl
    · exact children_of_size_le hn
  refine ⟨.empty, linked_empty, rfl, ?_, ?_, ?_⟩
  · intro n _ first last hfirst _
    rw [hchildren] at hfirst
    cases hfirst
  · intro n hn hclosed
    exact absurd (List.mem_singleton.mpr (Nat.lt_one_iff.mp hn)) hclosed
  · intro n c hc
    rw [hchildren] at hc
    cases hc

/-- Who has no child before a change gets a leaf or an open node. -/
theorem Change.first_child (h : t.Change path tokens t' path') (hb : t.Built path)
    (hnone : t.children n = #[]) (hc : c ∈ t'.children n) : path.head? = some n ∧
      ((∃ token, tokens = [token] ∧ t'.kind c = .token token.kind) ∨
        ∃ kind, t'.kind c = .node kind ∧ c ∈ path') := by
  have hpush : ∀ {p : TreeId} (kind : TreeKind) (span : Span), p < t.size →
      c ∈ (t.push p kind span).2.children n →
        n = p ∧ c = t.size ∧ (t.push p kind span).2.kind c = kind := by
    intro p kind span hp hmem
    rw [children_push kind span hp] at hmem
    split at hmem
    · simp at hmem
    · split at hmem
      · next heq =>
        subst heq
        rw [hnone] at hmem
        obtain rfl : c = t.size := by simpa using hmem
        exact ⟨rfl, rfl, by rw [kind_push kind span hp, if_pos rfl]⟩
      · rw [hnone] at hmem
        simp at hmem
  cases h with
  | @leaf p above token _ =>
    obtain ⟨rfl, -, hkind⟩ := hpush _ _ (hb.lt_size (by simp)) hc
    exact ⟨rfl, .inl ⟨token, rfl, hkind⟩⟩
  | join _ =>
    rw [children_join, hnone] at hc
    simp at hc
  | enter kind offset =>
    obtain ⟨rfl, rfl, hkind⟩ := hpush _ _ (hb.lt_size (by simp)) hc
    exact ⟨rfl, .inr ⟨kind, hkind, List.mem_cons_self⟩⟩
  | leave _ _ _ =>
    rw [children_coverChildren, hnone] at hc
    simp at hc
  | leaveEmpty _ _ =>
    rw [hnone] at hc
    simp at hc
  | none =>
    rw [hnone] at hc
    simp at hc

/-- A node that is left without children is the last one of the tree. -/
theorem Change.left_last (h : t.Change path tokens t' path') (hb : t.Built path) (hopen : n ∈ path)
    (hclosed : n ∉ path') (hnone : t.children n = #[]) : t' = t ∧ n + 1 = t.size := by
  cases h with
  | leaf _ => exact absurd hopen hclosed
  | join _ => exact absurd hopen hclosed
  | enter _ _ => exact absurd (List.mem_cons_of_mem _ hopen) hclosed
  | leave hfirst _ _ =>
    obtain rfl := (List.mem_cons.mp hopen).resolve_right hclosed
    rw [hnone] at hfirst
    cases hfirst
  | leaveEmpty _ _ =>
    obtain rfl := (List.mem_cons.mp hopen).resolve_right hclosed
    have hruns := hb.laid.2
    rw [hnone] at hruns
    exact ⟨rfl, hruns.of_nil⟩
  | none => exact absurd hopen hclosed

/-- A new node is a leaf or open. -/
theorem Change.new_node (h : t.Change path tokens t' path') (hb : t.Built path) (hle : t.size ≤ n)
    (hn : n < t'.size) : (t'.node n).isToken = true ∨ n ∈ path' := by
  cases h with
  | leaf _ =>
    rw [size_push] at hn
    obtain rfl := Nat.le_antisymm (Nat.le_of_lt_succ hn) hle
    rw [node_push _ _ (hb.lt_size (by simp)), if_pos rfl]
    exact .inl rfl
  | join _ => exact absurd (size_join _ _ ▸ hn) (Nat.not_lt.mpr hle)
  | enter _ _ =>
    rw [size_push] at hn
    exact .inr (Nat.le_antisymm (Nat.le_of_lt_succ hn) hle ▸ List.mem_cons_self)
  | leave _ _ _ => exact absurd (size_coverChildren _ _ _ ▸ hn) (Nat.not_lt.mpr hle)
  | leaveEmpty _ _ => exact absurd hn (Nat.not_lt.mpr hle)
  | none => exact absurd hn (Nat.not_lt.mpr hle)

/-- What is asked of the node that is left, if one is left. -/
theorem Change.framing {later' : List Event} (h : t.Change path tokens t' path')
    (hf : t.Framing path later)
    (hlater : firstOffset later = (tokens.findSome? Token.significantOffset?).or
      (firstOffset later'))
    (hpoint : ∀ n ∈ path, n ∉ path' → t.children n = #[] →
      ∃ o, (t.node n).span = .point o ∧ firstOffset later' = some o)
    (hfirst : ∀ n ∈ path, n ∉ path' → ∀ q, (t.children q)[0]? = some n → t.children n ≠ #[]) :
    t'.Framing path' later' := by
  have hb := hf.built
  have hkeeps := h.keeps hb
  have hchildren {n : TreeId} (hn : n < t.size) : t.children n ≠ #[] → t'.children n ≠ #[] :=
    children_ne_of_grow (h.children_grow hb n hn)
  have hsize {n : TreeId} (hne : t.children n ≠ #[]) : n < t.size := by
    by_contra hle
    exact hne (children_of_size_le (Nat.le_of_not_lt hle))
  refine ⟨h.built hb, h.linked hb hf.linked, ?_, h.covers hb hf.linked hf.root hf.covers, ?_, ?_⟩
  · have hroot : SourceTree.root < t.size := by
      cases path with
      | nil => exact hb.laid.elim
      | cons p above => exact Nat.lt_of_le_of_lt (Nat.zero_le _) (hb.lt_size List.mem_cons_self)
    exact (hkeeps.parent? _ hroot).trans hf.root
  · intro n hn hclosed hinner hnone
    by_cases hlt : n < t.size
    · have hinner' := (hkeeps.isToken n hlt).symm.trans hinner
      have hnone' : t.children n = #[] := by
        by_contra hne
        exact hchildren hlt hne hnone
      by_cases hopen : n ∈ path
      · obtain ⟨o, hspan, ho⟩ := hpoint n hopen hclosed hnone'
        obtain ⟨rfl, hlast⟩ := h.left_last hb hopen hclosed hnone'
        refine ⟨o, hspan, ?_⟩
        rw [startAfter?_last hlast, Option.none_or]
        exact ho
      · obtain ⟨o, hspan, ho⟩ := hf.point n hlt hopen hinner' hnone'
        refine ⟨o, (h.span_eq hb hlt hinner' fun hmem => absurd hmem hopen).trans hspan, ?_⟩
        rw [h.startAfter?_eq hb hlt, Option.or_assoc, ← hlater]
        exact ho
    · rcases h.new_node hb (Nat.le_of_not_lt hlt) hn with htoken | hopen
      · rw [htoken] at hinner
        cases hinner
      · exact absurd hopen hclosed
  · intro n c hc
    by_cases hnone : t.children n = #[]
    · obtain ⟨-, ⟨token, -, hkind⟩ | ⟨kind, -, hmem⟩⟩ :=
        h.first_child hb hnone (Array.mem_of_getElem? hc)
      · left
        unfold TreeNode.isToken
        rw [show (t'.node c).kind = _ from hkind]
      · exact .inr (.inr hmem)
    · have hold : (t.children n)[0]? = some c := by
        rwa [first_of_grow (h.children_grow hb n (hsize hnone)) hnone] at hc
      have hlt := hf.linked.lt_size (Array.mem_of_getElem? hold)
      rcases hf.first n c hold with htoken | hne | hopen
      · exact .inl ((hkeeps.isToken c hlt).trans htoken)
      · exact .inr (.inl (hchildren hlt hne))
      · by_cases hopen' : c ∈ path'
        · exact .inr (.inr hopen')
        · exact .inr (.inl (hchildren hlt (hfirst c hopen hopen' n hold)))

/-- Trivia come first only in the innermost open node. -/
theorem Change.filled (h : t.Change path tokens t' path') (hb : t.Built path) (hl : t.Linked)
    (hn : ∀ token ∈ tokens, token.isTrivia = true → path.head? ≠ some n) (hf : t.Filled n) :
    t'.Filled n := by
  intro hne
  by_cases hnone : t.children n = #[]
  · obtain ⟨c, hc⟩ := Array.exists_mem_of_ne_empty _ hne
    obtain ⟨hhead, ⟨token, rfl, hkind⟩ | ⟨kind, hkind, -⟩⟩ := h.first_child hb hnone hc
    · refine ⟨c, hc, ?_⟩
      cases htrivia : token.isTrivia with
      | false => exact hkind ▸ htrivia
      | true => exact absurd hhead (hn token (by simp) htrivia)
    · exact ⟨c, hc, hkind ▸ rfl⟩
  · obtain ⟨c, hc, hkind⟩ := hf hnone
    have hlt := hl.lt_size hc
    have hle : n < t.size := by
      by_contra hle
      exact hnone (children_of_size_le (Nat.le_of_not_lt hle))
    have hmem := (h.children_grow hb n hle).subset (Array.mem_toList_iff.mpr hc)
    exact ⟨c, Array.mem_toList_iff.mp hmem, h.significant hb hlt hkind⟩

/-- A token that is no trivia is a leaf of its own. -/
theorem Change.filled_head {token : Token} (h : t.Change (p :: above) [token] t' path')
    (hb : t.Built (p :: above)) (htrivia : token.isTrivia = false) :
    t'.children p ≠ #[] ∧ t'.Filled p := by
  have hp : p < t.size := hb.lt_size (by simp)
  cases h with
  | leaf _ =>
    have hmem : t.size ∈ (t.push p (.token token.kind) token.span).2.children p := by
      rw [children_push _ _ hp, if_neg (Nat.ne_of_lt hp), if_pos rfl]
      simp
    refine ⟨Array.ne_empty_of_mem hmem, fun _ => ⟨t.size, hmem, ?_⟩⟩
    rw [kind_push _ _ hp, if_pos rfl]
    exact htrivia
  | join hj =>
    have hkind : token.kind.isTrivia = false := htrivia
    rw [TokenKind.isTrivia_of_isBlank hj.blank] at hkind
    cases hkind

end SourceTree

namespace Transcript

variable {t : Transcript} {file : FileId} {ast : Ast} {later events : List Event} {e : Event}
  {a a' : Assembly} {frames frames' : List Frame} {led : Bool} {p : List Event}

theorem Replays.split {more : List Event}
    (h : t.Replays file ast later (events ++ more) a frames a' frames') :
    ∃ b fb, t.Replays file ast (more ++ later) events a frames b fb ∧
      t.Replays file ast later more b fb a' frames' := by
  induction events generalizing a frames with
  | nil => exact ⟨a, frames, .nil, h⟩
  | cons e events ih =>
    cases h with
    | cons hstep hrest =>
      obtain ⟨b, fb, hevents, hmore⟩ := ih hrest
      exact ⟨b, fb, .cons (List.append_assoc events more later ▸ hstep) hevents, hmore⟩

/-- The events yet to come, after one of them. -/
theorem firstOffset_cons (e : Event) (later : List Event) : firstOffset (e :: later) =
    ((tokensIn [e]).findSome? Token.significantOffset?).or (firstOffset later) := by
  rw [show e :: later = [e] ++ later from rfl, firstOffset_append]
  congr 1
  cases e with
  | token token =>
    rw [tokensIn_token, tokensIn_nil, List.findSome?_singleton]
    exact List.findSome?_singleton
  | start id => rfl
  | stop id => rfl

theorem firstOffset_of_no_tokens (h : tokensIn events = []) : firstOffset events = none := by
  rw [firstOffset_eq_head?, offsetsIn_eq, h]
  rfl

/-- Unless a node is left. -/
theorem Step.framing (h : t.Step file ast later e a frames a' frames')
    (ha : a.tree.Framing (openNodes frames) (e :: later))
    (hopen : ∀ n ∈ openNodes frames, n ∈ openNodes frames') :
    a'.tree.Framing (openNodes frames') later :=
  h.change.framing ha (firstOffset_cons e later) (fun n hn hclosed => absurd (hopen n hn) hclosed)
    fun n hn hclosed => absurd (hopen n hn) hclosed

/-- A token is recorded together with the trivia before it, in the same node. -/
theorem Replays.framing_tokens {blank : List Token} {token : Token}
    (htrivia : token.isTrivia = false)
    (h : t.Replays file ast later ((blank ++ [token]).map .token) a frames a' frames')
    (ha : a.tree.Framing (openNodes frames) ((blank ++ [token]).map .token ++ later))
    (hfilled : ∀ n, n ≠ currentParent frames → a.tree.Filled n) :
    a'.tree.Framing (openNodes frames) later ∧ (∀ n, a'.tree.Filled n) ∧
      a'.tree.children (currentParent frames) ≠ #[] := by
  obtain ⟨above, hopen⟩ := openNodes_eq frames
  have hhead : ∀ n, n ≠ currentParent frames → (openNodes frames).head? ≠ some n := by
    intro n hn hhead
    rw [hopen] at hhead
    exact hn (Option.some.inj hhead).symm
  induction blank generalizing a with
  | nil =>
    cases h with
    | cons hstep hrest =>
      cases hrest
      have hframing := hstep.framing ha
      have hchange := hstep.change
      cases hstep
      obtain ⟨hne, hself⟩ := (hopen ▸ hchange).filled_head (hopen ▸ ha.built) htrivia
      refine ⟨hframing fun _ h => h, fun n => ?_, hne⟩
      by_cases hn : n = currentParent frames
      · exact hn ▸ hself
      · exact hchange.filled ha.built ha.linked (fun _ _ _ => hhead n hn) (hfilled n hn)
  | cons b blank ih =>
    cases h with
    | cons hstep hrest =>
      have hframing := hstep.framing ha
      have hchange := hstep.change
      cases hstep
      refine ih hrest (hframing fun _ h => h) fun n hn => ?_
      exact hchange.filled ha.built ha.linked (fun _ _ _ => hhead n hn) (hfilled n hn)

/-- What holds of the tree after framed events, if it holds before them. -/
structure Fits (a : Assembly) (frames : List Frame) (later : List Event) : Prop where
  framing : a.tree.Framing (openNodes frames) later
  filled : ∀ n, a.tree.Filled n

/-- Unless a node is left. -/
theorem Step.fits (h : t.Step file ast later e a frames a' frames')
    (ha : Fits a frames (e :: later)) (htokens : tokensIn [e] = [])
    (hopen : ∀ n ∈ openNodes frames, n ∈ openNodes frames') : Fits a' frames' later :=
  ⟨h.framing ha.framing hopen, fun n => h.change.filled ha.framing.built ha.framing.linked
    (by simp [htokens]) (ha.filled n)⟩

theorem Step.of_drop {id : MarkerId} {frame : Frame}
    (h : t.Step file ast later (.stop id) a (frame :: frames) a' frames')
    (hnode : frame.node = none) : frames' = frames ∧ a' = a := by
  cases h with
  | leave hnode' =>
    rw [hnode] at hnode'
    cases hnode'
  | drop _ => exact ⟨rfl, rfl⟩

/-- The node of a marker is left.  If it has no children, it was opened where the next token
    stands. -/
theorem Step.fits_leave {m : MarkerId} {offset : Nat} {n : TreeId}
    (h : t.Step file ast later (.stop m) a (⟨m, some n, offset⟩ :: frames) a' frames)
    (ha : Fits a (⟨m, some n, offset⟩ :: frames) (.stop m :: later))
    (hpoint : a.tree.children n = #[] →
      (a.tree.node n).span = .point offset ∧ firstOffset later = some offset)
    (hfirst : ∀ q, (a.tree.children q)[0]? = some n → a.tree.children n ≠ #[]) :
    Fits a' frames later := by
  have hleft : ∀ n' ∈ openNodes (⟨m, some n, offset⟩ :: frames), n' ∉ openNodes frames →
      n' = n := by
    intro n' hmem hclosed
    rw [openNodes_some rfl] at hmem
    exact (List.mem_cons.mp hmem).resolve_right hclosed
  refine ⟨h.change.framing ha.framing (firstOffset_cons _ _) ?_ ?_, fun n => ?_⟩
  · intro n' hmem hclosed hnone
    obtain rfl := hleft n' hmem hclosed
    exact ⟨offset, hpoint hnone⟩
  · intro n' hmem hclosed q hq
    obtain rfl := hleft n' hmem hclosed
    exact hfirst q hq
  · exact h.change.filled ha.framing.built ha.framing.linked (by simp) (ha.filled n)

theorem state_of_hasTreeNode {m : MarkerId} (h : (t.marker m).hasTreeNode ast = true) :
    (t.marker m).state = .done := by
  simp only [Marker.hasTreeNode, Marker.isDone, Bool.and_eq_true, beq_iff_eq] at h
  exact h.1

/-- An open node that has children keeps them. -/
theorem Replays.children_ne (h : t.Replays file ast later p a frames a' frames')
    (hb : a.tree.Built (openNodes frames)) {n : TreeId} (hn : n ∈ openNodes frames)
    (hne : a.tree.children n ≠ #[]) : a'.tree.children n ≠ #[] :=
  SourceTree.children_ne_of_grow (h.changes.children_grow hb n (hb.lt_size hn)) hne

/-! ### Nodes that are opened -/

section

variable {m : MarkerId} {offset : Nat} {kind : NodeKind} {a₁ a₂ : Assembly}

/-- A node that was opened keeps its span and its parent while events in it are done. -/
theorem Replays.node_opened
    (h : t.Replays file ast later p a₁ (⟨m, some a.tree.size, offset⟩ :: frames) a₂
      (⟨m, some a.tree.size, offset⟩ :: frames))
    (hb : a₁.tree.Built (openNodes (⟨m, some a.tree.size, offset⟩ :: frames)))
    (hpush : a₁.tree = (a.tree.push (currentParent frames) (.node kind) (.point offset)).2)
    (hparent : currentParent frames < a.tree.size) :
    (a₂.tree.node a.tree.size).span = .point offset ∧
      a₂.tree.parent? a.tree.size = some (currentParent frames) := by
  have hopen : a.tree.size ∈ openNodes (⟨m, some a.tree.size, offset⟩ :: frames) := by
    rw [openNodes_some rfl]
    exact List.mem_cons_self
  have hnew : a₁.tree.node a.tree.size =
      ⟨.node kind, .point offset, some (currentParent frames), #[]⟩ := by
    rw [hpush, SourceTree.node_push _ _ hparent, if_pos rfl]
  constructor
  · rw [h.changes.span_eq hb (hb.lt_size hopen) (hb.inner _ hopen) hopen, hnew]
  · exact (h.changes.parent?_eq hb (hb.lt_size hopen)).trans (congrArg TreeNode.parent hnew)

/-- It is a child of the node around, behind the children that were there before. -/
theorem Replays.children_around
    (h : t.Replays file ast later p a₁ (⟨m, some a.tree.size, offset⟩ :: frames) a₂
      (⟨m, some a.tree.size, offset⟩ :: frames))
    (hb : a₁.tree.Built (openNodes (⟨m, some a.tree.size, offset⟩ :: frames)))
    (hpush : a₁.tree = (a.tree.push (currentParent frames) (.node kind) (.point offset)).2)
    (hparent : currentParent frames < a.tree.size) :
    (a.tree.children (currentParent frames)).toList ++ [a.tree.size] <+:
      (a₂.tree.children (currentParent frames)).toList := by
  have hchildren : a₁.tree.children (currentParent frames) =
      (a.tree.children (currentParent frames)).push a.tree.size := by
    rw [hpush, SourceTree.children_push _ _ hparent, if_neg (Nat.ne_of_lt hparent), if_pos rfl]
  have hsize : a.tree.size ≤ a₁.tree.size := by
    rw [hpush, SourceTree.size_push]
    exact Nat.le_succ _
  rw [← Array.toList_push, ← hchildren]
  exact h.changes.children_grow hb _ (Nat.lt_of_lt_of_le hparent hsize)

/-- A marker with a node, from its start to its end.  The node around it has children then. -/
theorem Replays.fits_node
    (h : t.Replays file ast (.stop m :: later) p a₁ (⟨m, some a.tree.size, offset⟩ :: frames) a₂
      (⟨m, some a.tree.size, offset⟩ :: frames))
    (hpush : a₁.tree = (a.tree.push (currentParent frames) (.node kind) (.point offset)).2)
    (ha : a.tree.Built (openNodes frames)) (hlinked : a.tree.Linked)
    (hb : a₁.tree.Built (openNodes (⟨m, some a.tree.size, offset⟩ :: frames)))
    (hfits : Fits a₂ (⟨m, some a.tree.size, offset⟩ :: frames) (.stop m :: later))
    (hstop : t.Step file ast later (.stop m) a₂ (⟨m, some a.tree.size, offset⟩ :: frames) a' frames)
    (hpoint : a₂.tree.children a.tree.size = #[] → firstOffset later = some offset)
    (hfirst : a.tree.children (currentParent frames) ≠ #[] ∨ a₂.tree.children a.tree.size ≠ #[]) :
    Fits a' frames later ∧ a'.tree.children (currentParent frames) ≠ #[] := by
  have hlt : currentParent frames < a.tree.size := ha.lt_size (currentParent_mem frames)
  obtain ⟨hspan, hparent⟩ := h.node_opened hb hpush hlt
  have hprefix := h.children_around hb hpush hlt
  have hlt₂ : currentParent frames < a₂.tree.size :=
    hfits.framing.built.lt_size (List.mem_cons_of_mem _ (currentParent_mem frames))
  constructor
  · refine hstop.fits_leave hfits (fun hnone => ⟨hspan, hpoint hnone⟩) fun q hq => ?_
    have hmem := (hfits.framing.linked q _).mp (Array.mem_of_getElem? hq)
    obtain rfl := Option.some.inj (hmem.symm.trans hparent)
    rcases hfirst with hbefore | hin
    · -- The node around had children before, so this one is not the first.
      rw [SourceTree.first_of_grow ((List.prefix_append _ _).trans hprefix) hbefore] at hq
      exact absurd (hlinked.lt_size (Array.mem_of_getElem? hq)) (Nat.lt_irrefl _)
    · exact hin
  · refine SourceTree.children_ne_of_grow (hstop.change.children_grow hfits.framing.built _ hlt₂) ?_
    intro hnil
    rw [hnil] at hprefix
    simpa using List.prefix_nil.mp hprefix

end

/-- By induction on the frames.  Where there are tokens in front, the node around already has
    children. -/
theorem Replays.fits (hp : Framed t.marker led p)
    (h : t.Replays file ast later p a frames a' frames') (ha : Fits a frames (p ++ later))
    (hled : led = true → a.tree.children (currentParent frames) ≠ #[]) :
    Fits a' frames later ∧
      (tokensIn p ≠ [] → a'.tree.children (currentParent frames) ≠ #[]) := by
  induction hp generalizing later a frames a' frames' with
  | nil =>
    cases h
    exact ⟨ha, fun hne => absurd rfl hne⟩
  | tokens hblank htrivia =>
    obtain ⟨hframing, hfilled, hne⟩ :=
      h.framing_tokens htrivia ha.framing fun n _ => ha.filled n
    exact ⟨⟨hframing, hfilled⟩, fun _ => hne⟩
  | @append led led' p q hp hq hlead ihp ihq =>
    obtain ⟨b, fb, hreplay, hreplay'⟩ := h.split
    obtain rfl := hreplay.frames_of_balanced hp.balanced
    rw [List.append_assoc] at ha
    obtain ⟨hfits, htokens⟩ := ihp hreplay ha hled
    have hled' (h : led' = true) : b.tree.children (currentParent fb) ≠ #[] := by
      rcases hlead h with hled' | hne
      · exact hreplay.children_ne ha.framing.built (currentParent_mem fb) (hled hled')
      · exact htokens hne
    obtain ⟨hfits', htokens'⟩ := ihq hreplay' hfits hled'
    refine ⟨hfits', fun hne => ?_⟩
    rw [tokensIn_append] at hne
    by_cases hnil : tokensIn p = []
    · exact htokens' (by simpa [hnil] using hne)
    · exact hreplay'.children_ne hfits.framing.built (currentParent_mem fb) (htokens hnil)
  | @wrap led p m hp hdone hoffset ih =>
    cases h with
    | @cons _ _ _ a₁ _ _ frames₁ _ hstart hrest =>
      obtain ⟨a₂, frames₂, hbody, hstop⟩ := hrest.split
      obtain rfl := hbody.frames_of_balanced hp.balanced
      cases hstop with
      | cons hstop hnil =>
      cases hnil
      have htokens : tokensIn (Event.start m :: p ++ [Event.stop m]) = tokensIn p := by simp
      rw [htokens]
      have hstart : t.Step file ast (p ++ ([.stop m] ++ later)) (.start m) a frames a₁ frames₂ :=
        List.append_assoc p [.stop m] later ▸ hstart
      rw [List.append_assoc] at ha
      have hfits := hstart.fits ha rfl
      cases hstart with
      | pass hnode =>
        obtain ⟨hfits₂, hne⟩ := ih hbody (hfits fun n hn => by rwa [openNodes_none rfl]) (by simp)
        have hfits' := hstop.fits hfits₂ rfl
        obtain ⟨rfl, rfl⟩ := hstop.of_drop rfl
        exact ⟨hfits' fun n hn => by rwa [openNodes_none rfl] at hn, hne⟩
      | enter hnode hnoted =>
        have hfits₁ := hfits fun n hn => by
          rw [openNodes_some rfl]
          exact List.mem_cons_of_mem _ hn
        obtain ⟨hfits₂, hne⟩ := ih hbody hfits₁ (by simp)
        obtain ⟨rfl, -⟩ := hstop.of_stop rfl
        obtain ⟨hfits', hchildren⟩ := hbody.fits_node rfl ha.framing.built ha.framing.linked
          hfits₁.framing.built hfits₂ hstop
          (fun hnone => by
            have hnil : tokensIn p = [] := not_not.mp fun hne' => hne hne' hnone
            rw [hoffset, firstOffset_append, firstOffset_of_no_tokens hnil] at hnoted
            exact hnoted)
          ((hdone (state_of_hasTreeNode hnode)).imp hled hne)
        exact ⟨hfits', fun _ => hchildren⟩

end Transcript

end ScriptAnalysis
