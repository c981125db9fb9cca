import ScriptAnalysis.Proofs.Tree.Spans

/-!
# Looking up a point in a tree

The search for the node around an offset goes down from the root to the first child that holds the
offset, and never back.  Where every inner node has a leaf, a node spans its leaves exactly
(`SourceTree.Finished.exact`), so that siblings are apart and no node reaches beyond its parent.
Then the way of the search leads through every node that holds the offset
(`SourceTree.Finished.descends_to`), and the last one of a kind on it is the innermost.
-/

namespace ScriptAnalysis

namespace SourceTree

variable {t : SourceTree} {a b c d e m n x y : TreeId} {cs chain : List TreeId} {offset : Nat}
  {kind : NodeKind}

/-- Each inner node has a leaf. -/
def HasLeaves (t : SourceTree) : Prop :=
  ∀ n < t.size, (t.node n).isToken = false → t.leavesUnder n ≠ []

instance : Decidable t.HasLeaves :=
  inferInstanceAs (Decidable (∀ n < t.size, (t.node n).isToken = false → t.leavesUnder n ≠ []))

/-- An inner node of a kind whose span holds an offset. -/
structure IsAround (t : SourceTree) (offset : Nat) (kind : NodeKind) (n : TreeId) : Prop where
  lt_size : n < t.size
  kind : t.kind n = .node kind
  contains : (t.node n).span.contains offset = true

/-- The deepest inner node of a kind whose span holds an offset: the others are above it. -/
structure IsInnermost (t : SourceTree) (offset : Nat) (kind : NodeKind) (n : TreeId) : Prop where
  around : t.IsAround offset kind n
  above : ∀ m, t.IsAround offset kind m → m ∈ t.ancestors n
  deepest : ∀ m, t.IsAround offset kind m → m ≠ n →
    (t.ancestors m).length < (t.ancestors n).length

/-! ### Nodes that span their leaves exactly -/

/-- Of two leaves the later one starts later and ends later. -/
theorem leaf_le {stop : Nat} (h : Tiles 0 t.tokens stop) (hxy : x ≤ y) (hy : y < t.size)
    (hx : (t.node x).isToken = true) (hy' : (t.node y).isToken = true) :
    (t.node x).span.start ≤ (t.node y).span.start ∧
      (t.node x).span.stop ≤ (t.node y).span.stop := by
  have hordered : ∀ z < t.size, (t.node z).isToken = true →
      (t.node z).span.start ≤ (t.node z).span.stop := by
    intro z hz htoken
    rw [← TreeNode.isSome_token?] at htoken
    obtain ⟨token, htoken⟩ := Option.isSome_iff_exists.mp htoken
    rw [(TreeNode.token?_eq_some.mp htoken).2]
    have hmem : token ∈ t.tokens := List.mem_filterMap.mpr ⟨z, List.mem_range.mpr hz, htoken⟩
    obtain ⟨before, after, hsplit⟩ := List.append_of_mem hmem
    rw [hsplit] at h
    obtain ⟨_, -, htail⟩ := Tiles.append_iff.mp h
    exact (Tiles.cons_iff.mp htail).2.1
  rcases Nat.eq_or_lt_of_le hxy with rfl | hlt
  · exact ⟨Nat.le_refl _, Nat.le_refl _⟩
  · have hapart := leaf_stop_le h hlt hy hx hy'
    exact ⟨Nat.le_trans (hordered x (Nat.lt_trans hlt hy) hx) hapart,
      Nat.le_trans hapart (hordered y hy hy')⟩

theorem Built.mem_leavesUnder (h : t.Built [root]) (hruns : t.Runs n [n] e) (he : e ≤ t.size) :
    x ∈ t.leavesUnder n ↔ n ≤ x ∧ x < e ∧ (t.node x).isToken = true := by
  have hne : n ≤ e := hruns.le
  rw [h.leavesUnder_eq hruns he, List.mem_filter, List.mem_range'_1, Nat.add_sub_cancel' hne,
    and_assoc]

/-- A node starts with the first of its leaves and ends with the last. -/
theorem Finished.exact (hf : t.Finished) {stop : Nat} (htiles : Tiles 0 t.tokens stop)
    (hfull : t.HasLeaves) (hruns : t.Runs n [n] e) (he : e ≤ t.size) :
    ∃ first last, first ∈ t.leavesUnder n ∧ last ∈ t.leavesUnder n ∧
      (t.node n).span.start = (t.node first).span.start ∧
      (t.node n).span.stop = (t.node last).span.stop ∧
      ∀ leaf ∈ t.leavesUnder n, first ≤ leaf ∧ leaf ≤ last := by
  have hspans := hf.spansLeaves htiles
  obtain ⟨hle, hlast, -⟩ := hf.lastUnder_eq hruns he
  have hlt : t.lastUnder n < t.size := Nat.lt_of_lt_of_le (Nat.lt_of_succ_le hlast.le) he
  have hn : n < t.size := Nat.lt_of_le_of_lt hle hlt
  have hne : t.leavesUnder n ≠ [] := by
    cases htoken : (t.node n).isToken with
    | false => exact hfull n hn htoken
    | true =>
      exact List.ne_nil_of_mem ((hf.built.mem_leavesUnder hruns he).mpr
        ⟨Nat.le_refl n, Nat.lt_of_le_of_lt hle (Nat.lt_of_succ_le hlast.le), htoken⟩)
  have hsorted : (t.leavesUnder n).Pairwise (· < ·) := by
    rw [hf.built.leavesUnder_eq hruns he]
    exact List.Pairwise.filter _ (List.pairwise_lt_range' 1)
  obtain ⟨first, rest, hcons⟩ := List.exists_cons_of_ne_nil hne
  obtain ⟨last, hback⟩ := Option.ne_none_iff_exists'.mp (mt List.getLast?_eq_none_iff.mp hne)
  obtain ⟨before, hconcat⟩ := List.getLast?_eq_some_iff.mp hback
  refine ⟨first, last, by simp [hcons], by simp [hconcat],
    hspans.start n hn first (by simp [hcons]), ?_, fun leaf hleaf => ⟨?_, ?_⟩⟩
  · refine ((hspans.stop n hn last hback).resolve_right fun h => ?_).2
    exact hfull _ hlt h.1.1 (leavesUnder_of_emptyNode h.1)
  · rw [hcons] at hleaf hsorted
    rcases List.mem_cons.mp hleaf with rfl | hrest
    · exact Nat.le_refl _
    · exact Nat.le_of_lt ((List.pairwise_cons.mp hsorted).1 leaf hrest)
  · rw [hconcat] at hleaf hsorted
    rcases List.mem_append.mp hleaf with hbefore | hlast
    · exact Nat.le_of_lt ((List.pairwise_append.mp hsorted).2.2 leaf hbefore last (by simp))
    · exact Nat.le_of_eq (List.mem_singleton.mp hlast)

/-! ### Children -/

/-- The subtree of a child lies in that of its parent, in front of the children after it. -/
theorem Built.child (h : t.Built [root]) {before after : List TreeId}
    (hcs : (t.children n).toList = before ++ c :: after) :
    ∃ m e, t.Runs n [n] e ∧ e ≤ t.size ∧ n < c ∧ t.Runs c [c] m ∧ m ≤ e ∧ ∀ d ∈ after, m ≤ d := by
  have hn : n < t.size := by
    by_contra hle
    rw [children_of_size_le (Nat.le_of_not_lt hle)] at hcs
    simp at hcs
  obtain ⟨e, he, hruns⟩ := h.single hn
  have hinner : t.Runs (n + 1) (before ++ c :: after) e := by
    cases hruns with
    | cons h₁ h₂ =>
      cases h₂
      rwa [hcs] at h₁
  have hlt : n < c := hinner.ge c (by simp)
  obtain ⟨c', -, hc⟩ := hinner.of_append
  cases hc with
  | cons h₁ h₂ => exact ⟨_, e, hruns, he, hlt, .cons h₁ (.nil _), h₂.le, h₂.ge⟩

theorem Built.lt_child (h : t.Built [root]) (hc : c ∈ t.children n) : n < c := by
  obtain ⟨before, after, hcs⟩ := List.append_of_mem (Array.mem_toList_iff.mpr hc)
  obtain ⟨-, -, -, -, hlt, -⟩ := h.child hcs
  exact hlt

/-- No child reaches beyond its parent. -/
theorem Finished.child_within (hf : t.Finished) {stop : Nat} (htiles : Tiles 0 t.tokens stop)
    (hfull : t.HasLeaves) (hc : c ∈ t.children n) :
    (t.node n).span.start ≤ (t.node c).span.start ∧
      (t.node c).span.stop ≤ (t.node n).span.stop := by
  obtain ⟨before, after, hcs⟩ := List.append_of_mem (Array.mem_toList_iff.mpr hc)
  obtain ⟨m, e, hn, he, hlt, hm, hle, -⟩ := hf.built.child hcs
  have hmt := Nat.le_trans hle he
  have hmem : ∀ x ∈ t.leavesUnder c, x ∈ t.leavesUnder n ∧ x < t.size ∧
      (t.node x).isToken = true := by
    intro x hx
    obtain ⟨hcx, hxm, htoken⟩ := (hf.built.mem_leavesUnder hm hmt).mp hx
    exact ⟨(hf.built.mem_leavesUnder hn he).mpr ⟨Nat.le_trans (Nat.le_of_lt hlt) hcx,
      Nat.lt_of_lt_of_le hxm hle, htoken⟩, Nat.lt_of_lt_of_le hxm hmt, htoken⟩
  have htoken : ∀ x ∈ t.leavesUnder n, x < t.size ∧ (t.node x).isToken = true := by
    intro x hx
    obtain ⟨-, hxe, htoken⟩ := (hf.built.mem_leavesUnder hn he).mp hx
    exact ⟨Nat.lt_of_lt_of_le hxe he, htoken⟩
  obtain ⟨first, last, hfirst, hlast, hstart, hstop, hall⟩ := hf.exact htiles hfull hn he
  obtain ⟨first', last', hfirst', hlast', hstart', hstop', -⟩ := hf.exact htiles hfull hm hmt
  obtain ⟨hin, hft, hftoken⟩ := hmem first' hfirst'
  obtain ⟨hin', hlt', hltoken⟩ := hmem last' hlast'
  rw [hstart, hstop, hstart', hstop']
  exact ⟨(leaf_le htiles (hall first' hin).1 hft (htoken first hfirst).2 hftoken).1,
    (leaf_le htiles (hall last' hin').2 (htoken last hlast).1 hltoken (htoken last hlast).2).2⟩

/-- A child ends in front of the children after it. -/
theorem Finished.children_apart (hf : t.Finished) {stop : Nat} (htiles : Tiles 0 t.tokens stop)
    (hfull : t.HasLeaves) {before after : List TreeId}
    (hcs : (t.children n).toList = before ++ c :: after) (hd : d ∈ after) :
    (t.node c).span.stop ≤ (t.node d).span.start := by
  obtain ⟨m, e, -, he, -, hm, hle, hafter⟩ := hf.built.child hcs
  have hmt := Nat.le_trans hle he
  have hdt : d < t.size :=
    hf.linked.lt_size (p := n) (Array.mem_toList_iff.mp (by rw [hcs]; simp [hd]))
  obtain ⟨m', hmt', hm'⟩ := hf.built.single hdt
  obtain ⟨-, last, -, hlast, -, hstop, -⟩ := hf.exact htiles hfull hm hmt
  obtain ⟨first, -, hfirst, -, hstart, -⟩ := hf.exact htiles hfull hm' hmt'
  obtain ⟨-, hlm, hltoken⟩ := (hf.built.mem_leavesUnder hm hmt).mp hlast
  obtain ⟨hdf, hfm, hftoken⟩ := (hf.built.mem_leavesUnder hm' hmt').mp hfirst
  rw [hstop, hstart]
  exact leaf_stop_le htiles (Nat.lt_of_lt_of_le hlm (Nat.le_trans (hafter d hd) hdf))
    (Nat.lt_of_lt_of_le hfm hmt') hltoken hftoken

/-- At most one child holds an offset. -/
theorem Finished.child_unique (hf : t.Finished) {stop : Nat} (htiles : Tiles 0 t.tokens stop)
    (hfull : t.HasLeaves) (hc : c ∈ t.children n) (hd : d ∈ t.children n)
    (hcontains : (t.node c).span.contains offset = true)
    (hcontains' : (t.node d).span.contains offset = true) : c = d := by
  simp only [Span.contains, Bool.and_eq_true, decide_eq_true_eq] at hcontains hcontains'
  obtain ⟨before, after, hcs⟩ := List.append_of_mem (Array.mem_toList_iff.mpr hc)
  have hmem := Array.mem_toList_iff.mpr hd
  rw [hcs] at hmem
  rcases List.mem_append.mp hmem with hbefore | hmem
  · obtain ⟨outer, between, rfl⟩ := List.append_of_mem hbefore
    have hapart := hf.children_apart (c := d) (d := c) htiles hfull
      (hcs.trans (List.append_assoc ..)) (by simp)
    omega
  · rcases List.mem_cons.mp hmem with rfl | hafter
    · rfl
    · have hapart := hf.children_apart htiles hfull hcs hafter
      omega

theorem childAt?_eq_some (h : t.childAt? offset n = some c) : c ∈ t.children n ∧
    (t.node c).isToken = false ∧ (t.node c).span.contains offset = true := by
  have hfound := Array.find?_some h
  simp only [Bool.and_eq_true, Bool.not_eq_true'] at hfound
  exact ⟨Array.mem_of_find?_eq_some h, hfound.1, hfound.2⟩

/-- The search steps down to the child that holds the offset. -/
theorem Finished.childAt? (hf : t.Finished) {stop : Nat} (htiles : Tiles 0 t.tokens stop)
    (hfull : t.HasLeaves) (hc : c ∈ t.children n) (hinner : (t.node c).isToken = false)
    (hcontains : (t.node c).span.contains offset = true) : t.childAt? offset n = some c := by
  cases hstep : t.childAt? offset n with
  | none =>
    refine absurd ?_ (Array.find?_eq_none.mp hstep c hc)
    simp [hinner, hcontains]
  | some d =>
    obtain ⟨hd, -, hcontains'⟩ := childAt?_eq_some hstep
    rw [hf.child_unique htiles hfull hc hd hcontains hcontains']

/-! ### Nodes and their parents -/

/-- A node of an interval is one of the nodes whose subtrees take the interval, or a child of a node
    before it. -/
theorem Runs.mem_or_child (h : t.Runs a cs b) (ha : a ≤ n) (hb : n < b) :
    n ∈ cs ∨ ∃ p, p < n ∧ n ∈ t.children p := by
  induction h with
  | nil a => exact absurd hb (Nat.not_lt.mpr ha)
  | @cons a e b cs h₁ h₂ ih₁ ih₂ =>
    rcases Nat.eq_or_lt_of_le ha with rfl | hlt
    · exact .inl (List.mem_cons_self ..)
    · rcases Nat.lt_or_ge n e with hn | hn
      · rcases ih₁ hlt hn with hmem | hchild
        · exact .inr ⟨a, hlt, Array.mem_toList_iff.mp hmem⟩
        · exact .inr hchild
      · exact (ih₂ hn hb).imp_left (List.mem_cons_of_mem a)

/-- Every node hangs in a finished tree. -/
theorem Finished.above (hf : t.Finished) (hn : n < t.size) : ∃ chain, t.Above n chain := by
  induction n using Nat.strongRecOn with
  | _ n ih =>
    have hall : t.Runs root [root] t.size := .cons hf.built.laid.2 (.nil _)
    by_cases hroot : n = root
    · subst hroot
      refine ⟨[], .root (Option.eq_none_iff_forall_ne_some.mpr fun p hp => ?_)⟩
      exact absurd (hf.built.lt_child ((hf.linked p root).mpr hp)) (Nat.not_lt_zero p)
    · obtain hmem | ⟨p, hpn, hchild⟩ := hall.mem_or_child (Nat.zero_le n) hn
      · exact absurd (List.mem_singleton.mp hmem) hroot
      · obtain ⟨chain, hchain⟩ := ih p hpn (Nat.lt_trans hpn hn)
        exact ⟨p :: chain, .child ((hf.linked p n).mp hchild) hpn hchain⟩

/-! ### The way of the search -/

/-- The search for an offset leads from one node to another. -/
inductive Descends (t : SourceTree) (offset : Nat) : TreeId → TreeId → Prop
  | here (a : TreeId) : Descends t offset a a
  | down {a b c : TreeId} :
      t.childAt? offset a = some b → Descends t offset b c → Descends t offset a c

theorem Descends.trans (h : t.Descends offset a b) (k : t.Descends offset b c) :
    t.Descends offset a c := by
  induction h with
  | here a => exact k
  | down hstep _ ih => exact .down hstep (ih k)

theorem Descends.eq_self (h : t.Descends offset n x) (hstep : t.childAt? offset n = none) :
    x = n := by
  cases h with
  | here => rfl
  | down hdown _ =>
    rw [hstep] at hdown
    cases hdown

theorem Descends.from_child (h : t.Descends offset n x) (hstep : t.childAt? offset n = some c) :
    x = n ∨ t.Descends offset c x := by
  cases h with
  | here => exact .inl rfl
  | down hdown hrest =>
    rw [hstep, Option.some.injEq] at hdown
    exact .inr (hdown ▸ hrest)

/-- By induction on the way: whatever the search reaches below its start holds the offset. -/
theorem Descends.contains (h : t.Descends offset a b) (hne : a ≠ b) :
    (t.node b).span.contains offset = true := by
  induction h with
  | here a => exact absurd rfl hne
  | @down a b c hstep hrest ih =>
    by_cases hbc : b = c
    · exact hbc ▸ (childAt?_eq_some hstep).2.2
    · exact ih hbc

/-- By induction on the way: the nodes above its start are above its end. -/
theorem Finished.ancestors_suffix (hf : t.Finished) (h : t.Descends offset a b) (ha : a < t.size) :
    t.ancestors a <:+ t.ancestors b := by
  induction h with
  | here a => exact List.suffix_rfl
  | @down a b c hstep hrest ih =>
    have hchild := (childAt?_eq_some hstep).1
    have hb := hf.linked.lt_size hchild
    obtain ⟨chain, hb'⟩ := hf.above hb
    have hparent := (hf.linked a b).mp hchild
    have hab : t.ancestors b = b :: t.ancestors a := by
      cases hb' with
      | root hnone =>
        rw [hnone] at hparent
        cases hparent
      | child hp hlt habove =>
        rw [hparent, Option.some.injEq] at hp
        subst hp
        rw [(Above.child hparent hlt habove).ancestors hb, habove.ancestors ha]
    exact List.IsSuffix.trans (hab ▸ List.suffix_cons b _) (ih hb)

/-- The search leads to every inner node that holds the offset, by induction on the nodes above it:
    each of them holds the offset as well. -/
theorem Finished.descends_to (hf : t.Finished) {stop : Nat} (htiles : Tiles 0 t.tokens stop)
    (hfull : t.HasLeaves) (hchain : t.Above n chain) (hinner : (t.node n).isToken = false)
    (hcontains : (t.node n).span.contains offset = true) : t.Descends offset root n := by
  induction hchain with
  | root hnone => exact .here root
  | @child c p chain hparent hlt habove ih =>
    have hc : c ∈ t.children p := (hf.linked p c).mpr hparent
    obtain ⟨hstart, hstop⟩ := hf.child_within htiles hfull hc
    have hpinner : (t.node p).isToken = false := by
      by_contra htoken
      rw [hf.built.childless p (by simpa using htoken)] at hc
      simp at hc
    have hpcontains : (t.node p).span.contains offset = true := by
      simp only [Span.contains, Bool.and_eq_true, decide_eq_true_eq] at hcontains ⊢
      omega
    exact (ih hpinner hpcontains).trans
      (.down (hf.childAt? htiles hfull hc hinner hcontains) (.here c))

/-- The search answers the last node of the kind on its way, and what was found before if there is
    none.  By induction on the depth. -/
theorem Finished.nodeAtBelow_spec (hf : t.Finished) (offset : Nat) (kind : NodeKind)
    (found : Option TreeId) {depth : Nat} (hn : n < t.size) (hdepth : t.size ≤ n + depth) :
    (∃ m, t.nodeAtBelow offset kind depth n found = some m ∧ t.Descends offset n m ∧
      t.kind m = .node kind ∧
        ∀ x, t.Descends offset n x → t.kind x = .node kind → t.Descends offset x m) ∨
    (t.nodeAtBelow offset kind depth n found = found ∧
      ∀ x, t.Descends offset n x → t.kind x ≠ .node kind) := by
  induction depth generalizing n found with
  | zero => exact absurd hn (Nat.not_lt.mpr hdepth)
  | succ depth ih =>
    unfold nodeAtBelow
    cases hstep : t.childAt? offset n with
    | none =>
      by_cases hkind : t.kind n = .node kind
      · refine .inl ⟨n, by simp [hkind], .here n, hkind, fun x hx _ => ?_⟩
        rw [hx.eq_self hstep]
        exact .here n
      · refine .inr ⟨by simp [hkind], fun x hx => ?_⟩
        rw [hx.eq_self hstep]
        exact hkind
    | some c =>
      have hchild := (childAt?_eq_some hstep).1
      have hdepth' : t.size ≤ c + depth := Nat.le_trans hdepth
        (Nat.le_trans (Nat.le_of_eq (Nat.add_right_comm n depth 1))
          (Nat.add_le_add_right (hf.built.lt_child hchild) depth))
      dsimp only
      obtain ⟨m, hm, hdown, hkind, hlast⟩ | ⟨hnot, hnone⟩ :=
        ih (if t.kind n = .node kind then some n else found) (hf.linked.lt_size hchild) hdepth'
      · refine .inl ⟨m, hm, .down hstep hdown, hkind, fun x hx hxkind => ?_⟩
        rcases hx.from_child hstep with rfl | hrest
        · exact .down hstep hdown
        · exact hlast x hrest hxkind
      · rw [hnot]
        by_cases hkind : t.kind n = .node kind
        · refine .inl ⟨n, by simp [hkind], .here n, hkind, fun x hx hxkind => ?_⟩
          rcases hx.from_child hstep with rfl | hrest
          · exact .here x
          · exact absurd hxkind (hnone x hrest)
        · refine .inr ⟨by simp [hkind], fun x hx => ?_⟩
          rcases hx.from_child hstep with rfl | hrest
          · exact hkind
          · exact hnone x hrest

/-- The search finds the innermost node around an offset, and nothing where there is none. -/
theorem Finished.nodeAt?_spec (hf : t.Finished) {stop : Nat} (htiles : Tiles 0 t.tokens stop)
    (hfull : t.HasLeaves) (hkindRoot : t.kind root = .root) (offset : Nat) (kind : NodeKind) :
    (∃ n, t.nodeAt? offset kind = some n ∧ t.IsInnermost offset kind n) ∨
    (t.nodeAt? offset kind = none ∧ ∀ n, ¬ t.IsAround offset kind n) := by
  have hroot : root < t.size := hf.built.lt_size (by simp)
  have hdown : ∀ m, t.IsAround offset kind m → t.Descends offset root m := by
    intro m hm
    obtain ⟨chain, hchain⟩ := hf.above hm.lt_size
    have hinner : (t.node m).isToken = false := by
      unfold TreeNode.isToken
      rw [show (t.node m).kind = .node kind from hm.kind]
    exact hf.descends_to htiles hfull hchain hinner hm.contains
  obtain ⟨n, hn, hway, hkind, hlast⟩ | ⟨hnone, hway⟩ :=
    hf.nodeAtBelow_spec offset kind none hroot (Nat.le_add_left t.size root)
  · have hne : root ≠ n := by
      rintro rfl
      rw [hkindRoot] at hkind
      cases hkind
    have hlt : n < t.size := by
      by_contra hle
      rw [SourceTree.kind, node_of_size_le (Nat.le_of_not_lt hle)] at hkind
      cases hkind
    have hsuffix : ∀ m, t.IsAround offset kind m → t.ancestors m <:+ t.ancestors n := fun m hm =>
      hf.ancestors_suffix (hlast m (hdown m hm) hm.kind) hm.lt_size
    have hself : ∀ m, m < t.size → (t.ancestors m).head? = some m := by
      intro m hm
      obtain ⟨chain, hchain⟩ := hf.above hm
      rw [hchain.ancestors hm]
      rfl
    refine .inl ⟨n, hn, ⟨⟨hlt, hkind, hway.contains hne⟩, fun m hm => ?_, fun m hm hmn => ?_⟩⟩
    · exact (hsuffix m hm).subset (List.mem_of_head? (hself m hm.lt_size))
    · refine Nat.lt_of_le_of_ne (hsuffix m hm).length_le fun hlength => hmn ?_
      have hheads := hself m hm.lt_size
      rw [(hsuffix m hm).eq_of_length hlength, hself n hlt] at hheads
      exact (Option.some.inj hheads).symm
  · exact .inr ⟨hnone, fun n hn => hway n (hdown n hn) hn.kind⟩

/-- The innermost node around an offset is the only one. -/
theorem IsInnermost.unique (h : t.IsInnermost offset kind m) (h' : t.IsInnermost offset kind n) :
    m = n := by
  by_contra hne
  exact Nat.lt_asymm (h.deepest n h'.around (Ne.symm hne)) (h'.deepest m h.around hne)

end SourceTree

/-- The root is no construct. -/
theorem Transcript.assemble_root {t : Transcript} {file : FileId} {ast : Ast} {r : Assembly}
    (hr : t.assemble file ast = .ok r) : r.tree.kind SourceTree.root = .root := by
  obtain ⟨a, hreplays, rfl⟩ := assemble_ok.mp hr
  have hempty := SourceTree.Built.empty
  have hroot : SourceTree.root < SourceTree.empty.size := hempty.lt_size (by simp)
  have hbuilt := hreplays.changes.built hempty
  have hkind : a.tree.kind SourceTree.root = .root := hreplays.changes.kind_eq hempty hroot rfl
  rcases a.closeNode_tree SourceTree.root with ⟨first, last, -, -, htree⟩ | ⟨-, htree⟩
  · have hlt := hbuilt.lt_size (q := SourceTree.root) (by simp [openNodes])
    have hinner := hbuilt.inner SourceTree.root (by simp [openNodes])
    have hkeeps : a.tree.Keeps (a.tree.coverChildren SourceTree.root first last) :=
      SourceTree.keeps_coverChildren hlt hinner
    rw [htree, hkeeps.kind _ hlt hinner, hkind]
  · rw [htree, hkind]

/-- In the tree of any text whose inner nodes all have leaves, the search finds the innermost node
    of a kind around an offset, and nothing exactly where no node of the kind is around it. -/
theorem Toolchain.parse_finds_innermost (globals : Except GlobalsFault Globals) (file : FileId)
    (text : String) : ∃ p assembly, ({ globals } : Toolchain).parse file text = .ok (p, assembly) ∧
      (assembly.tree.HasLeaves → ∀ offset kind,
        (∀ n, assembly.tree.nodeAt? offset kind = some n ↔
          assembly.tree.IsInnermost offset kind n) ∧
        (assembly.tree.nodeAt? offset kind = none ↔
          ∀ n, ¬ assembly.tree.IsAround offset kind n)) := by
  obtain ⟨p, assembly, hparse, htext⟩ := parse_finishes globals file text
  refine ⟨p, assembly, hparse, fun hfull offset kind => ?_⟩
  have hroot := Transcript.assemble_root htext.assembled
  obtain ⟨n, hfound, hinner⟩ | ⟨hnone, hfree⟩ :=
    htext.finished.nodeAt?_spec htext.tiles hfull hroot offset kind
  · rw [hfound]
    refine ⟨fun m => ⟨?_, fun hm => ?_⟩, by simp, fun hfree => absurd hinner.around (hfree n)⟩
    · rintro ⟨⟩
      exact hinner
    · rw [hinner.unique hm]
  · rw [hnone]
    exact ⟨fun m => ⟨by simp, fun hm => absurd hm.around (hfree m)⟩, fun _ => hfree, fun _ => rfl⟩

/-- The inner block is found at the offset of its statement, and the outer one in front of it. -/
theorem Toolchain.inner_block_is_found : ∃ p assembly,
    ({ globals := .ok .empty } : Toolchain).parse 0 "\x7b \x7b x \x7d \x7d" = .ok (p, assembly) ∧
    assembly.tree.HasLeaves ∧ assembly.tree.IsInnermost 4 .block 4 ∧
    assembly.tree.IsInnermost 0 .block 2 ∧ ∀ n, ¬ assembly.tree.IsAround 0 .identifier n := by
  obtain ⟨p, assembly, hparse, hfinds⟩ :=
    parse_finds_innermost (.ok .empty) 0 "\x7b \x7b x \x7d \x7d"
  have hcomputed : (({ globals := .ok .empty } : Toolchain).parse 0
      "\x7b \x7b x \x7d \x7d").toOption.any (fun result => decide (result.2.tree.HasLeaves ∧
        result.2.tree.nodeAt? 4 .block = some 4 ∧ result.2.tree.nodeAt? 0 .block = some 2 ∧
        result.2.tree.nodeAt? 0 .identifier = none)) = true := by decide +kernel
  rw [hparse] at hcomputed
  obtain ⟨hfull, hinner, houter, hnone⟩ := of_decide_eq_true hcomputed
  have hfound := hfinds hfull
  exact ⟨p, assembly, hparse, hfull, ((hfound 4 .block).1 4).mp hinner,
    ((hfound 0 .block).1 2).mp houter, (hfound 0 .identifier).2.mp hnone⟩

end ScriptAnalysis
