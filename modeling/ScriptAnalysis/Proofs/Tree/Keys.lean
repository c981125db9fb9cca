import Mathlib.Data.List.Basic
import ScriptAnalysis.Tree.Assembly
import Std.Data.TreeMap.Lemmas

/-!
# The keys of an assembly

A finished marker makes an `Entry` into the indexes: a key with its node, its place in the tree and
the key of the name that it declares, if any, and perhaps an alias, by which a declaration gets the
key of its statement or of its name.  What the indexes hold is told by the entries made so far
(`Assembly.Indexed`): a key leads to the latest entry with it, and a node has the key of its alias,
or its own key as long as that leads to it.
-/

namespace ScriptAnalysis

section Maps

variable {α β : Type} [Ord α] [Std.TransOrd α] [Std.LawfulEqOrd α] {m : Std.TreeMap α β} {k l : α}
  {v : β}

theorem getElem?_insert_of_ne (h : k ≠ l) : (m.insert k v)[l]? = m[l]? := by
  rw [Std.TreeMap.getElem?_insert, if_neg]
  exact fun heq => h (Std.LawfulEqCmp.eq_of_compare heq)

theorem getElem?_erase_of_ne (h : k ≠ l) : (m.erase k)[l]? = m[l]? := by
  rw [Std.TreeMap.getElem?_erase, if_neg]
  exact fun heq => h (Std.LawfulEqCmp.eq_of_compare heq)

theorem getElem?_insert_eq [DecidableEq α] :
    (m.insert k v)[l]? = if k = l then some v else m[l]? := by
  split
  · next heq =>
    subst heq
    exact Std.TreeMap.getElem?_insert_self
  · next hne => exact getElem?_insert_of_ne hne

end Maps

namespace Assembly

variable {a b c : Assembly}

/-! ### Steps that enter no key -/

/-- The same keys lead to the same nodes. -/
structure SameKeys (a b : Assembly) : Prop where
  nodes : b.nodes = a.nodes
  treeNodes : b.treeNodes = a.treeNodes
  nodeKeys : b.nodeKeys = a.nodeKeys
  nameKeys : b.nameKeys = a.nameKeys

theorem SameKeys.refl (a : Assembly) : a.SameKeys a := ⟨rfl, rfl, rfl, rfl⟩

theorem sameKeys_pushLeaf (a : Assembly) (parent : TreeId) (t : Token) :
    a.SameKeys (a.pushLeaf parent t) := by
  unfold pushLeaf
  dsimp only
  split
  · split
    · exact ⟨rfl, rfl, rfl, rfl⟩
    · split
      · split <;> exact ⟨rfl, rfl, rfl, rfl⟩
      · exact ⟨rfl, rfl, rfl, rfl⟩
  · exact ⟨rfl, rfl, rfl, rfl⟩

theorem sameKeys_closeNode (a : Assembly) (id : TreeId) : a.SameKeys (a.closeNode id) := by
  unfold closeNode
  dsimp only
  split <;> exact ⟨rfl, rfl, rfl, rfl⟩

/-! ### Entries -/

/-- What a finished marker enters into the indexes. -/
structure Entry where
  key : AstKey
  node : NodeId
  place : TreeId
  /-- A node that gets a key of its own, whatever key led to it before. -/
  alias? : Option (NodeId × AstKey)
  /-- The key of the name that the node declares. -/
  nameKey? : Option AstKey

/-- The key of a declaration is that of its statement or of its name, and a class other than that of
    a script has the key of its name. -/
def alias? (key : AstKey) (nameKey : Option AstKey) (node : NodeId) :
    NodeData → Option (NodeId × AstKey)
  | .varDecl decl => some (decl, key)
  | .funDecl decl => nameKey.map fun name => (decl, name)
  | .classDecl decl => if decl.isScript then none else nameKey.map fun name => (node, name)
  | _ => none

/-- The node of an entry, and the one that has an alias. -/
def Entry.Owns (e : Entry) (x : NodeId) : Prop := e.node = x ∨ ∃ key, e.alias? = some (x, key)

/-- The step from `a` to `b` makes the entry. -/
structure Entry.Enters (e : Entry) (a b : Assembly) : Prop where
  nodes : b.nodes = a.nodes.insert e.key e.node
  treeNodes : b.treeNodes = a.treeNodes.insert e.key e.place
  nodeKeys : b.nodeKeys = match e.alias? with
    | some (x, key) => (a.claimKey e.key e.node e.place).nodeKeys.insert x key
    | none => (a.claimKey e.key e.node e.place).nodeKeys
  nameKeys : b.nameKeys = match e.nameKey? with
    | some name => a.nameKeys.insert e.key name
    | none => a.nameKeys.erase e.key

theorem Entry.Enters.congr {e : Entry} {a b c : Assembly} (h : e.Enters b c)
    (hsame : a.SameKeys b) :
    e.Enters a c where
  nodes := hsame.nodes ▸ h.nodes
  treeNodes := hsame.treeNodes ▸ h.treeNodes
  nodeKeys := by
    have hclaim : (a.claimKey e.key e.node e.place).nodeKeys =
        (b.claimKey e.key e.node e.place).nodeKeys := by
      unfold claimKey
      dsimp only
      rw [hsame.nodes, hsame.nodeKeys]
    rw [hclaim]
    exact h.nodeKeys
  nameKeys := hsame.nameKeys ▸ h.nameKeys

theorem index_of_node_none {file : FileId} {markers : MarkerId → Marker} {ast : Ast} {m : Marker}
    {place : TreeId} {offset : Nat} (h : m.node = none) :
    a.index file markers ast m place offset = a := by
  unfold index
  rw [h]
  cases m.kind <;> rfl

/-- The end of a marker with a node makes an entry. -/
theorem index_enters {file : FileId} {markers : MarkerId → Marker} {ast : Ast} {m : Marker}
    {kind : NodeKind} {n : NodeId} {data : NodeData} {place : TreeId} {offset : Nat}
    (hkind : m.kind = some kind) (hnode : m.node = some n) (hdata : ast.data? n = some data)
    (hnoop : data ≠ .noop) :
    Entry.Enters ⟨⟨file, kind, offset⟩, n, place,
      alias? ⟨file, kind, offset⟩ (nameKey? file markers m) n data, nameKey? file markers m⟩ a
      (a.index file markers ast m place offset) := by
  have hindex : a.index file markers ast m place offset =
      ((a.claimKey ⟨file, kind, offset⟩ n place).setName ⟨file, kind, offset⟩
        (nameKey? file markers m)).redirect ⟨file, kind, offset⟩
          (nameKey? file markers m) n data := by
    unfold index
    rw [hkind, hnode]
    dsimp only
    rw [hdata]
    cases data with
    | noop => exact absurd rfl hnoop
    | _ => rfl
  rw [hindex]
  cases data with
  | varDecl decl => exact ⟨rfl, rfl, rfl, rfl⟩
  | funDecl decl => cases nameKey? file markers m <;> exact ⟨rfl, rfl, rfl, rfl⟩
  | classDecl decl =>
    unfold redirect alias?
    cases hscript : decl.isScript
    · simp only [hscript, Bool.false_eq_true, if_false]
      cases nameKey? file markers m <;> exact ⟨rfl, rfl, rfl, rfl⟩
    · simp only [hscript, if_true]
      cases nameKey? file markers m <;> exact ⟨rfl, rfl, rfl, rfl⟩
  | _ => exact ⟨rfl, rfl, rfl, rfl⟩

/-! ### What the entries tell -/

variable {es : List Entry} {e : Entry} {x : NodeId} {key key' : AstKey}

/-- The latest entry with a key. -/
def latest? (es : List Entry) (key : AstKey) : Option Entry := es.find? fun e => e.key = key

theorem latest?_cons (e : Entry) (es : List Entry) (key : AstKey) :
    latest? (e :: es) key = if e.key = key then some e else latest? es key := by
  unfold latest?
  rw [List.find?_cons]
  by_cases h : e.key = key <;> simp [h]

theorem key_of_latest? (h : latest? es key = some e) : e.key = key := by
  simpa using List.find?_some h

theorem mem_of_latest? (h : latest? es key = some e) : e ∈ es := List.mem_of_find?_eq_some h

/-- The key of a node: that of its alias, or its own as long as that leads to the node. -/
def Leads (es : List Entry) (x : NodeId) (key : AstKey) : Prop :=
  (∃ e ∈ es, e.alias? = some (x, key)) ∨
    ∃ e, latest? es key = some e ∧ e.node = x ∧ ∀ key', e.alias? ≠ some (x, key')

/-- The indexes hold what these entries tell, the latest first. -/
structure Indexed (es : List Entry) (a : Assembly) : Prop where
  node : ∀ key, a.nodes[key]? = (latest? es key).map Entry.node
  place : ∀ key, a.treeNodes[key]? = (latest? es key).map Entry.place
  nodeKey : ∀ x key, a.nodeKeys[x]? = some key ↔ Leads es x key
  nameKey : ∀ key, a.nameKeys[key]? = (latest? es key).bind Entry.nameKey?

theorem Indexed.empty : Indexed [] {} := by
  refine ⟨fun key => by simp [latest?], fun key => by simp [latest?], fun x key => ?_,
    fun key => by simp [latest?]⟩
  simp [Leads, latest?]

theorem Indexed.congr (h : Indexed es a) (k : a.SameKeys b) : Indexed es b :=
  ⟨fun key => k.nodes ▸ h.node key, fun key => k.treeNodes ▸ h.place key,
    fun x key => k.nodeKeys ▸ h.nodeKey x key, fun key => k.nameKeys ▸ h.nameKey key⟩

/-- No two entries own one node, and no node has its own key as its alias. -/
structure Separate (es : List Entry) : Prop where
  apart : ∀ e ∈ es, ∀ e' ∈ es, ∀ x, e.Owns x → e'.Owns x → e = e'
  proper : ∀ e ∈ es, e.alias? ≠ some (e.node, e.key)

theorem Separate.tail (h : Separate (e :: es)) : Separate es :=
  ⟨fun e he e' he' => h.apart e (List.mem_cons_of_mem _ he) e' (List.mem_cons_of_mem _ he'),
    fun e he => h.proper e (List.mem_cons_of_mem _ he)⟩

/-- When an entry is made, the node that had the key before loses it. -/
theorem claimKey_nodeKeys (h : Indexed es a) (key : AstKey) (node : NodeId) (place : TreeId)
    (hx : node ≠ x) : (a.claimKey key node place).nodeKeys[x]? =
      if (latest? es key).map Entry.node = some x ∧ a.nodeKeys[x]? = some key then none
      else a.nodeKeys[x]? := by
  unfold claimKey
  dsimp only
  rw [getElem?_insert_of_ne hx, h.node]
  cases hprevious : (latest? es key).map Entry.node with
  | none => simp
  | some previous =>
    dsimp only
    by_cases heq : previous = x
    · subst heq
      by_cases hkey : a.nodeKeys[previous]? = some key
      · simp [hkey]
      · simp [hkey]
    · have hne : ¬ (some previous = some x ∧ a.nodeKeys[x]? = some key) :=
        fun hand => heq (Option.some.inj hand.1)
      rw [if_neg hne]
      split
      · exact getElem?_erase_of_ne heq
      · rfl

/-- What the entries before tell of a node that the new one does not own. -/
theorem leads_cons_of_not_owns (hx : ¬ e.Owns x) : Leads (e :: es) x key ↔
    (∃ e' ∈ es, e'.alias? = some (x, key)) ∨
      (e.key ≠ key ∧ ∃ e', latest? es key = some e' ∧ e'.node = x ∧
        ∀ key', e'.alias? ≠ some (x, key')) := by
  have halias : (∃ e' ∈ e :: es, e'.alias? = some (x, key)) ↔
      ∃ e' ∈ es, e'.alias? = some (x, key) := by
    constructor
    · rintro ⟨e', he', hkey⟩
      rcases List.mem_cons.mp he' with rfl | he'
      · exact absurd (.inr ⟨key, hkey⟩) hx
      · exact ⟨e', he', hkey⟩
    · rintro ⟨e', he', hkey⟩
      exact ⟨e', List.mem_cons_of_mem _ he', hkey⟩
  unfold Leads
  rw [halias, latest?_cons]
  refine or_congr_right ?_
  by_cases hkey : e.key = key
  · rw [if_pos hkey]
    constructor
    · rintro ⟨e', he', hnode, -⟩
      obtain rfl := Option.some.inj he'
      exact absurd (.inl hnode) hx
    · rintro ⟨hne, -⟩
      exact absurd hkey hne
  · rw [if_neg hkey]
    exact (and_iff_right hkey).symm

/-- A node that the new entry owns has one key. -/
theorem leads_cons_of_owns (h : Separate (e :: es)) (he : e ∉ es) (hx : e.Owns x) :
    Leads (e :: es) x key ↔ e.alias? = some (x, key) ∨
      (e.key = key ∧ e.node = x ∧ ∀ key', e.alias? ≠ some (x, key')) := by
  have hother : ∀ e' ∈ es, ¬ e'.Owns x := by
    intro e' he' howns
    exact he (h.apart e (List.mem_cons_self ..) e' (List.mem_cons_of_mem _ he') x hx howns ▸ he')
  constructor
  · rintro (⟨e', he', halias⟩ | ⟨e', hlatest, hnode, hnone⟩)
    · rcases List.mem_cons.mp he' with rfl | he'
      · exact .inl halias
      · exact absurd (.inr ⟨key, halias⟩) (hother e' he')
    · rcases List.mem_cons.mp (mem_of_latest? hlatest) with rfl | he'
      · exact .inr ⟨key_of_latest? hlatest, hnode, hnone⟩
      · exact absurd (.inl hnode) (hother e' he')
  · rintro (halias | ⟨hkey, hnode, hnone⟩)
    · exact .inl ⟨e, List.mem_cons_self .., halias⟩
    · exact .inr ⟨e, by rw [latest?_cons, if_pos hkey], hnode, hnone⟩

/-- An entry sets the name of its key, or takes away the one that an earlier entry set. -/
theorem Indexed.enter_nameKey (h : Indexed es a) (he : e.Enters a b) (key : AstKey) :
    b.nameKeys[key]? = (latest? (e :: es) key).bind Entry.nameKey? := by
  rw [he.nameKeys, latest?_cons]
  by_cases hkey : e.key = key
  · subst hkey
    rw [if_pos rfl, Option.bind_some]
    cases e.nameKey? with
    | some name => exact Std.TreeMap.getElem?_insert_self
    | none => exact Std.TreeMap.getElem?_erase_self
  · rw [if_neg hkey, ← h.nameKey]
    cases e.nameKey? with
    | some name => exact getElem?_insert_of_ne hkey
    | none => exact getElem?_erase_of_ne hkey

/-- An entry is added to what the indexes hold. -/
theorem Indexed.enter (h : Indexed es a) (he : e.Enters a b) (hseparate : Separate (e :: es))
    (hnew : e ∉ es) : Indexed (e :: es) b := by
  refine ⟨fun key => ?_, fun key => ?_, fun x key => ?_, h.enter_nameKey he⟩
  · rw [he.nodes, getElem?_insert_eq, latest?_cons, h.node]
    split <;> rfl
  · rw [he.treeNodes, getElem?_insert_eq, latest?_cons, h.place]
    split <;> rfl
  · have hself : (a.claimKey e.key e.node e.place).nodeKeys[e.node]? = some e.key :=
      Std.TreeMap.getElem?_insert_self
    by_cases howns : e.Owns x
    · rw [leads_cons_of_owns hseparate hnew howns, he.nodeKeys]
      cases halias : e.alias? with
      | none =>
        obtain rfl : e.node = x := howns.resolve_right (by simp [halias])
        simp [hself]
      | some pair =>
        obtain ⟨y, key'⟩ := pair
        dsimp only
        rw [getElem?_insert_eq]
        by_cases hy : y = x
        · subst hy
          simp
        · obtain rfl : e.node = x := howns.resolve_right (by simp [halias, hy])
          simp [hself, hy]
    · rw [leads_cons_of_not_owns howns]
      have hnode : e.node ≠ x := fun hnode => howns (.inl hnode)
      have hkeys : b.nodeKeys[x]? = (a.claimKey e.key e.node e.place).nodeKeys[x]? := by
        rw [he.nodeKeys]
        split
        · next y key' halias =>
          refine getElem?_insert_of_ne ?_
          rintro rfl
          exact howns (.inr ⟨key', halias⟩)
        · rfl
      rw [hkeys, claimKey_nodeKeys h e.key e.node e.place hnode]
      split
      · next herased =>
        -- The node of the latest entry with this key has it no longer.
        obtain ⟨hlatest, hkey⟩ := herased
        obtain ⟨e₁, he₁, rfl⟩ := Option.map_eq_some_iff.mp hlatest
        refine iff_of_false (by simp) ?_
        rintro (⟨e', he', halias⟩ | ⟨hne, hleads⟩)
        · have hkey' := (h.nodeKey e₁.node key).mpr (.inl ⟨e', he', halias⟩)
          obtain rfl := Option.some.inj (hkey.symm.trans hkey')
          obtain rfl := hseparate.tail.apart e' he' e₁ (mem_of_latest? he₁) _ (.inr ⟨_, halias⟩)
            (.inl rfl)
          refine hseparate.tail.proper e' he' ?_
          rw [halias, key_of_latest? he₁]
        · exact hne (Option.some.inj (hkey.symm.trans ((h.nodeKey e₁.node key).mpr (.inr hleads))))
      · next hkept =>
        rw [h.nodeKey]
        refine or_congr_right ⟨fun hleads => ⟨?_, hleads⟩, And.right⟩
        rintro rfl
        have hkey := (h.nodeKey x e.key).mpr (.inr hleads)
        obtain ⟨e', hlatest, hnode', -⟩ := hleads
        exact hkept ⟨by rw [hlatest, Option.map_some, hnode'], hkey⟩

end Assembly

end ScriptAnalysis
