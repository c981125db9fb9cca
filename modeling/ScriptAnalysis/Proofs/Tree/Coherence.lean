import ScriptAnalysis.Proofs.Grammar.Scripts
import ScriptAnalysis.Proofs.Tree.Entries
import ScriptAnalysis.Proofs.Tree.ScriptTree

/-!
# The keys of a script

Constructs with one key are nested, unless one of them holds no token but trivia.  So the index of a
script tells the node of the outermost construct with a key (`Assembly.Coherent.node_iff`).  Names
and variables share their keys with nothing of their kind, so whatever leads to them arrives there.
-/

namespace ScriptAnalysis

/-! ### Kinds that tell what a node means -/

theorem NodeData.eq_varDecl {data : NodeData} (h : NodeKind.of? data = some .varDecl) :
    ∃ decl, data = .varDecl decl := by
  cases data with
  | varDecl decl => exact ⟨decl, rfl⟩
  | name text kind => cases kind <;> cases h
  | type type => cases type <;> cases h
  | _ => cases h

theorem NodeData.eq_identifier {data : NodeData} (h : NodeKind.of? data = some .identifier) :
    ∃ name, data = .identifier name := by
  cases data with
  | identifier name => exact ⟨name, rfl⟩
  | name text kind => cases kind <;> cases h
  | type type => cases type <;> cases h
  | _ => cases h

/-! ### Constructs with one key -/

namespace ScriptRecorded

variable {ast : Ast} {mk : MarkerId → Marker} {events p q : List Event} {root : Nat}
  {parts : ScriptParts} {c d : Construct} {o : Nat}

/-- Of two constructs at one offset, the one that holds a token holds the other one or is in it, or
    the other one stands in front of it. -/
theorem nested_or_behind (h : ScriptRecorded ast mk events root parts) (ha : Ascending events)
    (hc : c.In ast mk events) (hd : d.In ast mk events) (hne : c ≠ d)
    (hsolid : firstOffset c.body = some o) (ho : d.offset? = some o) :
    (∃ x y, d.Inside c x y) ∨ (∃ x y, c.Inside d x y) ∨ ∃ x, d.Precedes c x := by
  have hmarker : c.marker ≠ d.marker := fun heq => hne (hc.eq_of_marker hd h.nodup heq)
  rcases hc.nested_or_apart hd hmarker with hin | hin | ⟨x, hx⟩ | hbehind
  · exact .inl hin
  · exact .inr (.inl hin)
  · exact absurd ho (hx.ne_offset hd ha hsolid)
  · exact .inr (.inr hbehind)

/-- Two constructs at one offset are nested if there are tokens in both of them. -/
theorem nested (h : ScriptRecorded ast mk events root parts) (ha : Ascending events)
    (hc : c.In ast mk events) (hd : d.In ast mk events) (hne : c ≠ d)
    (ho : firstOffset c.body = some o) (ho' : firstOffset d.body = some o) :
    (∃ x y, d.Inside c x y) ∨ ∃ x y, c.Inside d x y := by
  rcases h.nested_or_behind ha hc hd hne ho (Construct.offset?_of_body ho') with hin | hin | ⟨x, hx⟩
  · exact .inl hin
  · exact .inr hin
  · exact absurd (Construct.offset?_of_body ho) (hx.ne_offset hc ha ho')

/-- A construct with a token in it is in any construct at its offset that ends later. -/
theorem inside_of_stop_lt (h : ScriptRecorded ast mk events root parts) (ha : Ascending events)
    (hc : c.In ast mk events) (hd : d.In ast mk events) (ho : firstOffset c.body = some o)
    (ho' : d.offset? = some o) (hlt : c.stop < d.stop) : ∃ x y, c.Inside d x y := by
  have hne : c ≠ d := fun heq => Nat.lt_irrefl _ (heq ▸ hlt)
  rcases h.nested_or_behind ha hc hd hne ho ho' with ⟨x, y, hin⟩ | hin | ⟨x, hx⟩
  · exact absurd hin.lt.2 (Nat.lt_asymm hlt)
  · exact hin
  · have := hx.le
    have := c.start_lt_stop
    omega

/-- Nothing is in a construct that consists of tokens. -/
theorem not_inside_tokens {ts : List Token} (hbody : c.body = ts.map .token) :
    ¬ d.Inside c p q := by
  intro hin
  have hmem : Event.start d.marker ∈ ts.map Event.token := by
    rw [← hbody, hin.body]
    simp [Construct.whole]
  simp at hmem

/-- A construct of tokens has its key for itself among those of tokens. -/
theorem tokens_unique {ts us : List Token} (h : ScriptRecorded ast mk events root parts)
    (ha : Ascending events) (hc : c.In ast mk events) (hd : d.In ast mk events)
    (hcbody : c.body = ts.map .token) (hdbody : d.body = us.map .token)
    (hcsome : firstOffset c.body ≠ none) (hdsome : firstOffset d.body ≠ none)
    (hoffset : c.offset? = d.offset?) : c = d := by
  obtain ⟨o, ho⟩ := Option.ne_none_iff_exists'.mp hcsome
  obtain ⟨o', ho'⟩ := Option.ne_none_iff_exists'.mp hdsome
  have hco := Construct.offset?_of_body ho
  by_contra hne
  rcases h.nested_or_behind ha hc hd hne ho (hoffset ▸ hco) with ⟨x, y, hin⟩ | ⟨x, y, hin⟩ | ⟨x, hx⟩
  · exact not_inside_tokens hcbody hin
  · exact not_inside_tokens hdbody hin
  · refine hx.ne_offset hc ha ho' ?_
    rw [hoffset]
    exact Construct.offset?_of_body ho'

/-- A name has its key for itself. -/
theorem name_unique {text : String} {kind : NameKind} (h : ScriptRecorded ast mk events root parts)
    (ha : Ascending events) (hc : c.In ast mk events) (hd : d.In ast mk events)
    (hname : c.data = .name text kind) (hkind : NodeKind.of? c.data = NodeKind.of? d.data)
    (hoffset : c.offset? = d.offset?) : c = d := by
  have hleaf : ∀ {x : Construct}, x.In ast mk events → x.data.isNameOrType = true →
      firstOffset x.body ≠ none ∧ ∃ ts : List Token, x.body = ts.map .token := by
    intro x hx hdata
    rcases h.displayed hx with ⟨-, hroot⟩ | ⟨-, hoffset, hbody⟩ | hshown
    · rw [hroot] at hdata
      cases hdata
    · exact ⟨hoffset, hbody⟩
    · cases hx' : x.data with
      | name | type =>
        rw [hx'] at hshown
        exact hshown.elim
      | _ =>
        rw [hx'] at hdata
        cases hdata
  have hdname : d.data.isNameOrType = true := by
    rw [hname] at hkind
    cases hdata : d.data with
    | name => rfl
    | type => rfl
    | _ =>
      rw [hdata] at hkind
      cases kind <;> cases hkind
  obtain ⟨hcsome, ts, hcbody⟩ := hleaf hc (by rw [hname]; rfl)
  obtain ⟨hdsome, us, hdbody⟩ := hleaf hd hdname
  exact h.tokens_unique ha hc hd hcbody hdbody hcsome hdsome hoffset

/-- An identifier consists of tokens. -/
theorem identifier_body {name : String} (h : ScriptRecorded ast mk events root parts)
    (hc : c.In ast mk events) (hdata : c.data = .identifier name) :
    firstOffset c.body ≠ none ∧ ∃ ts : List Token, c.body = ts.map .token := by
  have hshown := h.shown hc (by rw [hdata]; rfl) (by simp [hdata])
  rwa [hdata] at hshown

/-- An identifier has its key for itself. -/
theorem identifier_unique {name : String} (h : ScriptRecorded ast mk events root parts)
    (ha : Ascending events) (hc : c.In ast mk events) (hd : d.In ast mk events)
    (hdata : c.data = .identifier name) (hkind : NodeKind.of? c.data = NodeKind.of? d.data)
    (hoffset : c.offset? = d.offset?) : c = d := by
  obtain ⟨name', hddata⟩ := NodeData.eq_identifier (hkind.symm.trans (by rw [hdata]; rfl))
  obtain ⟨hcsome, ts, hcbody⟩ := h.identifier_body hc hdata
  obtain ⟨hdsome, us, hdbody⟩ := h.identifier_body hd hddata
  exact h.tokens_unique ha hc hd hcbody hdbody hcsome hdsome hoffset

/-- No variable is declared at the start of another one. -/
theorem varDecl_not_inside {decl decl' : NodeId} (h : ScriptRecorded ast mk events root parts)
    (ha : Ascending events) (hc : c.In ast mk events) (hd : d.In ast mk events)
    (hcdata : c.data = .varDecl decl) (hddata : d.data = .varDecl decl')
    (ho : c.offset? = some o) (ho' : d.offset? = some o) : ¬ d.Inside c p q := by
  intro hin
  have hnone := hin.firstOffset_eq_none hd ha ho ho'
  have hkind : (mk d.marker).kind = some .varDecl := by rw [hd.means.kind, hddata, NodeKind.of?]
  have hfirst : .start d.marker ∈ overture c.body := by
    rw [hin.body, List.append_assoc, overture_append_of_none hnone]
    refine List.mem_append_right _ ?_
    simp [Construct.whole, overture, Event.significantOffset?]
  have hshown := h.shown hc (by rw [hcdata]; rfl) (by simp [hcdata])
  rw [hcdata] at hshown
  exact hshown.2.2 _ hfirst hkind

/-- Two variables that stand one behind the other have a token between their starts: the first one
    holds it, or the second one follows on a parenthesis or a comma. -/
theorem varDecl_not_behind {decl decl' : NodeId} (h : ScriptRecorded ast mk events root parts)
    (ha : Ascending events) (hc : c.In ast mk events) (hd : d.In ast mk events)
    (hcdata : c.data = .varDecl decl) (hddata : d.data = .varDecl decl')
    (ho : c.offset? = some o) (ho' : d.offset? = some o) : ¬ c.Precedes d p := by
  intro hx
  obtain ⟨hbody, hbetween⟩ := hx.firstOffset_eq_none hd ha ho ho'
  have hckind : (mk c.marker).kind = some .varDecl := by rw [hc.means.kind, hcdata, NodeKind.of?]
  have hdkind : (mk d.marker).kind = some .varDecl := by rw [hd.means.kind, hddata, NodeKind.of?]
  have hfirst := (h.announces _ _ _ hc.split hckind).held
  have hsecond := (h.announces _ _ _ hd.split hdkind).led
  have hahead : tokensIn (c.body ++ .stop c.marker :: c.after) =
      tokensIn (c.body ++ .stop c.marker :: p) ++
        tokensIn (d.body ++ .stop d.marker :: d.after) := by
    rw [hx.after, ← tokensIn_append]
    simp [Construct.whole, tokensIn_append]
  have hgap : firstOffset (c.body ++ .stop c.marker :: p) = none := by
    rw [firstOffset_append, hbody]
    exact hbetween
  rw [hahead, List.append_assoc, startsVar_append hgap, hc.means.offset, hbody] at hfirst
  rcases hsecond with hstarts | hbehind
  · exact hfirst hstarts rfl
  · have hbefore : d.before = (c.before ++ .start c.marker :: c.body) ++ .stop c.marker :: p := by
      rw [hx.before]
      simp [Construct.whole]
    rw [hbefore] at hbehind
    exact not_behindToken hbetween hbehind

/-- A variable has its key for itself. -/
theorem varDecl_unique {decl decl' : NodeId} (h : ScriptRecorded ast mk events root parts)
    (ha : Ascending events) (hc : c.In ast mk events) (hd : d.In ast mk events)
    (hcdata : c.data = .varDecl decl) (hddata : d.data = .varDecl decl')
    (ho : c.offset? = some o) (ho' : d.offset? = some o) : c = d := by
  by_contra hne
  have hmarker : c.marker ≠ d.marker := fun heq => hne (hc.eq_of_marker hd h.nodup heq)
  rcases hc.nested_or_apart hd hmarker with ⟨x, y, hin⟩ | ⟨x, y, hin⟩ | ⟨x, hx⟩ | ⟨x, hx⟩
  · exact h.varDecl_not_inside ha hc hd hcdata hddata ho ho' hin
  · exact h.varDecl_not_inside ha hd hc hddata hcdata ho' ho hin
  · exact h.varDecl_not_behind ha hc hd hcdata hddata ho ho' hx
  · exact h.varDecl_not_behind ha hd hc hddata hcdata ho' ho hx

end ScriptRecorded

/-- A class that leads to a name has one. -/
theorem ScriptRecorded.class_named {ast : Ast} {mk : MarkerId → Marker} {events : List Event}
    {root : Nat} {parts : ScriptParts} {c : Construct} {file : FileId} {decl : ClassDecl}
    {key : AstKey} (h : ScriptRecorded ast mk events root parts) (hc : c.In ast mk events)
    (hdata : c.data = .classDecl decl) (hscript : decl.isScript = false)
    (hkey : Assembly.nameKey? file mk (mk c.marker) = some key) :
    decl.name ≠ "" := by
  obtain ⟨-, hnameless⟩ := h.class_shown hc hdata hscript
  intro hempty
  rw [Assembly.nameKey?_of_none (hnameless hempty)] at hkey
  cases hkey

/-! ### What the indexes tell -/

namespace Assembly.Coherent

variable {a : Assembly} {file : FileId} {ast : Ast} {mk : MarkerId → Marker} {events : List Event}
  {cs : List (Construct × TreeId)} {root : Nat} {parts : ScriptParts} {c d : Construct}
  {x y : Construct × TreeId} {key : AstKey} {n : NodeId}

theorem latest?_eq (cs : List (Construct × TreeId)) (key : AstKey) :
    latest? (cs.map fun x => x.1.entry file mk x.2) key =
      (cs.find? fun x => x.1.key file = key).map fun x => x.1.entry file mk x.2 := by
  unfold latest?
  rw [List.find?_map]
  rfl

theorem isIn (h : a.Coherent file ast mk events cs) (hx : x ∈ cs) :
    x.1.In ast mk events ∧ x.1.Keyed := (h.mem_iff x.1).mp ⟨x.2, hx⟩

theorem node_eq (h : a.Coherent file ast mk events cs) (key : AstKey) :
    a.nodes[key]? = (cs.find? fun x => x.1.key file = key).map fun x => x.1.node := by
  rw [h.indexed.node, latest?_eq, Option.map_map]
  rfl

theorem place_eq (h : a.Coherent file ast mk events cs) (key : AstKey) :
    a.treeNodes[key]? = (cs.find? fun x => x.1.key file = key).map Prod.snd := by
  rw [h.indexed.place, latest?_eq, Option.map_map]
  rfl

/-- A key leads to the construct with this key that ends last. -/
theorem latest (h : a.Coherent file ast mk events cs) (hx : x ∈ cs) :
    ∃ y, (cs.find? fun z => z.1.key file = x.1.key file) = some y ∧ y ∈ cs ∧
      y.1.key file = x.1.key file ∧ (y = x ∨ x.1.stop < y.1.stop) := by
  obtain ⟨y, hy⟩ : ∃ y, (cs.find? fun z => z.1.key file = x.1.key file) = some y := by
    rw [← Option.isSome_iff_exists, List.find?_isSome]
    exact ⟨x, hx, by simp⟩
  obtain ⟨hkey, earlier, later, hcs, hearlier⟩ := List.find?_eq_some_iff_append.mp hy
  refine ⟨y, hy, List.mem_of_find?_eq_some hy, by simpa using hkey, ?_⟩
  have hdescending := h.descending
  rw [hcs] at hx hdescending
  rcases List.mem_append.mp hx with hx | hx
  · simpa using hearlier x hx
  · rcases List.mem_cons.mp hx with rfl | hx
    · exact .inl rfl
    · have hlater := (List.pairwise_append.mp hdescending).2.1
      exact .inr (List.rel_of_pairwise_cons hlater hx)

/-- Constructs with one key have one kind and one offset. -/
theorem same_key (h : a.Coherent file ast mk events cs) (hx : x ∈ cs) (hy : y ∈ cs)
    (hkey : x.1.key file = y.1.key file) :
    NodeKind.of? x.1.data = NodeKind.of? y.1.data ∧ x.1.offset? = y.1.offset? := by
  obtain ⟨kind, hkind⟩ := Option.ne_none_iff_exists'.mp (h.isIn hx).1.means.known
  obtain ⟨kind', hkind'⟩ := Option.ne_none_iff_exists'.mp (h.isIn hy).1.means.known
  obtain ⟨o, ho⟩ := Option.ne_none_iff_exists'.mp (h.offset x hx)
  obtain ⟨o', ho'⟩ := Option.ne_none_iff_exists'.mp (h.offset y hy)
  have hkinds := congrArg AstKey.kind hkey
  have hoffsets := congrArg AstKey.offset hkey
  simp only [Construct.key, hkind, hkind', ho, ho', Option.getD_some] at hkinds hoffsets
  rw [hkind, hkind', ho, ho', hkinds, hoffsets]
  exact ⟨rfl, rfl⟩

/-- A construct that has its key for itself is found by it. -/
theorem found_of_unique (h : a.Coherent file ast mk events cs) (hc : c.In ast mk events)
    (hkeyed : c.Keyed) (hunique : ∀ d : Construct, d.In ast mk events →
      NodeKind.of? c.data = NodeKind.of? d.data → c.offset? = d.offset? →
        c.offset? ≠ none → c = d) :
    ∃ place, (c, place) ∈ cs ∧ a.nodes[c.key file]? = some c.node ∧
      a.treeNodes[c.key file]? = some place := by
  obtain ⟨place, hmem⟩ := (h.mem_iff c).mpr ⟨hc, hkeyed⟩
  obtain ⟨y, hfind, hy, hkey, -⟩ := h.latest hmem
  obtain ⟨hkind, hoffset⟩ := h.same_key hmem hy hkey.symm
  obtain rfl : c = y.1 := hunique y.1 (h.isIn hy).1 hkind hoffset (h.offset _ hmem)
  refine ⟨y.2, hy, ?_, ?_⟩
  · rw [h.node_eq, hfind, Option.map_some]
  · rw [h.place_eq, hfind, Option.map_some]

theorem node_of_unique (h : a.Coherent file ast mk events cs) (hc : c.In ast mk events)
    (hkeyed : c.Keyed) (hunique : ∀ d : Construct, d.In ast mk events →
      NodeKind.of? c.data = NodeKind.of? d.data → c.offset? = d.offset? →
        c.offset? ≠ none → c = d) :
    a.nodes[c.key file]? = some c.node := by
  obtain ⟨-, -, hnode, -⟩ := h.found_of_unique hc hkeyed hunique
  exact hnode

theorem node_of_name {text : String} {kind : NameKind} (h : a.Coherent file ast mk events cs)
    (hs : ScriptRecorded ast mk events root parts) (ha : Ascending events) (hc : c.In ast mk events)
    (hname : c.data = .name text kind) : a.nodes[c.key file]? = some c.node := by
  refine h.node_of_unique hc (fun params body => by simp [hname]) fun d hd hkind hoffset _ => ?_
  exact hs.name_unique ha hc hd hname hkind hoffset

theorem found_of_varDecl {decl : NodeId} (h : a.Coherent file ast mk events cs)
    (hs : ScriptRecorded ast mk events root parts) (ha : Ascending events) (hc : c.In ast mk events)
    (hdata : c.data = .varDecl decl) : ∃ place, (c, place) ∈ cs ∧
      a.nodes[c.key file]? = some c.node ∧ a.treeNodes[c.key file]? = some place := by
  refine h.found_of_unique hc (fun params body => by simp [hdata])
    fun d hd hkind hoffset hsome => ?_
  obtain ⟨o, ho⟩ := Option.ne_none_iff_exists'.mp hsome
  obtain ⟨decl', hddata⟩ := NodeData.eq_varDecl (hkind.symm.trans (by rw [hdata]; rfl))
  exact hs.varDecl_unique ha hc hd hdata hddata ho (hoffset ▸ ho)

theorem node_of_varDecl {decl : NodeId} (h : a.Coherent file ast mk events cs)
    (hs : ScriptRecorded ast mk events root parts) (ha : Ascending events) (hc : c.In ast mk events)
    (hdata : c.data = .varDecl decl) : a.nodes[c.key file]? = some c.node := by
  obtain ⟨-, -, hnode, -⟩ := h.found_of_varDecl hs ha hc hdata
  exact hnode

theorem found_of_identifier {name : String} (h : a.Coherent file ast mk events cs)
    (hs : ScriptRecorded ast mk events root parts) (ha : Ascending events) (hc : c.In ast mk events)
    (hdata : c.data = .identifier name) : ∃ place, (c, place) ∈ cs ∧
      a.nodes[c.key file]? = some c.node ∧ a.treeNodes[c.key file]? = some place :=
  h.found_of_unique hc (fun params body => by simp [hdata]) fun _ hd hkind hoffset _ =>
    hs.identifier_unique ha hc hd hdata hkind hoffset

end Assembly.Coherent

/-! ### Keys and nodes -/

/-- A class with a name, other than that of a script. -/
def Ast.IsNamedClass (ast : Ast) (n : NodeId) : Prop :=
  ∃ c, ast.data? n = some (.classDecl c) ∧ c.isScript = false ∧ c.name ≠ ""

/-- A function with this name, or a class with it other than that of a script. -/
def Ast.Declares (ast : Ast) (n : NodeId) (name : String) : Prop :=
  (∃ f, ast.data? n = some (.funDeclExpr f) ∧ f.name = name) ∨
    ∃ c, ast.data? n = some (.classDecl c) ∧ c.isScript = false ∧ c.name ≠ "" ∧ c.name = name

/-- The indexes of a script agree with each other. -/
structure Assembly.Agrees (a : Assembly) (ast : Ast) : Prop where
  same_keys : ∀ key, key ∈ a.nodes ↔ key ∈ a.treeNodes
  place_inj : ∀ (key key' : AstKey) (place : TreeId), a.treeNodes[key]? = some place →
    a.treeNodes[key']? = some place →
    key = key'
  place_kind : ∀ (key : AstKey) (place : TreeId), a.treeNodes[key]? = some place →
    a.tree.kind place = .node key.kind
  /-- The key of a node leads back to it, to the statement around it, or to its name. -/
  back : ∀ (n : NodeId) (key : AstKey), a.nodeKeys[n]? = some key → ∃ m, a.nodes[key]? = some m ∧
    (m = n ∨ ast.data? m = some (.varDecl n) ∨
      ∃ name kind, ast.data? m = some (.name name kind) ∧ ast.Declares n name)
  /-- The node that a key leads to has this key, unless it is reached by its name. -/
  forth : ∀ (key : AstKey) (n : NodeId), a.nodes[key]? = some n → ¬ ast.IsNamedClass n →
    a.nodeKeys[n]? = some key

namespace Assembly.Coherent

variable {a : Assembly} {file : FileId} {ast : Ast} {mk : MarkerId → Marker} {events : List Event}
  {cs : List (Construct × TreeId)} {root : Nat} {parts : ScriptParts} {c : Construct}
  {x : Construct × TreeId} {key : AstKey} {n : NodeId}

/-- The alias of a construct leads to the statement of a variable or to a name. -/
theorem node_of_alias (h : a.Coherent file ast mk events cs)
    (hs : ScriptRecorded ast mk events root parts) (ha : Ascending events) (hx : x ∈ cs)
    (halias : (x.1.entry file mk x.2).alias? = some (n, key)) :
    ∃ m, a.nodes[key]? = some m ∧ (ast.data? m = some (.varDecl n) ∨
      ∃ name kind, ast.data? m = some (.name name kind) ∧ ast.Declares n name) := by
  obtain ⟨hin, -⟩ := h.isIn hx
  unfold Construct.entry alias? at halias
  dsimp only at halias
  cases hdata : x.1.data with
  | varDecl decl =>
    rw [hdata] at halias
    obtain ⟨rfl, rfl⟩ := Prod.mk.inj (Option.some.inj halias)
    refine ⟨x.1.node, h.node_of_varDecl hs ha hin hdata, .inl ?_⟩
    rw [hin.found, hdata]
  | funDecl decl =>
    rw [hdata] at halias
    obtain ⟨key', hkey, hpair⟩ := Option.map_eq_some_iff.mp halias
    obtain ⟨rfl, rfl⟩ := Prod.mk.inj hpair
    obtain ⟨f, hf⟩ := hs.function_of_statement hin hdata
    obtain ⟨d, hd, -⟩ := hs.name_of_function hin hdata hf file
    obtain rfl := Option.some.inj (hkey.symm.trans hd.key)
    exact ⟨d.node, h.node_of_name hs ha hd.isIn hd.data,
      .inr ⟨f.name, _, hd.data_eq, .inl ⟨f, hf, rfl⟩⟩⟩
  | classDecl decl =>
    rw [hdata] at halias
    dsimp only at halias
    cases hscript : decl.isScript with
    | true =>
      rw [hscript] at halias
      cases halias
    | false =>
      rw [hscript] at halias
      obtain ⟨key', hkey, hpair⟩ := Option.map_eq_some_iff.mp halias
      obtain ⟨rfl, rfl⟩ := Prod.mk.inj hpair
      have hnamed := hs.class_named hin hdata hscript hkey
      obtain ⟨d, hd⟩ := hs.name_of_class hin hdata hscript hnamed file
      obtain rfl := Option.some.inj (hkey.symm.trans hd.key)
      refine ⟨d.node, h.node_of_name hs ha hd.isIn hd.data,
        .inr ⟨decl.name, _, hd.data_eq, .inr ⟨decl, ?_, hscript, hnamed, rfl⟩⟩⟩
      rw [hin.found, hdata]
  | _ =>
    rw [hdata] at halias
    cases halias

/-- The alias of a construct is its own only if it is a class with a name. -/
theorem isNamedClass_of_alias (h : a.Coherent file ast mk events cs)
    (hs : ScriptRecorded ast mk events root parts) (hx : x ∈ cs)
    (halias : (x.1.entry file mk x.2).alias? = some (x.1.node, key)) :
    ast.IsNamedClass x.1.node := by
  obtain ⟨hin, -⟩ := h.isIn hx
  have hnone : x.1.data.declared? ≠ some x.1.node := by
    intro hdecl
    have hproper := (hs.isDecl hin hdecl).declared?
    rw [hin.found, Option.bind_some, hdecl] at hproper
    cases hproper
  rcases Construct.alias_cases halias with hdecl | ⟨-, hkey, decl, hdata, hscript⟩
  · exact absurd hdecl hnone
  · exact ⟨decl, by rw [hin.found, hdata], hscript, hs.class_named hin hdata hscript hkey⟩

/-- The indexes of a script agree. -/
theorem agrees (h : a.Coherent file ast mk events cs)
    (hs : ScriptRecorded ast mk events root parts) (ha : Ascending events) : a.Agrees ast where
  same_keys key := by
    rw [Std.TreeMap.mem_iff_isSome_getElem?, Std.TreeMap.mem_iff_isSome_getElem?, h.node_eq,
      h.place_eq, Option.isSome_map, Option.isSome_map]
  place_inj key key' place hkey hkey' := by
    rw [h.place_eq] at hkey hkey'
    obtain ⟨x, hx, rfl⟩ := Option.map_eq_some_iff.mp hkey
    obtain ⟨y, hy, hplace⟩ := Option.map_eq_some_iff.mp hkey'
    have heq := List.inj_on_of_nodup_map h.places (List.mem_of_find?_eq_some hx)
      (List.mem_of_find?_eq_some hy) hplace.symm
    have hxkey := List.find?_some hx
    have hykey := List.find?_some hy
    rw [heq] at hxkey
    exact (of_decide_eq_true hxkey).symm.trans (of_decide_eq_true hykey)
  place_kind key place hkey := by
    rw [h.place_eq] at hkey
    obtain ⟨x, hx, rfl⟩ := Option.map_eq_some_iff.mp hkey
    have hxkey := List.find?_some hx
    rw [h.kind x (List.mem_of_find?_eq_some hx), of_decide_eq_true hxkey]
  back n key hkey := by
    rcases (h.indexed.nodeKey n key).mp hkey with ⟨e, he, halias⟩ | ⟨e, hlatest, hnode, -⟩
    · obtain ⟨x, hx, rfl⟩ := List.mem_map.mp he
      obtain ⟨m, hm, hcases⟩ := h.node_of_alias hs ha hx halias
      exact ⟨m, hm, .inr hcases⟩
    · refine ⟨n, ?_, .inl rfl⟩
      rw [h.indexed.node, hlatest, Option.map_some, hnode]
  forth key n hnode hnot := by
    rw [h.indexed.node] at hnode
    obtain ⟨e, hlatest, rfl⟩ := Option.map_eq_some_iff.mp hnode
    refine (h.indexed.nodeKey _ _).mpr (.inr ⟨e, hlatest, rfl, fun key' halias => hnot ?_⟩)
    obtain ⟨x, hx, rfl⟩ := List.mem_map.mp (mem_of_latest? hlatest)
    exact h.isNamedClass_of_alias hs hx halias

/-! ### The keys of declarations -/

/-- A variable has the key of its statement. -/
theorem key_of_variable {decl : NodeId} (h : a.Coherent file ast mk events cs)
    (hs : ScriptRecorded ast mk events root parts) (ha : Ascending events) (hc : c.In ast mk events)
    (hdata : c.data = .varDecl decl) :
    ∃ key, a.nodeKeys[decl]? = some key ∧ a.nodes[key]? = some c.node := by
  obtain ⟨place, hmem⟩ := (h.mem_iff c).mpr ⟨hc, fun params body => by simp [hdata]⟩
  refine ⟨c.key file, ?_, h.node_of_varDecl hs ha hc hdata⟩
  refine (h.indexed.nodeKey _ _).mpr (.inl ⟨_, List.mem_map_of_mem hmem, ?_⟩)
  unfold Construct.entry
  rw [hdata]
  rfl

/-- The statement that declares a variable has a key that leads back to it. -/
theorem key_of_varDecl {decl : NodeId} (h : a.Coherent file ast mk events cs)
    (hs : ScriptRecorded ast mk events root parts) (ha : Ascending events) (hc : c.In ast mk events)
    (hdata : c.data = .varDecl decl) :
    ∃ key, a.nodeKeys[c.node]? = some key ∧ a.nodes[key]? = some c.node := by
  have hnode := h.node_of_varDecl hs ha hc hdata
  refine ⟨c.key file, (h.agrees hs ha).forth _ _ hnode ?_, hnode⟩
  rintro ⟨decl', hclass, -⟩
  rw [hc.found, hdata] at hclass
  cases hclass

/-- A function has the key of its name. -/
theorem key_of_function {decl : NodeId} {f : FunDecl} (h : a.Coherent file ast mk events cs)
    (hs : ScriptRecorded ast mk events root parts) (ha : Ascending events) (hc : c.In ast mk events)
    (hdata : c.data = .funDecl decl) (hf : ast.data? decl = some (.funDeclExpr f)) :
    ∃ key d, a.nodeKeys[decl]? = some key ∧ a.nodes[key]? = some d.node ∧
      c.IsNameOf file ast mk events d f.name f.nameKind := by
  obtain ⟨place, hmem⟩ := (h.mem_iff c).mpr ⟨hc, fun params body => by simp [hdata]⟩
  obtain ⟨d, hd, -⟩ := hs.name_of_function hc hdata hf file
  refine ⟨d.key file, d, ?_, h.node_of_name hs ha hd.isIn hd.data, hd⟩
  refine (h.indexed.nodeKey _ _).mpr (.inl ⟨_, List.mem_map_of_mem hmem, ?_⟩)
  unfold Construct.entry alias?
  rw [hdata, hd.key]
  rfl

/-- A class with a name has the key of the name. -/
theorem key_of_class {decl : ClassDecl} (h : a.Coherent file ast mk events cs)
    (hs : ScriptRecorded ast mk events root parts) (ha : Ascending events) (hc : c.In ast mk events)
    (hdata : c.data = .classDecl decl) (hscript : decl.isScript = false) (hname : decl.name ≠ "") :
    ∃ key d, a.nodeKeys[c.node]? = some key ∧ a.nodes[key]? = some d.node ∧
      c.IsNameOf file ast mk events d decl.name .ofClass := by
  obtain ⟨place, hmem⟩ := (h.mem_iff c).mpr ⟨hc, fun params body => by simp [hdata]⟩
  obtain ⟨d, hd⟩ := hs.name_of_class hc hdata hscript hname file
  refine ⟨d.key file, d, ?_, h.node_of_name hs ha hd.isIn hd.data, hd⟩
  refine (h.indexed.nodeKey _ _).mpr (.inl ⟨_, List.mem_map_of_mem hmem, ?_⟩)
  unfold Construct.entry alias?
  rw [hdata, hd.key]
  simp [hscript]

/-- The class of the script has a key that leads back to it, since it is around everything else. -/
theorem key_of_script (h : a.Coherent file ast mk events cs)
    (hs : ScriptRecorded ast mk events root parts) (ha : Ascending events) :
    ∃ key, a.nodeKeys[root]? = some key ∧ a.nodes[key]? = some root := by
  obtain ⟨c, hc, hmarker⟩ := hs.construct_of_script
  obtain rfl : c.node = root := by
    have hnode := hc.means.node
    rw [hmarker, hs.means.node] at hnode
    exact (Option.some.inj hnode).symm
  have hdata : c.data = .classDecl parts.decl :=
    Option.some.inj (hc.found.symm.trans hs.data_root)
  obtain ⟨place, hmem⟩ := (h.mem_iff c).mpr ⟨hc, fun params body => by simp [hdata]⟩
  obtain ⟨y, hfind, hy, hkey, hlatest⟩ := h.latest hmem
  rcases hlatest with rfl | hlt
  · have hfound : a.nodes[c.key file]? = some c.node := by
      rw [h.node_eq, hfind, Option.map_some]
    refine ⟨c.key file, (h.agrees hs ha).forth _ _ hfound ?_, hfound⟩
    rintro ⟨decl, hclass, hscript, -⟩
    obtain rfl := NodeData.classDecl.inj (Option.some.inj (hs.data_root.symm.trans hclass))
    rw [hs.script.isScript] at hscript
    cases hscript
  · exact absurd ((h.isIn hy).1.stop_le) (Nat.not_le.mpr (hs.stop_of_script hc hmarker ▸ hlt))

end Assembly.Coherent

/-! ### Markers with one key -/

/-- The marker `m`, from the event `i` to the event `j`, has a key of this kind with this offset and
    stands for the node `n`.  It became a node of the tree, and there is a token in it that is no
    trivia. -/
structure Transcript.Marks (t : Transcript) (ast : Ast) (kind : NodeKind) (offset : Nat)
    (m : MarkerId) (n : NodeId) (i j : Nat) : Prop where
  start : t.events[i]? = some (.start m)
  stop : t.events[j]? = some (.stop m)
  done : (t.marker m).state = .done
  node : (t.marker m).node = some n
  not_noop : ast.data? n ≠ some .noop
  not_block : ∀ params body, ast.data? n ≠ some (.closure params body true)
  solid : firstOffset ((t.events.drop i).take (j - i)) ≠ none
  kind_eq : (t.marker m).kind = some kind
  offset_eq : (t.marker m).offset.or (firstOffset (t.events.drop (i + 1))) = some offset

/-- What occurs once in a list has one position. -/
theorem position_unique {α β : Type} {f : α → Option β} {l : List α} {i j : Nat} {x y : α} {v : β}
    (hnodup : (l.filterMap f).Nodup) (hi : l[i]? = some x) (hj : l[j]? = some y)
    (hx : f x = some v) (hy : f y = some v) : i = j := by
  obtain ⟨hlt, rfl⟩ := List.getElem?_eq_some_iff.mp hi
  obtain ⟨hlt', rfl⟩ := List.getElem?_eq_some_iff.mp hj
  have hsplit := fun (k : Nat) (hk : k < l.length) => (List.take_append_drop k l).symm.trans
    (congrArg (l.take k ++ ·) (List.drop_eq_getElem_cons hk))
  have htake := (split_unique hnodup (hsplit i hlt) (hsplit j hlt') hx hy).1
  have hlength := congrArg List.length htake
  rw [List.length_take_of_le hlt.le, List.length_take_of_le hlt'.le] at hlength
  exact hlength

namespace Construct.In

variable {ast : Ast} {t : Transcript} {c : Construct} {file : FileId}

theorem drop_start (hc : c.In ast t.marker t.events) :
    t.events.drop c.start = .start c.marker :: (c.body ++ .stop c.marker :: c.after) := by
  rw [hc.split, Construct.start, List.drop_left]

theorem firstOffset_range (hc : c.In ast t.marker t.events) :
    firstOffset ((t.events.drop c.start).take (c.stop - 1 - c.start)) = firstOffset c.body := by
  have hlength : c.stop - 1 - c.start = c.body.length + 1 := by
    unfold Construct.stop
    rw [Construct.length_whole]
    omega
  rw [hc.drop_start, hlength, List.take_succ_cons, List.take_left]
  rfl

/-- A construct with a token in it that is no trivia is marked so. -/
theorem marks {kind : NodeKind} {offset : Nat} (hc : c.In ast t.marker t.events) (hkeyed : c.Keyed)
    (hkind : NodeKind.of? c.data = some kind) (hoffset : firstOffset c.body = some offset) :
    t.Marks ast kind offset c.marker c.node c.start (c.stop - 1) where
  start := hc.getElem?_start
  stop := hc.getElem?_stop
  done := hc.means.state
  node := hc.means.node
  not_noop := by
    rw [hc.found]
    intro hnoop
    exact hc.means.known (by rw [Option.some.inj hnoop]; rfl)
  not_block params body := by
    rw [hc.found]
    exact fun hblock => hkeyed params body (Option.some.inj hblock)
  solid := by
    rw [hc.firstOffset_range, hoffset]
    exact Option.some_ne_none _
  kind_eq := hc.means.kind.trans hkind
  offset_eq := by
    rw [hc.means.offset, hoffset]
    rfl

end Construct.In

/-- A marker with a key belongs to a construct. -/
theorem ScriptRecorded.construct_of_marks {t : Transcript} {ast : Ast} {root : Nat}
    {parts : ScriptParts} {kind : NodeKind} {offset : Nat} {m : MarkerId} {n : NodeId} {i j : Nat}
    (h : ScriptRecorded ast t.marker t.events root parts) (hm : t.Marks ast kind offset m n i j) :
    ∃ c : Construct, c.In ast t.marker t.events ∧ c.Keyed ∧ c.marker = m ∧ c.node = n ∧
      c.start = i ∧ c.stop - 1 = j ∧ NodeKind.of? c.data = some kind ∧
      firstOffset c.body = some offset := by
  obtain ⟨c, hmarker, hin, -⟩ := h.construct (List.mem_of_getElem? hm.start) hm.node
  subst hmarker
  obtain rfl : c.node = n := Option.some.inj (hin.means.node.symm.trans hm.node)
  obtain rfl : c.start = i := position_unique h.nodup hin.getElem?_start hm.start rfl rfl
  obtain rfl : c.stop - 1 = j := position_unique h.nodup_stopped hin.getElem?_stop hm.stop rfl rfl
  refine ⟨c, hin, fun params body hblock => ?_, rfl, rfl, rfl, rfl, ?_, ?_⟩
  · exact hm.not_block params body (hin.found.trans (congrArg some hblock))
  · exact hin.means.kind.symm.trans hm.kind_eq
  · have hsolid := hm.solid
    rw [hin.firstOffset_range] at hsolid
    obtain ⟨o, ho⟩ := Option.ne_none_iff_exists'.mp hsolid
    have hoffset := hm.offset_eq
    rw [hin.means.offset, ho] at hoffset
    rw [ho]
    exact hoffset

/-- The construct that a key leads to holds all others with this key that have a token in them. -/
theorem Assembly.Coherent.outermost {a : Assembly} {file : FileId} {ast : Ast}
    {mk : MarkerId → Marker} {events : List Event} {cs : List (Construct × TreeId)} {root : Nat}
    {parts : ScriptParts} {c : Construct} {kind : NodeKind} {o : Nat}
    (h : a.Coherent file ast mk events cs) (hs : ScriptRecorded ast mk events root parts)
    (ha : Ascending events) (hc : c.In ast mk events) (hkeyed : c.Keyed)
    (hkind : NodeKind.of? c.data = some kind) (ho : ScriptAnalysis.firstOffset c.body = some o) :
    ∃ d : Construct, a.nodes[(⟨file, kind, o⟩ : AstKey)]? = some d.node ∧ d.In ast mk events ∧
      d.Keyed ∧ NodeKind.of? d.data = some kind ∧ ScriptAnalysis.firstOffset d.body = some o ∧
      (d = c ∨ ∃ x y, c.Inside d x y) := by
  obtain ⟨place, hmem⟩ := (h.mem_iff c).mpr ⟨hc, hkeyed⟩
  obtain ⟨y, hfind, hy, hykey, hlatest⟩ := h.latest hmem
  obtain ⟨hykind, hyoffset⟩ := h.same_key hy hmem hykey
  obtain ⟨hyin, hykeyed⟩ := h.isIn hy
  have hco := Construct.offset?_of_body ho
  have hkey : c.key file = ⟨file, kind, o⟩ := by simp [Construct.key, hkind, hco]
  refine ⟨y.1, by rw [← hkey, h.node_eq, hfind, Option.map_some], hyin, hykeyed,
    hykind.trans hkind, ?_⟩
  rcases hlatest with rfl | hlt
  · exact ⟨ho, .inl rfl⟩
  · obtain ⟨p, q, hin⟩ := hs.inside_of_stop_lt ha hc hyin ho (hyoffset.trans hco) hlt
    exact ⟨hin.firstOffset_body (hin.firstOffset_eq_none hc ha (hyoffset.trans hco) hco) ho,
      .inr ⟨p, q, hin⟩⟩

/-- Every text is parsed, and the indexes of its tree agree.  They tell each node that has a marker
    and each declaration the key by which it is found. -/
theorem Transcript.indexes_agree (file : FileId) (text : String) :
    ∃ p a, parseScript text = .ok p ∧ p.transcript.assemble file p.ast = .ok a ∧
      a.Agrees p.ast := by
  obtain ⟨p, m, body, last, hparse, htokens, hrec⟩ :=
    parseWith_script text (scan_endsWithEof text)
  obtain ⟨a, ha⟩ := hrec.assemble_succeeds file
  obtain ⟨parts, hs⟩ := ScriptRecorded.of_parse hparse
  obtain ⟨cs, hcs⟩ := hs.coherent ha
  exact ⟨p, a, hparse, ha, hcs.agrees hs (ascending_of_scan htokens)⟩

/-- Two markers with one key and with tokens in them are nested, one strictly in the other.  The
    node that a key leads to is that of the outermost marker with this key. -/
theorem Transcript.outermost_marker_wins (file : FileId) (text : String) :
    ∃ p a, parseScript text = .ok p ∧ p.transcript.assemble file p.ast = .ok a ∧
      (∀ kind offset m n i j m' n' i' j', p.transcript.Marks p.ast kind offset m n i j →
        p.transcript.Marks p.ast kind offset m' n' i' j' → m ≠ m' →
        i < i' ∧ j' < j ∨ i' < i ∧ j < j') ∧
      ∀ kind offset, (∃ m n i j, p.transcript.Marks p.ast kind offset m n i j) →
        ∃ m n i j, p.transcript.Marks p.ast kind offset m n i j ∧
          a.nodes[(⟨file, kind, offset⟩ : AstKey)]? = some n ∧
          ∀ m' n' i' j', p.transcript.Marks p.ast kind offset m' n' i' j' → i ≤ i' ∧ j' ≤ j := by
  obtain ⟨p, m, body, last, hparse, htokens, hrec⟩ :=
    parseWith_script text (scan_endsWithEof text)
  obtain ⟨a, ha⟩ := hrec.assemble_succeeds file
  obtain ⟨parts, hs⟩ := ScriptRecorded.of_parse hparse
  obtain ⟨cs, hcs⟩ := hs.coherent ha
  have hascending := ascending_of_scan htokens
  refine ⟨p, a, hparse, ha, ?_, ?_⟩
  · intro kind offset m n i j m' n' i' j' hmarks hmarks' hne
    obtain ⟨c, hc, -, rfl, rfl, rfl, rfl, -, hco⟩ := hs.construct_of_marks hmarks
    obtain ⟨d, hd, -, rfl, rfl, rfl, rfl, -, hdo⟩ := hs.construct_of_marks hmarks'
    have hcstop := c.start_lt_stop
    have hdstop := d.start_lt_stop
    rcases hs.nested hascending hc hd (fun heq => hne (congrArg _ heq)) hco hdo with
      ⟨x, y, hin⟩ | ⟨x, y, hin⟩
    · have := hin.lt
      omega
    · have := hin.lt
      omega
  · rintro kind offset ⟨m, n, i, j, hmarks⟩
    obtain ⟨c, hc, hckeyed, -, -, -, -, hckind, hco⟩ := hs.construct_of_marks hmarks
    obtain ⟨d, hnode, hd, hdkeyed, hdkind, hdo, -⟩ :=
      hcs.outermost hs hascending hc hckeyed hckind hco
    refine ⟨_, _, _, _, hd.marks hdkeyed hdkind hdo, hnode, ?_⟩
    intro m' n' i' j' hmarks'
    obtain ⟨c', hc', hkeyed', rfl, rfl, rfl, rfl, hkind', ho'⟩ := hs.construct_of_marks hmarks'
    obtain ⟨d', hnode', hd', -, -, -, hholds⟩ := hcs.outermost hs hascending hc' hkeyed' hkind' ho'
    -- Both are the construct of the node that the key leads to.
    obtain rfl := hs.eq_of_node hd hd' (Option.some.inj (hnode.symm.trans hnode'))
    rcases hholds with rfl | ⟨x, y, hin⟩
    · exact ⟨Nat.le_refl _, Nat.le_refl _⟩
    · have := hin.lt
      omega

theorem Transcript.marks_of_binary {t : Transcript} {ast : Ast} {offset m n i j l r : Nat}
    {op : BinaryOp} (hstart : t.events[i]? = some (.start m))
    (hstop : t.events[j]? = some (.stop m))
    (hmarker : (t.marker m).state = .done ∧ (t.marker m).node = some n ∧
      (t.marker m).kind = some .binaryExpr ∧ (t.marker m).offset = some offset)
    (hdata : ast.data? n = some (.binary op l r))
    (hsolid : firstOffset ((t.events.drop i).take (j - i)) ≠ none) :
    t.Marks ast .binaryExpr offset m n i j where
  start := hstart
  stop := hstop
  done := hmarker.1
  node := hmarker.2.1
  not_noop := by simp [hdata]
  not_block := by simp [hdata]
  solid := hsolid
  kind_eq := hmarker.2.2.1
  offset_eq := by
    rw [hmarker.2.2.2]
    rfl

/-- A sum and the sum that is its left operand begin with one token and have one key.  Their markers
    are nested, and the key leads to the node of the outer one. -/
theorem Transcript.outer_sum_wins :
    ∃ p a, parseScript "1 + 2 + 3" = .ok p ∧ p.transcript.assemble 0 p.ast = .ok a ∧
      p.transcript.Marks p.ast .binaryExpr 0 5 4 2 20 ∧
      p.transcript.Marks p.ast .binaryExpr 0 3 2 3 13 ∧
      a.nodes[(⟨0, .binaryExpr, 0⟩ : AstKey)]? = some 4 := by
  obtain ⟨p, a, hp, ha, hnested, hwins⟩ := outermost_marker_wins 0 "1 + 2 + 3"
  have houter : p.transcript.Marks p.ast .binaryExpr 0 5 4 2 20 := by
    obtain ⟨hstart, hstop, hmarker, hdata, hsolid⟩ := of_parse hp (P := fun p =>
      p.transcript.events[2]? = some (.start 5) ∧ p.transcript.events[20]? = some (.stop 5) ∧
      ((p.transcript.marker 5).state = .done ∧ (p.transcript.marker 5).node = some 4 ∧
        (p.transcript.marker 5).kind = some .binaryExpr ∧
        (p.transcript.marker 5).offset = some 0) ∧
      p.ast.data? 4 = some (.binary .add 2 3) ∧
      firstOffset ((p.transcript.events.drop 2).take (20 - 2)) ≠ none) (by decide +kernel)
    exact marks_of_binary hstart hstop hmarker hdata hsolid
  have hinner : p.transcript.Marks p.ast .binaryExpr 0 3 2 3 13 := by
    obtain ⟨hstart, hstop, hmarker, hdata, hsolid⟩ := of_parse hp (P := fun p =>
      p.transcript.events[3]? = some (.start 3) ∧ p.transcript.events[13]? = some (.stop 3) ∧
      ((p.transcript.marker 3).state = .done ∧ (p.transcript.marker 3).node = some 2 ∧
        (p.transcript.marker 3).kind = some .binaryExpr ∧
        (p.transcript.marker 3).offset = some 0) ∧
      p.ast.data? 2 = some (.binary .add 0 1) ∧
      firstOffset ((p.transcript.events.drop 3).take (13 - 3)) ≠ none) (by decide +kernel)
    exact marks_of_binary hstart hstop hmarker hdata hsolid
  refine ⟨p, a, hp, ha, houter, hinner, ?_⟩
  obtain ⟨m, n, i, j, hm, hnode, hholds⟩ := hwins .binaryExpr 0 ⟨5, 4, 2, 20, houter⟩
  obtain ⟨hi, hj⟩ := hholds _ _ _ _ houter
  -- Only the script and the statement start before the outer sum, and they are of other kinds.
  obtain ⟨hscript, hstmt, hkinds⟩ := of_parse hp (P := fun p =>
    p.transcript.events[0]? = some (.start 0) ∧ p.transcript.events[1]? = some (.start 1) ∧
    (p.transcript.marker 0).kind = some .classDecl ∧
    (p.transcript.marker 1).kind = some .exprStmt) (by decide +kernel)
  by_cases hsame : m = 5
  · subst hsame
    obtain rfl := Option.some.inj (hm.node.symm.trans houter.node)
    exact hnode
  · have hlt : i < 2 := by
      rcases hnested _ _ _ _ _ _ _ _ _ _ hm houter hsame with h | h <;> omega
    have hstart := hm.start
    have hkind := hm.kind_eq
    obtain rfl | rfl : i = 0 ∨ i = 1 := by omega
    · obtain rfl : 0 = m := by simpa [hscript] using hstart
      simp [hkinds.1] at hkind
    · obtain rfl : 1 = m := by simpa [hstmt] using hstart
      simp [hkinds.2] at hkind

end ScriptAnalysis
