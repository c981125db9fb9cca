import ScriptAnalysis.Proofs.Tree.Coherence

/-!
# The keys of names

The key of a function, and that of a class with a name, leads on to the key of the name, and no
other key does.  For a construct that is neither there is no marker of a name in the first place
(`ScriptRecorded.nameMarker_eq_none`), so where a construct takes over the key of one that ended in
it, the name that was set before is taken away again (`Assembly.Indexed.nameKey`).
-/

namespace ScriptAnalysis

/-! ### Constructs without a name -/

/-- Only functions and classes are looked through for a name. -/
theorem declaredNameKinds_eq_none {data : NodeData} (hfun : ∀ decl, data ≠ .funDecl decl)
    (hclass : ∀ c, data ≠ .classDecl c) : (NodeKind.of? data).bind declaredNameKinds = none := by
  cases data with
  | funDecl decl => exact absurd rfl (hfun decl)
  | classDecl c => exact absurd rfl (hclass c)
  | name text kind => cases kind <;> rfl
  | type type => cases type <;> rfl
  | _ => rfl

namespace ScriptRecorded

variable {ast : Ast} {mk : MarkerId → Marker} {events : List Event} {root : Nat}
  {parts : ScriptParts} {c : Construct}

/-- A construct that is no function and no class with a name declares no name. -/
theorem nameMarker_eq_none (h : ScriptRecorded ast mk events root parts) (hc : c.In ast mk events)
    (hfun : ∀ decl, c.data ≠ .funDecl decl) (hclass : ¬ ast.IsNamedClass c.node) :
    (mk c.marker).nameMarker = none := by
  by_cases hdata : ∃ declared, c.data = .classDecl declared
  · obtain ⟨declared, hdata⟩ := hdata
    rcases h.displayed hc with ⟨hroot, -⟩ | ⟨hname, -⟩ | hshown
    · rw [h.marker_of_root hc hroot]
      exact h.nameless
    · rw [hdata] at hname
      cases hname
    · rw [hdata] at hshown
      obtain ⟨hscript, -, hnameless⟩ := hshown
      refine hnameless ?_
      by_contra hempty
      exact hclass ⟨declared, by rw [hc.found, hdata], hscript, hempty⟩
  · exact hc.means.unnamed (declaredNameKinds_eq_none hfun fun d hd => hdata ⟨d, hd⟩)

end ScriptRecorded

/-! ### What the indexes tell -/

/-- A key leads on to the key of a name with this text, which is a name of this kind. -/
structure Assembly.LeadsToName (a : Assembly) (ast : Ast) (key nameKey : AstKey) (name : String)
    (kind : NameKind) : Prop where
  found : a.nameKeys[key]? = some nameKey
  kind_eq : nameKey.kind = .ofName kind
  node : ∃ n, a.nodes[nameKey]? = some n ∧ ast.data? n = some (.name name kind)

/-- The keys of functions and of classes with a name lead on to their names, and no others do. -/
structure Assembly.NamesDeclarations (a : Assembly) (ast : Ast) : Prop where
  function : ∀ (key : AstKey) (n decl : NodeId), a.nodes[key]? = some n →
    ast.data? n = some (.funDecl decl) → ∃ f nameKey, ast.data? decl = some (.funDeclExpr f) ∧
      a.LeadsToName ast key nameKey f.name f.nameKind ∧ nameKey.offset = f.nameOffset
  ofClass : ∀ (key : AstKey) (n : NodeId) (c : ClassDecl), a.nodes[key]? = some n →
    ast.data? n = some (.classDecl c) → c.isScript = false → c.name ≠ "" →
      ∃ nameKey, a.LeadsToName ast key nameKey c.name .ofClass
  other : ∀ key : AstKey, (∀ n, a.nodes[key]? = some n →
    (∀ decl, ast.data? n ≠ some (.funDecl decl)) ∧ ¬ ast.IsNamedClass n) → a.nameKeys[key]? = none

namespace Assembly.Coherent

variable {a : Assembly} {file : FileId} {ast : Ast} {mk : MarkerId → Marker} {events : List Event}
  {cs : List (Construct × TreeId)} {root : Nat} {parts : ScriptParts} {c d : Construct}
  {key : AstKey} {n : NodeId} {name : String} {kind : NameKind}

theorem nameKey_eq (h : a.Coherent file ast mk events cs) (key : AstKey) :
    a.nameKeys[key]? = (cs.find? fun x => x.1.key file = key).bind fun x =>
      nameKey? file mk (mk x.1.marker) := by
  rw [h.indexed.nameKey, latest?_eq, Option.bind_map]
  rfl

/-- The construct that a key leads to tells the name of the key. -/
theorem construct_of_node (h : a.Coherent file ast mk events cs) (hnode : a.nodes[key]? = some n) :
    ∃ c : Construct, c.In ast mk events ∧ c.node = n ∧
      a.nameKeys[key]? = nameKey? file mk (mk c.marker) := by
  rw [h.node_eq] at hnode
  obtain ⟨x, hx, rfl⟩ := Option.map_eq_some_iff.mp hnode
  refine ⟨x.1, (h.isIn (List.mem_of_find?_eq_some hx)).1, rfl, ?_⟩
  rw [h.nameKey_eq, hx, Option.bind_some]

theorem leadsToName (h : a.Coherent file ast mk events cs)
    (hs : ScriptRecorded ast mk events root parts) (ha : Ascending events)
    (hkey : a.nameKeys[key]? = nameKey? file mk (mk c.marker))
    (hd : c.IsNameOf file ast mk events d name kind) :
    a.LeadsToName ast key (d.key file) name kind where
  found := hkey.trans hd.key
  kind_eq := by simp [Construct.key, hd.data, NodeKind.of?]
  node := ⟨d.node, h.node_of_name hs ha hd.isIn hd.data, hd.data_eq⟩

/-- By cases on the construct that a key leads to. -/
theorem namesDeclarations (h : a.Coherent file ast mk events cs)
    (hs : ScriptRecorded ast mk events root parts) (ha : Ascending events) :
    a.NamesDeclarations ast where
  function key n decl hnode hdata := by
    obtain ⟨c, hc, rfl, hkey⟩ := h.construct_of_node hnode
    have hcdata : c.data = .funDecl decl := Option.some.inj (hc.found.symm.trans hdata)
    obtain ⟨f, hf⟩ := hs.function_of_statement hc hcdata
    obtain ⟨d, hd, hoffset⟩ := hs.name_of_function hc hcdata hf file
    exact ⟨f, d.key file, hf, h.leadsToName hs ha hkey hd, hoffset⟩
  ofClass key n declared hnode hdata hscript hname := by
    obtain ⟨c, hc, rfl, hkey⟩ := h.construct_of_node hnode
    have hcdata : c.data = .classDecl declared := Option.some.inj (hc.found.symm.trans hdata)
    obtain ⟨d, hd⟩ := hs.name_of_class hc hcdata hscript hname file
    exact ⟨d.key file, h.leadsToName hs ha hkey hd⟩
  other key hother := by
    cases hnode : a.nodes[key]? with
    | none =>
      rw [h.node_eq, Option.map_eq_none_iff] at hnode
      rw [h.nameKey_eq, hnode, Option.bind_none]
    | some n =>
      obtain ⟨c, hc, rfl, hkey⟩ := h.construct_of_node hnode
      obtain ⟨hfun, hclass⟩ := hother _ hnode
      rw [hkey]
      refine nameKey?_of_none (hs.nameMarker_eq_none hc (fun decl hdata => hfun decl ?_) hclass)
      rw [hc.found, hdata]

end Assembly.Coherent

/-- Every text is parsed, and in the indexes of its tree the key of a function leads on to the name
    that it declares, at the offset that the declaration tells, and so does the key of a class with
    a name.  The keys of other nodes, among them the class of the script, lead to no name. -/
theorem Transcript.declarations_lead_to_names (file : FileId) (text : String) :
    ∃ p a, parseScript text = .ok p ∧ p.transcript.assemble file p.ast = .ok a ∧
      a.NamesDeclarations p.ast := by
  obtain ⟨p, m, body, last, hparse, htokens, hrec⟩ :=
    parseWith_script text (scan_endsWithEof text)
  obtain ⟨a, ha⟩ := hrec.assemble_succeeds file
  obtain ⟨parts, hs⟩ := ScriptRecorded.of_parse hparse
  obtain ⟨cs, hcs⟩ := hs.coherent ha
  exact ⟨p, a, hparse, ha, hcs.namesDeclarations hs (ascending_of_scan htokens)⟩

/-- A class at the start of a script has the key of the script, and with it no name. -/
example : (parseScript "class A { } int f() { }").bind (fun p =>
    (p.transcript.assemble 0 p.ast).map fun a => a.nameKeys.toList) =
      .ok [(⟨0, .funDecl, 12⟩, ⟨0, .functionName, 16⟩)] := by decide +kernel

end ScriptAnalysis
