import ScriptAnalysis.Proofs.Scope.Declared
import ScriptAnalysis.Proofs.Tree.Coherence
import ScriptAnalysis.Proofs.Tree.Spans
import ScriptAnalysis.Proofs.Workspace.Registrations
import ScriptAnalysis.Workspace.Query

/-!
# The declaration of a name

In a text for which there are no other files, the key of a name that refers to anything but a global
leads to a declaration: to the statement of a variable or a field, to the name of a function, a
method or a class, or to the class of the script (`Analysis.DeclaredAt`).
-/

namespace ScriptAnalysis

/-! ### Texts without other files -/

/-- The analysis of a text as that of a script without other files. -/
def Analysis.IsAlone (globals : Except GlobalsFault Globals) (file : FileId) (text : String)
    (a : Analysis) : Prop :=
  ∃ analysis, ({ globals } : Toolchain).analyse file text (.detached text) (OtherFile.lookup []) =
    .ok analysis ∧ a = analysis.value

/-- What is resolved in a text without other files. -/
def ResolveInput.alone (globals : Except GlobalsFault Globals) (file : FileId) (text : String)
    (p : Parse) : ResolveInput where
  file := file
  scriptName := (SourceFile.detached text).name
  ast := p.ast
  root := p.root
  globals := ({ globals } : Toolchain).knownGlobals
  others := OtherFile.lookup []

namespace Analysis.IsAlone

variable {globals : Except GlobalsFault Globals} {file : FileId} {text : String} {a : Analysis}

theorem read (h : a.IsAlone globals file text) : ∃ p, ParsedText file text p a.assembly ∧
    a.ast = p.ast ∧ a.resolution = (ResolveInput.alone globals file text p).resolve.value := by
  obtain ⟨p, assembly, hparse, htext⟩ := Toolchain.parse_finishes globals file text
  obtain ⟨analysis, hanalysis, rfl⟩ := h
  unfold Toolchain.analyse at hanalysis
  rw [hparse] at hanalysis
  cases hanalysis
  exact ⟨p, htext, rfl, rfl⟩

/-- What an analysis of a text without other files is made of. -/
theorem parts (h : a.IsAlone globals file text) :
    ∃ p, parseScript text = .ok p ∧ p.transcript.assemble file p.ast = .ok a.assembly ∧
      a.ast = p.ast ∧ ∃ input : ResolveInput, input.ast = p.ast ∧ input.root = p.root ∧
        input.others.IsSilent ∧ a.resolution = input.resolve.value := by
  obtain ⟨p, htext, hast, hresolution⟩ := h.read
  exact ⟨p, htext.parsed, htext.assembled, hast, _, rfl, rfl, fun _ => rfl, hresolution⟩

end Analysis.IsAlone

namespace Analyzer

/-- No file is registered, and what is cached was made so. -/
structure IsAlone (globals : Except GlobalsFault Globals) (a : Analyzer) : Prop where
  toolchain : a.toolchain = { globals }
  sources : a.sources = .empty
  cached : a.cache.Offers fun file text s => s.analysis.IsAlone globals file text

variable {globals : Except GlobalsFault Globals} {a a' : Analyzer} {file : FileId} {text : String}
  {marksLeft : Option Nat} {s : Snapshot}

theorem IsAlone.othersOf (h : a.IsAlone globals) (file : FileId) : a.othersOf file = [] := by
  unfold Analyzer.othersOf
  rw [h.sources]
  rfl

theorem IsAlone.make (h : a.IsAlone globals)
    (hrun : (Query.make file text marksLeft).run.run a = (.ok s, a')) :
    s.analysis.IsAlone globals file text ∧ a'.IsAlone globals := by
  rw [Query.run_make, h.othersOf, h.toolchain, h.sources] at hrun
  split at hrun
  · next analysis hanalysis =>
    cases hrun
    exact ⟨⟨analysis, Toolchain.analyse_limited hanalysis, rfl⟩, h.toolchain, h.sources,
      h.cached.of_peek_eq (Workspace.peek_noteUses _ _ _)⟩
  · cases hrun

/-- An answer is about the text by itself. -/
theorem IsAlone.put (h : a.IsAlone globals) (file : FileId) (text : String)
    (marksLeft : Option Nat) : ((Query.put file text marksLeft).run.run a).2.IsAlone globals ∧
      ∀ s, ((Query.put file text marksLeft).run.run a).1 = .ok s →
        s.analysis.IsAlone globals file text := by
  have hanswer := RecencyCache.access_getFor a.cache file text
  have hused : (a.cache.getFor file text).2.peek = a.cache.peek :=
    RecencyCache.peek_access _ _ _
  rw [Query.run_put]
  cases hget : a.cache.getFor file text with
  | mk found used =>
    rw [hget] at hanswer hused
    have hcached := h.cached.of_peek_eq hused
    cases found with
    | some snapshot =>
      refine ⟨⟨h.toolchain, h.sources, hcached⟩, fun s hs => ?_⟩
      obtain rfl := Except.ok.inj hs
      exact h.cached file text _ hanswer.symm
    | none =>
      dsimp only
      have hmissed : IsAlone globals { a with cache := used } := ⟨h.toolchain, h.sources, hcached⟩
      cases hmake : (Query.make file text marksLeft).run.run { a with cache := used } with
      | mk answer a' =>
        cases answer with
        | error e =>
          obtain rfl := Query.run_make_error hmake
          exact ⟨hmissed, by simp⟩
        | ok snapshot =>
          obtain ⟨hs, hmade⟩ := hmissed.make hmake
          dsimp only
          rw [Query.run_keep]
          refine ⟨⟨hmade.toolchain, hmade.sources, hmade.cached.keep _ hs⟩, fun s hs' => ?_⟩
          obtain rfl := Except.ok.inj hs'
          exact hmade.cached.answer_keep _ hs

end Analyzer

/-! ### What is found at the key of a declaration -/

/-- The node `name` is the name of the declaration `decl`: the marker of the declaration points to a
    marker in it, which stands for the name. -/
def Transcript.HasName (t : Transcript) (decl name : NodeId) : Prop :=
  ∃ i j, (t.marker i).node = some decl ∧ (t.marker i).nameMarker = some j ∧
    (t.marker j).node = some name ∧ ∃ before p body q after : List Event,
      t.events = before ++ .start i :: (p ++ .start j ::
        (body ++ .stop j :: (q ++ .stop i :: after)))

/-- The key leads to the declaration to which a binding refers. -/
def Analysis.DeclaredAt (a : Analysis) (t : Transcript) (key : AstKey) : Binding → Prop
  | .localDecl decl =>
    ((∃ v, a.ast.data? decl = some (.varDeclExpr v)) ∧
      ∃ stmt, a.lookup key = some stmt ∧ a.ast.data? stmt = some (.varDecl decl)) ∨
    ∃ f stmt name kind, a.ast.data? decl = some (.funDeclExpr f) ∧
      a.ast.data? stmt = some (.funDecl decl) ∧ a.lookup key = some name ∧
      a.ast.data? name = some (.name f.name kind) ∧ t.HasName stmt name
  | .field ofClass name => ∃ c decl stmt field v, a.resolution.localClass? ofClass = some c ∧
      a.ast.data? c.decl = some (.classDecl decl) ∧ stmt ∈ decl.fields ∧
      a.lookup key = some stmt ∧ a.ast.data? stmt = some (.varDecl field) ∧
      a.ast.data? field = some (.varDeclExpr v) ∧ v.name = name
  | .method ofClass name => ∃ c decl stmt method f nameNode kind,
      a.resolution.localClass? ofClass = some c ∧
      a.ast.data? c.decl = some (.classDecl decl) ∧ stmt ∈ decl.methods ∧
      a.ast.data? stmt = some (.funDecl method) ∧ a.ast.data? method = some (.funDeclExpr f) ∧
      f.name = name ∧ a.lookup key = some nameNode ∧
      a.ast.data? nameNode = some (.name name kind) ∧ t.HasName stmt nameNode
  | .toClass fullName => ∃ c decl, a.resolution.localClass? fullName = some c ∧
      a.ast.data? c.decl = some (.classDecl decl) ∧
      if decl.isScript then a.lookup key = some c.decl
      else ∃ nameNode kind, a.lookup key = some nameNode ∧
        a.ast.data? nameNode = some (.name decl.name kind) ∧ t.HasName c.decl nameNode
  | .global _ => False

theorem Construct.IsNameOf.hasName {file : FileId} {ast : Ast} {t : Transcript} {c d : Construct}
    {name : String} {kind : NameKind} (h : c.IsNameOf file ast t.marker t.events d name kind)
    (hc : c.In ast t.marker t.events) : t.HasName c.node d.node := by
  obtain ⟨p, q, hin⟩ := h.inside
  refine ⟨c.marker, d.marker, hc.means.node, h.marker, h.isIn.means.node,
    c.before, p, d.body, q, c.after, ?_⟩
  rw [hc.split, hin.body]
  simp [Construct.whole]

/-! ### Members of classes -/

namespace Ast

variable {ast : Ast} {stmt decl : NodeId}

theorem varDecl?_of_varDecl {v v' : VarDecl} (hstmt : ast.data? stmt = some (.varDecl decl))
    (hdecl : ast.data? decl = some (.varDeclExpr v)) (h : ast.varDecl? stmt = some v') :
    v' = v := by
  unfold varDecl? at h
  cases hsize : ast.size with
  | zero =>
    rw [hsize] at h
    cases h
  | succ depth =>
    rw [hsize, varDeclWithin, hstmt] at h
    cases depth with
    | zero => cases h
    | succ depth =>
      dsimp only at h
      rw [varDeclWithin, hdecl] at h
      exact (Option.some.inj h).symm

theorem funDecl?_of_funDecl {f f' : FunDecl} (hstmt : ast.data? stmt = some (.funDecl decl))
    (hdecl : ast.data? decl = some (.funDeclExpr f)) (h : ast.funDecl? stmt = some f') :
    f' = f := by
  unfold funDecl? at h
  cases hsize : ast.size with
  | zero =>
    rw [hsize] at h
    cases h
  | succ depth =>
    rw [hsize, funDeclWithin, hstmt] at h
    cases depth with
    | zero => cases h
    | succ depth =>
      dsimp only at h
      rw [funDeclWithin, hdecl] at h
      exact (Option.some.inj h).symm

end Ast

namespace Analysis

variable {a : Analysis} {c : ClassSummary} {decl : ClassDecl} {name : String}

theorem any_name {α : Type} {o : Option α} {f : α → String} (h : o.any (f · == name) = true) :
    ∃ x, o = some x ∧ f x = name := by
  cases o with
  | none => cases h
  | some x => exact ⟨x, rfl, beq_iff_eq.mp h⟩

/-- A field of a summary is found among the fields of the class. -/
theorem memberDecl?_of_field (hfields : c.fields = fieldSummaries a.ast decl)
    (hvars : ∀ field ∈ decl.fields, a.ast.IsVar field) (h : (c.field? name).isSome = true) :
    ∃ stmt field v, a.memberDecl? decl name = some stmt ∧ stmt ∈ decl.fields ∧
      a.ast.data? stmt = some (.varDecl field) ∧ a.ast.data? field = some (.varDeclExpr v) ∧
      v.name = name := by
  unfold ClassSummary.field? at h
  rw [hfields, fieldSummaries, List.find?_isSome] at h
  obtain ⟨summary, hmem, hname⟩ := h
  obtain ⟨v, hv, rfl⟩ := List.mem_map.mp hmem
  obtain ⟨stmt, hstmt, hfound⟩ := List.mem_filterMap.mp (List.mem_filter.mp hv).1
  obtain ⟨first, hfirst⟩ : ∃ first,
      (decl.fields.find? fun id => (a.ast.varDecl? id).any (·.name == name)) = some first := by
    rw [← Option.isSome_iff_exists, List.find?_isSome]
    exact ⟨stmt, hstmt, by rw [hfound]; exact hname⟩
  have hmem := List.mem_of_find?_eq_some hfirst
  obtain ⟨field, v', hdata, hfield⟩ := hvars first hmem
  refine ⟨first, field, v', ?_, hmem, hdata, hfield, ?_⟩
  · unfold memberDecl?
    rw [hfirst]
    rfl
  · obtain ⟨v'', hv'', hname''⟩ := any_name (f := VarDecl.name) (List.find?_some hfirst :)
    obtain rfl := Ast.varDecl?_of_varDecl hdata hfield hv''
    exact hname''

/-- A method of a summary without a field of its name is found among the methods of the class. -/
theorem memberDecl?_of_method (hfields : c.fields = fieldSummaries a.ast decl)
    (hmethods : c.methods = methodSummaries a.ast decl)
    (hfuns : ∀ method ∈ decl.methods, a.ast.IsFun method) (hnone : c.field? name = none)
    (h : (c.method? name).isSome = true) :
    ∃ stmt method f, a.memberDecl? decl name = some method ∧ stmt ∈ decl.methods ∧
      a.ast.data? stmt = some (.funDecl method) ∧ a.ast.data? method = some (.funDeclExpr f) ∧
      f.name = name := by
  unfold ClassSummary.method? at h
  rw [hmethods, methodSummaries, List.find?_isSome] at h
  obtain ⟨summary, hmem, hname⟩ := h
  obtain ⟨f, hf, rfl⟩ := List.mem_map.mp hmem
  obtain ⟨hf, hnamed⟩ := List.mem_filter.mp hf
  obtain ⟨stmt, hstmt, hfound⟩ := List.mem_filterMap.mp hf
  obtain rfl : f.name = name := beq_iff_eq.mp hname
  have hempty : f.name ≠ "" := by simpa using hnamed
  -- A field of this name would be in the summary, because the name is not empty.
  have hfieldless : (decl.fields.find? fun id => (a.ast.varDecl? id).any (·.name == f.name)) =
      none := by
    rw [List.find?_eq_none]
    intro field hfield hany
    obtain ⟨v, hv, hvname⟩ := any_name hany
    unfold ClassSummary.field? at hnone
    rw [hfields, fieldSummaries, List.find?_eq_none] at hnone
    refine hnone ⟨v.name, v.type⟩ (List.mem_map.mpr ⟨v, List.mem_filter.mpr ⟨?_, ?_⟩, rfl⟩) ?_
    · exact List.mem_filterMap.mpr ⟨field, hfield, hv⟩
    · simpa [hvname] using hempty
    · exact beq_iff_eq.mpr hvname
  obtain ⟨method, f', hdata, hmethod⟩ := hfuns stmt hstmt
  obtain rfl := Ast.funDecl?_of_funDecl hdata hmethod hfound
  obtain ⟨first, hfirst⟩ : ∃ first, a.memberDecl? decl f.name = some first := by
    unfold memberDecl?
    rw [hfieldless, Option.none_or, ← Option.isSome_iff_exists, List.findSome?_isSome_iff]
    refine ⟨stmt, hstmt, ?_⟩
    simp only [hdata, Ast.funDecl?_of_expr hmethod]
    simp
  have hsearch := hfirst
  unfold memberDecl? at hsearch
  rw [hfieldless, Option.none_or] at hsearch
  obtain ⟨stmt', hstmt', hsome⟩ := List.exists_of_findSome?_eq_some hsearch
  obtain ⟨method', f', hdata', hmethod'⟩ := hfuns stmt' hstmt'
  simp only [hdata', Ast.funDecl?_of_expr hmethod'] at hsome
  split at hsome
  · next hsame =>
    obtain rfl := Option.some.inj hsome
    exact ⟨stmt', method', f', hfirst, hstmt', hdata', hmethod', by simpa using hsame⟩
  · cases hsome

end Analysis

/-! ### Questions -/

namespace Query

variable {a : Analysis} {x : Analyzer} {fullName name : String} {c : ClassSummary}

theorem run_classFrom (h : a.resolution.localClass? fullName = some c) :
    (classFrom a fullName).run.run x = (.ok (some (a, c)), x) := by
  unfold classFrom
  rw [h]
  rfl

theorem run_declarationKey_localDecl (decl : NodeId) :
    (declarationKey a (.localDecl decl)).run.run x = (.ok (a.keyOf? decl), x) := rfl

theorem run_declarationKey_toClass (h : a.resolution.localClass? fullName = some c) :
    (declarationKey a (.toClass fullName)).run.run x = (.ok (a.classKey? c), x) := by
  unfold declarationKey
  rw [run_bind, run_classFrom h]
  rfl

theorem run_declarationKey_field (h : a.resolution.localClass? fullName = some c) :
    (declarationKey a (.field fullName name)).run.run x = (.ok (a.memberKey? c name), x) := by
  unfold declarationKey
  rw [run_bind, run_classFrom h]
  rfl

theorem run_declarationKey_method (h : a.resolution.localClass? fullName = some c) :
    (declarationKey a (.method fullName name)).run.run x = (.ok (a.memberKey? c name), x) := by
  unfold declarationKey
  rw [run_bind, run_classFrom h]
  rfl

end Query

/-! ### From a binding to a key -/

namespace Analysis

variable {a : Analysis} {file : FileId} {t : Transcript}
  {cs : List (Construct × TreeId)} {root : Nat}
  {parts : ScriptParts} {c : ClassSummary} {site : ClassSite} {decl : ClassDecl} {b : Binding}

/-- The members of a class of the script stand in the script, and are what they have to be. -/
theorem members_of_class (hs : ScriptRecorded a.ast t.marker t.events root parts)
    (hc : c.Describes a.ast site decl) (hsite : site.decl = root) :
    (∀ field ∈ decl.fields, a.ast.IsVar field ∧ a.ast.Contains root field) ∧
      ∀ method ∈ decl.methods, a.ast.IsFun method ∧ a.ast.Contains root method := by
  obtain ⟨-, -, -, -, hformed⟩ := hs.construct_of_contains (hsite ▸ hc.contains) hc.data rfl
  have hpart : ∀ k ∈ decl.fields ++ decl.methods, a.ast.Contains root k := by
    intro k hk
    refine (hsite ▸ hc.contains).trans (.part hc.data ?_ (.here k))
    unfold NodeData.parts
    simp only [List.mem_append] at hk ⊢
    exact .inl (.inl (.inl hk))
  rcases hformed with ⟨-, hscript⟩ | ⟨hfields, hmethods, -⟩
  · obtain rfl := NodeData.classDecl.inj hscript
    rw [hs.script.fields, hs.script.methods]
    simp
  · exact ⟨fun k hk => ⟨hfields k hk, hpart k (List.mem_append_left _ hk)⟩,
      fun k hk => ⟨hmethods k hk, hpart k (List.mem_append_right _ hk)⟩⟩

/-- The class of the script has the key of the script, and any other class that of its name. -/
theorem classKey?_of_describes (h : a.assembly.Coherent file a.ast t.marker t.events cs)
    (hs : ScriptRecorded a.ast t.marker t.events root parts) (ha : Ascending t.events)
    (hdescribes : c.Describes a.ast site decl) (hsite : site.decl = root) :
    ∃ key, a.classKey? c = some key ∧
      if decl.isScript then a.lookup key = some c.decl
      else ∃ nameNode kind, a.lookup key = some nameNode ∧
        a.ast.data? nameNode = some (.name decl.name kind) ∧ t.HasName c.decl nameNode := by
  obtain ⟨m, hm, hnode, hmdata, hformed⟩ :=
    hs.construct_of_contains (hsite ▸ hdescribes.contains) hdescribes.data rfl
  unfold classKey? keyOf?
  cases hscript : decl.isScript with
  | true =>
    have hroot : c.decl = root := by
      rcases hformed with ⟨hroot, -⟩ | ⟨-, -, -, hnot, -⟩
      · exact hroot
      · rw [hscript] at hnot
        cases hnot
    obtain ⟨key, hkey, hfound⟩ := h.key_of_script hs ha
    refine ⟨key, by rw [hroot, hkey], ?_⟩
    rw [if_pos rfl, hroot]
    exact hfound
  | false =>
    have hname : decl.name ≠ "" := by
      rcases hdescribes.name with ⟨hself, -⟩ | ⟨hname, -⟩
      · have hdata := hdescribes.data
        rw [hself, hsite, hs.data_root] at hdata
        obtain rfl := NodeData.classDecl.inj (Option.some.inj hdata)
        rw [hs.script.isScript] at hscript
        cases hscript
      · exact hname
    obtain ⟨key, d, hkey, hfound, hd⟩ := h.key_of_class hs ha hm hmdata hscript hname
    refine ⟨key, by rw [← hnode, hkey], ?_⟩
    rw [if_neg Bool.false_ne_true, ← hnode]
    exact ⟨d.node, _, hfound, hd.data_eq, hd.hasName hm⟩

/-- Every binding but to a global leads to the key of its declaration. -/
theorem key_of_leadsTo (h : a.assembly.Coherent file a.ast t.marker t.events cs)
    (hs : ScriptRecorded a.ast t.marker t.events root parts) (ha : Ascending t.events)
    (hlocal : ∀ name c, a.resolution.localClass? name = some c →
      ∃ site decl, c.Describes a.ast site decl ∧ site.decl = root)
    (hb : b.LeadsTo a.resolution a.ast root) (hglobal : ∀ name, b ≠ .global name) (x : Analyzer) :
    ∃ key, (Query.declarationKey a b).run.run x = (.ok (some key), x) ∧ a.DeclaredAt t key b := by
  cases hb with
  | @ofVariable stmt decl hstmt hdata =>
    obtain ⟨c, hc, rfl, hcdata, hformed⟩ := hs.construct_of_contains hstmt hdata rfl
    obtain ⟨key, hkey, hnode⟩ := h.key_of_variable hs ha hc hcdata
    have hvar : ∃ v, a.ast.data? decl = some (.varDeclExpr v) :=
      hformed.resolve_left fun hroot => by simp at hroot
    refine ⟨key, ?_, .inl ⟨hvar, c.node, hnode, hdata⟩⟩
    rw [Query.run_declarationKey_localDecl]
    exact congrArg (fun key => (Except.ok key, x)) hkey
  | @ofFunction stmt decl hstmt hdata _ =>
    obtain ⟨c, hc, rfl, hcdata, hformed⟩ := hs.construct_of_contains hstmt hdata rfl
    obtain ⟨f, hf⟩ : ∃ f, a.ast.data? decl = some (.funDeclExpr f) :=
      hformed.resolve_left fun hroot => by simp at hroot
    obtain ⟨key, d, hkey, hnode, hd⟩ := h.key_of_function hs ha hc hcdata hf
    refine ⟨key, ?_, .inr ⟨f, c.node, d.node, _, hf, hdata, hnode, hd.data_eq, hd.hasName hc⟩⟩
    rw [Query.run_declarationKey_localDecl]
    exact congrArg (fun key => (Except.ok key, x)) hkey
  | @ofField c name hc hfield =>
    obtain ⟨site, decl, hdescribes, hsite⟩ := hlocal _ _ hc
    obtain ⟨hfields, -⟩ := members_of_class hs hdescribes hsite
    obtain ⟨stmt, field, v, hfound, hstmt, hdata, hv, hname⟩ := memberDecl?_of_field
      hdescribes.fields (fun k hk => (hfields k hk).1) hfield
    obtain ⟨d, hd, rfl, hddata, -⟩ := hs.construct_of_contains (hfields stmt hstmt).2 hdata rfl
    obtain ⟨key, hkey, hnode⟩ := h.key_of_varDecl hs ha hd hddata
    refine ⟨key, ?_, c, decl, d.node, field, v, hc, hdescribes.data, hstmt, hnode, hdata, hv, hname⟩
    rw [Query.run_declarationKey_field hc]
    unfold memberKey?
    simp only [Ast.classDecl?_eq_some.mpr hdescribes.data, bind, Option.bind, hfound]
    exact congrArg (fun key => (Except.ok key, x)) hkey
  | @ofMethod c name hc hnone hmethod =>
    obtain ⟨site, decl, hdescribes, hsite⟩ := hlocal _ _ hc
    obtain ⟨-, hmethods⟩ := members_of_class hs hdescribes hsite
    obtain ⟨stmt, method, f, hfound, hstmt, hdata, hf, rfl⟩ := memberDecl?_of_method
      hdescribes.fields hdescribes.methods (fun k hk => (hmethods k hk).1) hnone hmethod
    obtain ⟨m, hm, rfl, hmdata, -⟩ := hs.construct_of_contains (hmethods stmt hstmt).2 hdata rfl
    obtain ⟨key, d, hkey, hnode, hd⟩ := h.key_of_function hs ha hm hmdata hf
    refine ⟨key, ?_, c, decl, m.node, method, f, d.node, _, hc, hdescribes.data, hstmt, hdata, hf,
      rfl, hnode, hd.data_eq, hd.hasName hm⟩
    rw [Query.run_declarationKey_method hc]
    unfold memberKey?
    simp only [Ast.classDecl?_eq_some.mpr hdescribes.data, bind, Option.bind, hfound]
    exact congrArg (fun key => (Except.ok key, x)) hkey
  | @ofClass c hc =>
    obtain ⟨site, decl, hdescribes, hsite⟩ := hlocal _ _ hc
    obtain ⟨key, hkey, hfound⟩ := classKey?_of_describes h hs ha hdescribes hsite
    refine ⟨key, ?_, c, decl, hc, hdescribes.data, hfound⟩
    rw [Query.run_declarationKey_toClass hc]
    exact congrArg (fun key => (Except.ok key, x)) hkey
  | ofGlobal => exact absurd rfl (hglobal _)

end Analysis

/-! ### Go to declaration -/

namespace Analyzer

variable {globals : Except GlobalsFault Globals} {policy : CachePolicy} {a : Analyzer}

theorem IsAlone.answers (h : a.IsAlone globals) (file : FileId) (text : String) :
    ∃ s a', (Query.put file text).run.run a = (.ok s, a') ∧ a'.IsAlone globals ∧
      s.analysis.IsAlone globals file text := by
  obtain ⟨s, a', hrun⟩ := put_succeeds h.toolchain file text
  obtain ⟨halone, hanswer⟩ := h.put file text none
  rw [hrun] at halone hanswer
  exact ⟨s, a', hrun, halone, hanswer s rfl⟩

end Analyzer

theorem Analysis.IsAlone.unique {globals : Except GlobalsFault Globals} {file : FileId}
    {text : String} {s s' : Analysis} (h : s.IsAlone globals file text)
    (h' : s'.IsAlone globals file text) : s = s' := by
  obtain ⟨analysis, hanalysis, rfl⟩ := h
  obtain ⟨analysis', hanalysis', rfl⟩ := h'
  rw [Except.ok.inj (hanalysis.symm.trans hanalysis')]

/-- In a text without other files the key of a name that refers to anything but a global leads to
    the declaration. -/
theorem Analyzer.IsAlone.declarationOf {globals : Except GlobalsFault Globals} {a : Analyzer}
    (h : a.IsAlone globals) {file : FileId} {text : String} {p : Parse} {s : Analysis}
    (hparse : parseScript text = .ok p) (hs : s.IsAlone globals file text)
    {key : AstKey} {n : NodeId} {b : Binding} (hkey : s.lookup key = some n)
    (hb : s.resolution.bindings[n]? = some b) (hglobal : ∀ name, b ≠ .global name) :
    ∃ d a', (Query.declarationOf file text key).run.run a = (.ok (some d), a') ∧
      s.DeclaredAt p.transcript d b := by
  obtain ⟨s', a', hput, -, hs'⟩ := h.answers file text
  obtain rfl := hs'.unique hs
  obtain ⟨p', hparse', hassemble, hast, input, hinput, hroot, hothers, hresolution⟩ := hs'.parts
  obtain rfl : p = p' := Except.ok.inj (hparse.symm.trans hparse')
  obtain ⟨parts, hrecorded⟩ := ScriptRecorded.of_parse hparse
  obtain ⟨cs, hcoherent⟩ := hrecorded.coherent hassemble
  have hascending : Ascending p.transcript.events := by
    obtain ⟨p', -, -, -, hparse', htokens, -⟩ := parseWith_script text (scan_endsWithEof text)
    obtain rfl : p = p' := Except.ok.inj (hparse.symm.trans hparse')
    exact ascending_of_scan htokens
  rw [← hast] at hrecorded hcoherent hinput
  rw [← hinput, ← hroot] at hrecorded
  have hleads := ResolveInput.leadsTo_of_binding hrecorded hothers (hresolution ▸ hb)
  rw [hinput, ← hresolution] at hleads
  rw [hinput] at hrecorded
  have hlocal : ∀ name c, s'.analysis.resolution.localClass? name = some c →
      ∃ site decl, c.Describes s'.analysis.ast site decl ∧ site.decl = p.root := by
    intro name c hc
    rw [hresolution] at hc
    rw [← hinput, ← hroot]
    exact ResolveInput.describes_of_local hc
  rw [hroot] at hrecorded hleads
  obtain ⟨d, hd, hdeclared⟩ := Analysis.key_of_leadsTo hcoherent hrecorded hascending hlocal hleads
    hglobal a'
  refine ⟨d, a', ?_, hdeclared⟩
  unfold Query.declarationOf
  rw [Query.run_bind, hput]
  dsimp only
  rw [hkey, Option.bind_some, hb]
  exact hd

namespace Workspace

theorem put_analyzer (w : Workspace) (file : FileId) (text : String) (marksLeft : Option Nat) :
    (w.put file text marksLeft).analyzer =
      ((Query.put file text marksLeft).run.run w.analyzer).2 := by
  unfold Workspace.put
  dsimp only
  split <;> rfl

/-- Texts that were put for files, of which none is registered. -/
def puts (texts : List (FileId × String × Option Nat)) : List WorkspaceAction :=
  texts.map fun x => .put x.1 x.2.1 x.2.2

theorem isAlone_after (globals : Except GlobalsFault Globals) (policy : CachePolicy)
    (texts : List (FileId × String × Option Nat)) :
    (after globals policy (puts texts)).analyzer.IsAlone globals := by
  have hput : ∀ w : Workspace, w.analyzer.IsAlone globals →
      ((puts texts).foldl perform w).analyzer.IsAlone globals := by
    induction texts with
    | nil => exact fun w hw => hw
    | cons x texts ih =>
      intro w hw
      refine ih (w.put x.1 x.2.1 x.2.2) ?_
      rw [put_analyzer]
      exact (hw.put x.1 x.2.1 x.2.2).1
  exact hput _ ⟨rfl, rfl, fun file text s hs => by rw [RecencyCache.peek_empty] at hs; cases hs⟩

/-- Whatever was put before: when a text is put for a file and no file is registered, the key of
    each name in it that refers to anything but a global leads to the declaration. -/
theorem names_lead_to_declarations (globals : Except GlobalsFault Globals) (policy : CachePolicy)
    (texts : List (FileId × String × Option Nat)) (file : FileId) (text : String) :
    ∃ s a p, (Query.put file text).run.run (after globals policy (puts texts)).analyzer =
      (.ok s, a) ∧
      parseScript text = .ok p ∧ s.analysis.ast = p.ast ∧
      ∀ key n b, s.analysis.lookup key = some n → s.analysis.resolution.bindings[n]? = some b →
        (∀ name, b ≠ .global name) →
        ∃ d a', (Query.declarationOf file text key).run.run a = (.ok (some d), a') ∧
          s.analysis.DeclaredAt p.transcript d b := by
  obtain ⟨s, a, hput, halone, hs⟩ := (isAlone_after globals policy texts).answers file text
  obtain ⟨p, hparse, -, hast, -⟩ := hs.parts
  exact ⟨s, a, p, hput, hparse, hast, fun key n b hkey hb hglobal =>
    halone.declarationOf hparse hs hkey hb hglobal⟩

/-- A text in which a method names a field, and the script a variable. -/
def fieldAndVariable : String := "class C \x7b int f int m() \x7b f \x7d \x7d int v = 1 return v"

/-- The names of a field and of a variable lead to where these are declared, also after another text
    was put. -/
theorem field_and_variable_lead_to_declarations :
    ∃ s a p, (Query.put 1 fieldAndVariable).run.run
        (after (.ok .empty) {} (puts [(2, "b", none)])).analyzer = (.ok s, a) ∧
      parseScript fieldAndVariable = .ok p ∧
      (∃ d a', (Query.declarationOf 1 fieldAndVariable ⟨1, .identifier, 26⟩).run.run a =
          (.ok (some d), a') ∧ s.analysis.DeclaredAt p.transcript d (.field "C" "f")) ∧
      ∃ d a', (Query.declarationOf 1 fieldAndVariable ⟨1, .identifier, 49⟩).run.run a =
          (.ok (some d), a') ∧ s.analysis.DeclaredAt p.transcript d (.localDecl 16) := by
  obtain ⟨s, a, p, hput, hp, -, hlead⟩ :=
    names_lead_to_declarations (.ok .empty) {} [(2, "b", none)] 1 fieldAndVariable
  have hcomputed : (((Query.put 1 fieldAndVariable).run.run
      (after (.ok .empty) {} (puts [(2, "b", none)])).analyzer).1.toOption.any fun s => decide (
        (s.analysis.lookup ⟨1, .identifier, 26⟩ = some 7 ∧
          s.analysis.resolution.bindings[7]? = some (.field "C" "f")) ∧
        s.analysis.lookup ⟨1, .identifier, 49⟩ = some 18 ∧
          s.analysis.resolution.bindings[18]? = some (.localDecl 16))) = true := by decide +kernel
  rw [hput] at hcomputed
  obtain ⟨⟨hfield, hmember⟩, hvariable, hlocal⟩ := of_decide_eq_true hcomputed
  exact ⟨s, a, p, hput, hp, hlead _ 7 _ hfield hmember (by simp),
    hlead _ 18 _ hvariable hlocal (by simp)⟩

end Workspace

end ScriptAnalysis
