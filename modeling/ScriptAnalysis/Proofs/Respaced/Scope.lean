import ScriptAnalysis.Proofs.Scope.Paired

/-!
# Names in texts that differ in trivia

Walks through arenas that are alike find the same: the spans of diagnostics are all that a walk
takes from the places of nodes and names, and nothing that a walk looks up depends on a diagnostic.
-/

namespace ScriptAnalysis

/-- The same is known of two scripts, up to the spans of diagnostics. -/
structure Resolution.Respaced (r q : Resolution) : Prop where
  package : r.package = q.package
  scriptClass : r.scriptClass = q.scriptClass
  blocks : r.blocks = q.blocks
  nodeBlock : r.nodeBlock = q.nodeBlock
  bindings : r.bindings = q.bindings
  classes : r.classes = q.classes
  imports : r.imports = q.imports
  diagnostics : r.diagnostics.map (fun d => (d.kind, d.message)) =
    q.diagnostics.map (fun d => (d.kind, d.message))

/-- Walks that have found out the same and are at the same place. -/
structure WalkState.Respaced (s t : WalkState) : Prop where
  resolution : s.resolution.Respaced t.resolution
  block : s.block = t.block
  owner : s.owner = t.owner
  asked : s.asked = t.asked

/-- Scripts to be resolved that are alike. -/
structure ResolveInput.Respaced (input input' : ResolveInput) : Prop where
  file : input.file = input'.file
  scriptName : input.scriptName = input'.scriptName
  root : input.root = input'.root
  globals : input.globals = input'.globals
  others : input.others = input'.others
  ast : input.ast.Respaced input'.ast

/-! ### Looking up -/

namespace Resolution.Respaced

variable {r q : Resolution}

theorem header (h : r.Respaced q) : r.header = q.header := by
  unfold Resolution.header
  rw [h.package, h.scriptClass, h.classes, h.imports]

theorem scopesAround (h : r.Respaced q) (block : Option NodeId) :
    r.scopesAround block = q.scopesAround block := by
  have hfrom (steps : Nat) (block : Option NodeId) :
      r.scopesFrom steps block = q.scopesFrom steps block := by
    induction steps generalizing block with
    | zero => rfl
    | succ steps ih =>
      cases block with
      | none => rfl
      | some block =>
        unfold scopesFrom
        simp only [ih, h.blocks]
  unfold Resolution.scopesAround
  rw [h.blocks, hfrom]

end Resolution.Respaced

theorem BlockScope.find?_respaced {ast ast' : Ast} (h : ast.Respaced ast') (scope : BlockScope)
    (name : String) : scope.find? ast name = scope.find? ast' name := by
  unfold BlockScope.find?
  simp only [h.any_varDecl?_name, h.any_funDecl?_name]

namespace Walk

/-- The walks stay alike, up to the spans of diagnostics. -/
abbrev Alike {α : Type} (x y : Walk α) : Prop := Paired WalkState.Respaced x y

/-! ### Steps -/

theorem alike_consult {α : Type} (x : Consulted α) : Alike (consult x) (consult x) := fun _ _ hst =>
  ⟨rfl, hst.resolution, hst.block, hst.owner, congrArg (x.asked.reverse ++ ·) hst.asked⟩

theorem alike_modifyResolution {f g : Resolution → Resolution}
    (hf : ∀ r q : Resolution, r.Respaced q → (f r).Respaced (g q)) :
    Alike (modifyResolution f) (modifyResolution g) := fun _ _ hst =>
  ⟨rfl, hf _ _ hst.resolution, hst.block, hst.owner, hst.asked⟩

/-- The spans of what is reported do not count. -/
theorem alike_report (message : String) (span span' : Span) :
    Alike (report message span) (report message span') := by
  refine alike_modifyResolution fun r q h => { h with diagnostics := ?_ }
  rw [List.map_append, List.map_append, h.diagnostics]
  rfl

theorem alike_bindTo (node : NodeId) (binding : Binding) :
    Alike (bindTo node binding) (bindTo node binding) :=
  alike_modifyResolution fun _ _ h =>
    { h with bindings := congrArg (·.insert node binding) h.bindings }

section

variable {input input' : ResolveInput} (h : input.Respaced input')
include h

theorem alike_resolveClass (written : String) :
    Alike (resolveClass input written) (resolveClass input' written) := by
  refine paired_get fun s t hst => ?_
  rw [Resolution.resolveClass_congr _ hst.resolution.header, hst.owner, h.others]
  exact paired_bind (alike_consult _) fun _ => paired_pure _

theorem alike_lookup (name : String) : Alike (lookup input name) (lookup input' name) := by
  refine paired_get fun s t hst => ?_
  dsimp only
  rw [hst.resolution.scopesAround, Resolution.classChain_congr _ hst.resolution.header, hst.block,
    hst.owner, hst.resolution.scriptClass, h.others, h.globals,
    funext fun scope : BlockScope => scope.find?_respaced h.ast name]
  split
  · exact paired_pure _
  · refine paired_bind (alike_consult _) fun chain => ?_
    split
    · exact paired_pure _
    · exact paired_ite (paired_pure _)
        (paired_bind (alike_resolveClass h name) fun _ => paired_pure _)

theorem alike_bindName (node : NodeId) (name : String) :
    Alike (bindName input node name) (bindName input' node name) := by
  refine paired_bind (alike_lookup h name) fun found => ?_
  cases found with
  | none => exact alike_report _ _ _
  | some binding => exact alike_bindTo _ _

/-- The type of an expression is evident from its words. -/
theorem evidentType?_respaced {r q : Resolution} (hr : r.Respaced q) (node : NodeId) :
    evidentType? input r node = evidentType? input' q node := by
  unfold evidentType? globalType?
  rw [hr.bindings, h.globals]
  rcases h.ast.cases node with ⟨hd, hd'⟩ | ⟨data, data', hd, hd', hsame⟩
  · rw [hd, hd']
  · rw [hd, hd']
    cases hsame with
    | same data =>
      have hvar (decl : NodeId) :
          (input.ast.varDecl? decl).map VarDecl.type =
            (input'.ast.varDecl? decl).map VarDecl.type := by
        rcases h.ast.varDecl? decl with ⟨hd, hd'⟩ | ⟨var, offset, hd, hd'⟩
        · rw [hd, hd']
        · rw [hd, hd', Option.map_some, Option.map_some]
      simp only [hvar]
    | varDecl offset heq => rfl
    | funDecl offset heq => rfl

/-- Walks over scripts that are alike go side by side. -/
theorem parallel_respaced : Parallel input input' WalkState.Respaced where
  ast := h.ast
  others := h.others
  header hst := hst.resolution.header
  blocks hst := hst.resolution.blocks
  block hst := hst.block
  owner hst := hst.owner
  atBlock hst _ := { hst with block := rfl }
  ofOwner hst _ := { hst with owner := rfl }
  scopes hst f := { hst with
    resolution := { hst.resolution with blocks := congrArg f hst.resolution.blocks } }
  noted hst f := { hst with
    resolution := { hst.resolution with nodeBlock := congrArg f hst.resolution.nodeBlock } }
  consult := alike_consult
  report := alike_report
  bindTo := alike_bindTo
  bindName := alike_bindName h
  evident hst node := .inl (evidentType?_respaced h hst.resolution node)

end

end Walk

/-- Scripts that are alike resolve to the same, up to the spans of diagnostics, and ask the same of
    other files. -/
theorem ResolveInput.Respaced.resolve {input input' : ResolveInput} (h : input.Respaced input') :
    input.resolve.value.Respaced input'.resolve.value ∧
      input.resolve.asked = input'.resolve.asked := by
  unfold ResolveInput.resolve
  rw [h.root, h.ast.classDecl?, h.ast.size]
  cases input'.ast.classDecl? input'.root with
  | none => exact ⟨⟨rfl, rfl, rfl, rfl, rfl, rfl, rfl, rfl⟩, rfl⟩
  | some script =>
    have hstart : (input.start script).Respaced (input'.start script) := by
      unfold ResolveInput.start
      rw [h.file, h.scriptName, h.root, h.ast.describeClasses, h.ast.importsOf]
      exact ⟨⟨rfl, rfl, rfl, rfl, rfl, rfl, rfl, rfl⟩, rfl, rfl, rfl⟩
    have hparallel := Walk.parallel_respaced h
    have hwalk := (Walk.paired_walkScript hparallel
      (Walk.paired_visitors hparallel input'.ast.size) script _ _ hstart).2
    exact ⟨hwalk.resolution, congrArg List.reverse hwalk.asked⟩

end ScriptAnalysis
