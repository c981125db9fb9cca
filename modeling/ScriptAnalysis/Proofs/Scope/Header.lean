import ScriptAnalysis.Scope.Walk

/-!
# What a walk never changes

The package of a script, its classes and its imports are known before its names are resolved, and
the walk only reads them.  This holds of every primitive step, and of a walk because it holds of
its steps, to whatever depth the visitors go.
-/

namespace ScriptAnalysis

/-- What is known of a script before it is walked. -/
structure Resolution.Header where
  package : Option String
  scriptClass : String
  classes : List ClassSummary
  imports : List ImportedClass

def Resolution.header (r : Resolution) : Resolution.Header :=
  ⟨r.package, r.scriptClass, r.classes, r.imports⟩

namespace Walk

variable {α β : Type}

def Steady (x : Walk α) : Prop := ∀ s, (x.run s).2.resolution.header = s.resolution.header

section Steps

variable {x : Walk α}

theorem steady_pure (a : α) : Steady (pure a : Walk α) := fun _ => rfl

theorem steady_get : Steady (get : Walk WalkState) := fun _ => rfl

theorem steady_bind {f : α → Walk β} (hx : Steady x) (hf : ∀ a, Steady (f a)) :
    Steady (x >>= f) := fun s => (hf (x.run s).1 (x.run s).2).trans (hx s)

theorem steady_modify {f : WalkState → WalkState}
    (hf : ∀ s, (f s).resolution.header = s.resolution.header) :
    Steady (modify f : Walk PUnit) := hf

theorem steady_forM {f : α → Walk PUnit} (hf : ∀ a, Steady (f a)) (as : List α) :
    Steady (as.forM f) := by
  induction as with
  | nil => exact steady_pure _
  | cons a as ih => exact steady_bind (hf a) fun _ => ih

theorem steady_foldlM {f : β → α → Walk β} (hf : ∀ b a, Steady (f b a)) (b : β) (as : List α) :
    Steady (as.foldlM f b) := by
  induction as generalizing b with
  | nil => exact steady_pure _
  | cons a as ih => exact steady_bind (hf b a) fun _ => ih _

end Steps

theorem steady_ite {c : Prop} [Decidable c] {x y : Walk α} (hx : Steady x) (hy : Steady y) :
    Steady (if c then x else y) := by
  split
  · exact hx
  · exact hy

/-! ### Steps -/

theorem steady_consult (x : Consulted α) : Steady (consult x) := fun _ => rfl

theorem steady_modifyResolution {f : Resolution → Resolution} (hf : ∀ r, (f r).header = r.header) :
    Steady (modifyResolution f) := fun s => hf s.resolution

theorem steady_report (message : String) (span : Span) : Steady (report message span) :=
  steady_modifyResolution fun _ => rfl

theorem steady_bindTo (node : NodeId) (binding : Binding) : Steady (bindTo node binding) :=
  steady_modifyResolution fun _ => rfl

theorem steady_modifyScope (block : NodeId) (f : BlockScope → BlockScope) :
    Steady (modifyScope block f) := steady_modifyResolution fun _ => rfl

theorem steady_openScope (node : NodeId) (enclosing : Option NodeId) :
    Steady (openScope node enclosing) := fun _ => rfl

theorem steady_scope? (block : NodeId) : Steady (scope? block) := fun _ => rfl

theorem steady_noteBlock (node : NodeId) : Steady (noteBlock node) := by
  refine steady_bind steady_get fun s => ?_
  cases s.block with
  | none => exact steady_pure _
  | some block => exact steady_modifyResolution fun _ => rfl

/-! ### Names and types -/

section

variable (input : ResolveInput)

theorem steady_resolveClass (written : String) : Steady (resolveClass input written) :=
  steady_bind steady_get fun _ => steady_bind (steady_consult _) fun _ => steady_pure _

theorem steady_lookup (name : String) : Steady (lookup input name) := by
  refine steady_bind steady_get fun s => ?_
  dsimp only
  split
  · exact steady_pure _
  · refine steady_bind (steady_consult _) fun chain => ?_
    split
    · exact steady_pure _
    · exact steady_ite (steady_pure _)
        (steady_bind (steady_resolveClass input name) fun _ => steady_pure _)

theorem steady_bindName (node : NodeId) (name : String) : Steady (bindName input node name) := by
  refine steady_bind (steady_lookup input name) fun found => ?_
  cases found with
  | none => exact steady_report _ _
  | some binding => exact steady_bindTo _ _

theorem steady_checkNumeric (symbol : String) (operand : NodeId) :
    Steady (checkNumeric input symbol operand) := by
  refine steady_bind steady_get fun s => ?_
  split
  · exact steady_pure _
  · exact steady_ite (steady_report _ _) (steady_pure _)

theorem steady_checkType (type : TypeRef) (span : Span) : Steady (checkType input type span) := by
  unfold checkType
  split
  · exact steady_bind (steady_resolveClass input _) fun _ =>
      steady_ite (steady_report _ _) (steady_pure _)
  · exact steady_pure _

theorem steady_checkBase (node : NodeId) (decl : ClassDecl) (c : ClassSummary) :
    Steady (checkBase input node decl c) := by
  unfold checkBase
  split
  · exact steady_bind steady_get fun _ => steady_bind (steady_consult _) fun _ =>
      steady_ite (steady_report _ _) (steady_pure _)
  · exact steady_pure _

theorem steady_checkImport (i : ImportedClass) : Steady (checkImport input i) :=
  steady_bind steady_get fun _ => steady_bind (steady_consult _) fun _ =>
    steady_ite (steady_report _ _) (steady_pure _)

end

end Walk

/-! ### Constructs -/

structure Visitors.Steady (v : Visitors) : Prop where
  statement : ∀ node, Walk.Steady (v.statement node)
  expression : ∀ node, Walk.Steady (v.expression node)
  classDecl : ∀ node, Walk.Steady (v.classDecl node)

namespace Walk

section

variable (input : ResolveInput) {v : Visitors}

theorem steady_checkVar (hv : v.Steady) (decl : NodeId) : Steady (checkVar input v decl) := by
  unfold checkVar
  cases input.ast.varDecl? decl with
  | none => exact steady_pure _
  | some var =>
    refine steady_bind (steady_checkType input _ _) fun _ => ?_
    split
    · exact steady_pure _
    · refine steady_bind (hv.expression _) fun _ => steady_bind steady_get fun s => ?_
      split
      · exact steady_pure _
      · exact steady_ite (steady_report _ _) (steady_pure _)

theorem steady_declareVar (hv : v.Steady) (decl : NodeId) : Steady (declareVar input v decl) := by
  refine steady_bind (steady_noteBlock decl) fun _ => ?_
  cases input.ast.varDecl? decl with
  | none => exact steady_pure _
  | some var =>
    refine steady_bind (steady_checkVar input hv decl) fun _ => ?_
    refine steady_ite (steady_pure _) (steady_bind steady_get fun s => ?_)
    cases s.block with
    | none => exact steady_pure _
    | some block =>
      refine steady_bind (steady_scope? block) fun scope => ?_
      cases scope with
      | none => exact steady_pure _
      | some scope => exact steady_ite (steady_report _ _) (steady_modifyScope _ _)

theorem steady_declareFunction (block stmt : NodeId) :
    Steady (declareFunction input block stmt) := by
  unfold declareFunction
  split
  · refine steady_ite (steady_pure _) (steady_bind (steady_scope? block) fun scope => ?_)
    cases scope with
    | none => exact steady_pure _
    | some scope => exact steady_ite (steady_report _ _) (steady_modifyScope _ _)
  · exact steady_pure _

theorem steady_walkBlock (hv : v.Steady) (block : NodeId) (params : List NodeId) :
    Steady (walkBlock input v block params) := by
  refine steady_bind (steady_noteBlock block) fun _ => steady_bind steady_get fun s => ?_
  refine steady_bind (steady_openScope _ _) fun _ => ?_
  refine steady_bind (steady_forM hv.statement _) fun _ => ?_
  refine steady_bind (steady_forM (steady_declareFunction input block) _) fun _ => ?_
  exact steady_bind (steady_forM hv.statement _) fun _ => steady_modify fun _ => rfl

theorem steady_walkFunction (hv : v.Steady) (decl : NodeId) :
    Steady (walkFunction input v decl) := by
  refine steady_bind (steady_noteBlock decl) fun _ => ?_
  cases input.ast.funDecl? decl with
  | none => exact steady_pure _
  | some fn =>
    exact steady_bind (steady_checkType input _ _) fun _ => steady_walkBlock input hv _ _

theorem steady_walkField (hv : v.Steady) (known : List String) (field : NodeId) :
    Steady (walkField input v known field) := by
  refine steady_bind (steady_noteBlock field) fun _ => ?_
  cases input.ast.varDecl? field with
  | none => exact steady_pure _
  | some var =>
    dsimp only
    have hrest : Steady (if var.name.isEmpty then pure known
        else if known.contains var.name then do
          report s!"Field '{var.name}' already declared" (nameSpan var.name var.nameOffset)
          pure known
        else pure (var.name :: known)) :=
      steady_ite (steady_pure _)
        (steady_ite (steady_bind (steady_report _ _) fun _ => steady_pure _) (steady_pure _))
    split
    · exact steady_bind (steady_checkVar input hv _) fun _ => hrest
    · exact hrest

theorem steady_walkClass (hv : v.Steady) (node : NodeId) : Steady (walkClass input v node) := by
  refine steady_bind steady_get fun s => ?_
  split
  · refine steady_bind (steady_checkBase input _ _ _) fun _ => ?_
    refine steady_bind (steady_modify fun _ => rfl) fun _ => ?_
    refine steady_bind (steady_openScope _ _) fun _ => ?_
    refine steady_bind (steady_noteBlock _) fun _ => ?_
    refine steady_bind (steady_foldlM (steady_walkField input hv) _ _) fun _ => ?_
    refine steady_bind (steady_forM hv.statement _) fun _ => ?_
    exact steady_bind (steady_forM hv.classDecl _) fun _ => steady_modify fun _ => rfl
  · exact steady_pure _

theorem steady_walkExpression (hv : v.Steady) (node : NodeId) :
    Steady (walkExpression input v node) := by
  refine steady_bind (steady_noteBlock node) fun _ => ?_
  have hall (nodes : List NodeId) : Steady (nodes.forM v.expression) :=
    steady_forM hv.expression nodes
  split
  · exact steady_bindName input _ _
  · exact steady_bind (hv.expression _) fun _ => steady_bindName input _ _
  · exact hall _
  · refine steady_bind (hv.expression _) fun _ => steady_bind (hv.expression _) fun _ => ?_
    exact steady_ite (steady_bind (steady_checkNumeric input _ _) fun _ =>
      steady_checkNumeric input _ _) (steady_pure _)
  · exact steady_bind (hv.expression _) fun _ =>
      steady_ite (steady_checkNumeric input _ _) (steady_pure _)
  · exact steady_bind (hv.expression _) fun _ => hall _
  · exact steady_bind (hv.expression _) fun _ => hall _
  · exact steady_walkBlock input hv _ _
  · refine steady_bind (steady_resolveClass input _) fun found => ?_
    cases found with
    | none => exact steady_bind (steady_report _ _) fun _ => hall _
    | some fullName => exact steady_bind (steady_bindTo _ _) fun _ => hall _
  · exact steady_walkFunction input hv _
  · exact steady_declareVar input hv _
  · exact steady_pure _

theorem steady_walkStatement (hv : v.Steady) (node : NodeId) :
    Steady (walkStatement input v node) := by
  refine steady_bind (steady_noteBlock node) fun _ => ?_
  split
  · exact steady_declareVar input hv _
  · exact steady_walkFunction input hv _
  · exact hv.expression _
  · exact steady_bind (hv.expression _) fun _ => steady_bind (hv.statement _) fun _ =>
      steady_forM hv.statement _
  · exact steady_bind (hv.expression _) fun _ => hv.statement _
  · exact steady_forM hv.expression _
  · exact steady_walkBlock input hv _ _
  · exact steady_walkClass input hv _
  · exact steady_pure _
  · exact steady_pure _
  · exact steady_walkExpression input hv _

theorem steady_visitors (depth : Nat) : (visitors input depth).Steady := by
  induction depth with
  | zero =>
    exact ⟨fun _ => steady_pure _, fun _ => steady_pure _, fun _ => steady_pure _⟩
  | succ depth ih =>
    exact ⟨steady_walkStatement input ih, steady_walkExpression input ih,
      steady_walkClass input ih⟩

theorem steady_walkScript (hv : v.Steady) (script : ClassDecl) :
    Steady (walkScript input v script) := by
  refine steady_bind steady_get fun s => ?_
  refine steady_bind (steady_forM (steady_checkImport input) _) fun _ => ?_
  exact steady_bind (steady_forM (fun _ => steady_walkBlock input hv _ _) _) fun _ =>
    steady_forM (steady_walkClass input hv) _

end

end Walk

/-- The classes of a resolution are those that the script describes. -/
theorem ResolveInput.resolve_classes (input : ResolveInput) :
    input.resolve.value.classes =
      describeClasses input.file input.scriptName input.ast input.root := by
  unfold resolve
  cases hscript : input.ast.classDecl? input.root with
  | none =>
    unfold describeClasses
    rw [hscript]
    rfl
  | some script =>
    exact congrArg Resolution.Header.classes
      (Walk.steady_walkScript input (Walk.steady_visitors input input.ast.size) script
        (input.start script))

end ScriptAnalysis
