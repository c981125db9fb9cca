import ScriptAnalysis.Proofs.Respaced.Classes
import ScriptAnalysis.Proofs.Scope.Meaning

/-!
# Two walks side by side

Two walks over arenas that are alike take the same way, whatever they remember of it: a relation
between their states that tells where they are, and that every step keeps (`Walk.Parallel`), is kept
by the whole of them.
-/

namespace ScriptAnalysis

namespace Walk

variable {α β : Type} {R : WalkState → WalkState → Prop}

/-- From related states the walks answer alike and leave related states. -/
def Paired (R : WalkState → WalkState → Prop) (x y : Walk α) : Prop :=
  ∀ s t : WalkState, R s t → (x.run s).1 = (y.run t).1 ∧ R (x.run s).2 (y.run t).2

/-! ### Sequences -/

section Steps

variable {x y : Walk α}

theorem paired_pure (a : α) : Paired R (pure a : Walk α) (pure a) := fun _ _ h => ⟨rfl, h⟩

theorem paired_bind {f g : α → Walk β} (hx : Paired R x y) (hf : ∀ a, Paired R (f a) (g a)) :
    Paired R (x >>= f) (y >>= g) := by
  intro s t hst
  obtain ⟨hanswer, hst'⟩ := hx s t hst
  have hrest := hf (x.run s).1 _ _ hst'
  rw [StateT.run_bind, StateT.run_bind]
  change ((f (x.run s).1).run _).1 = ((g (y.run t).1).run _).1 ∧
    R ((f (x.run s).1).run _).2 ((g (y.run t).1).run _).2
  rw [← hanswer]
  exact hrest

/-- What follows may look at the state. -/
theorem paired_get {f g : WalkState → Walk β}
    (hf : ∀ s t : WalkState, R s t → Paired R (f s) (g t)) :
    Paired R (get >>= f) (get >>= g) := fun s t hst => hf s t hst s t hst

theorem paired_modify {f g : WalkState → WalkState}
    (hf : ∀ s t : WalkState, R s t → R (f s) (g t)) :
    Paired R (modify f : Walk PUnit) (modify g) := fun s t hst => ⟨rfl, hf s t hst⟩

theorem paired_forM {f g : α → Walk PUnit} (hf : ∀ a, Paired R (f a) (g a)) (as : List α) :
    Paired R (as.forM f) (as.forM g) := by
  induction as with
  | nil => exact paired_pure _
  | cons a as ih => exact paired_bind (hf a) fun _ => ih

theorem paired_foldlM {f g : β → α → Walk β} (hf : ∀ b a, Paired R (f b a) (g b a)) (b : β)
    (as : List α) : Paired R (as.foldlM f b) (as.foldlM g b) := by
  induction as generalizing b with
  | nil => exact paired_pure _
  | cons a as ih => exact paired_bind (hf b a) fun _ => ih _

end Steps

theorem paired_ite {c : Prop} [Decidable c] {x x' y y' : Walk α} (hx : Paired R x y)
    (hx' : Paired R x' y') : Paired R (if c then x else x') (if c then y else y') := by
  split
  · exact hx
  · exact hx'

/-! ### Steps -/

/-- The states of two walks over arenas that are alike are related, each step keeps them related,
    and they agree in where the walks are, in the classes and in the scopes.  If an expression is
    evidently of different types, then diagnostics do not count. -/
structure Parallel (input input' : ResolveInput) (R : WalkState → WalkState → Prop) : Prop where
  ast : input.ast.Respaced input'.ast
  others : input.others = input'.others
  header : ∀ {s t}, R s t → s.resolution.header = t.resolution.header
  blocks : ∀ {s t}, R s t → s.resolution.blocks = t.resolution.blocks
  block : ∀ {s t}, R s t → s.block = t.block
  owner : ∀ {s t}, R s t → s.owner = t.owner
  atBlock : ∀ {s t}, R s t → ∀ block, R { s with block } { t with block }
  ofOwner : ∀ {s t}, R s t → ∀ owner, R { s with owner } { t with owner }
  scopes : ∀ {s t}, R s t → ∀ f : Std.TreeMap NodeId BlockScope → Std.TreeMap NodeId BlockScope,
    R { s with resolution := { s.resolution with blocks := f s.resolution.blocks } }
      { t with resolution := { t.resolution with blocks := f t.resolution.blocks } }
  noted : ∀ {s t}, R s t → ∀ f : Std.TreeMap NodeId NodeId → Std.TreeMap NodeId NodeId,
    R { s with resolution := { s.resolution with nodeBlock := f s.resolution.nodeBlock } }
      { t with resolution := { t.resolution with nodeBlock := f t.resolution.nodeBlock } }
  consult : ∀ {α : Type} (x : Consulted α), Paired R (Walk.consult x) (Walk.consult x)
  report : ∀ message span span', Paired R (Walk.report message span) (Walk.report message span')
  bindTo : ∀ node binding, Paired R (Walk.bindTo node binding) (Walk.bindTo node binding)
  bindName : ∀ node name, Paired R (Walk.bindName input node name) (Walk.bindName input' node name)
  evident : ∀ {s t}, R s t → ∀ node,
    evidentType? input s.resolution node = evidentType? input' t.resolution node ∨
      ∀ ds ds', R { s with resolution := { s.resolution with diagnostics := ds } }
        { t with resolution := { t.resolution with diagnostics := ds' } }

section

variable {input input' : ResolveInput} (h : Parallel input input' R)
include h

theorem paired_openScope (node : NodeId) (enclosing : Option NodeId) :
    Paired R (openScope node enclosing) (openScope node enclosing) := by
  refine paired_modify fun s t hst => ?_
  rw [h.owner hst]
  have hopened := h.scopes hst (·.insert node { enclosing, owningClass := t.owner })
  rw [h.owner hst] at hopened
  exact h.atBlock hopened (some node)

theorem paired_modifyScope (block : NodeId) (f : BlockScope → BlockScope) :
    Paired R (modifyScope block f) (modifyScope block f) := fun _ _ hst =>
  ⟨rfl, h.scopes hst (·.modify block f)⟩

theorem paired_scope? (block : NodeId) : Paired R (scope? block) (scope? block) := by
  refine paired_get fun s t hst => ?_
  rw [h.blocks hst]
  exact paired_pure _

theorem paired_noteBlock (node : NodeId) : Paired R (noteBlock node) (noteBlock node) := by
  refine paired_get fun s t hst => ?_
  rw [h.block hst]
  cases t.block with
  | none => exact paired_pure _
  | some block => exact fun _ _ hst => ⟨rfl, h.noted hst (·.insert node block)⟩

theorem paired_resolveClass (written : String) :
    Paired R (resolveClass input written) (resolveClass input' written) := by
  refine paired_get fun s t hst => ?_
  rw [Resolution.resolveClass_congr _ (h.header hst), h.owner hst, h.others]
  exact paired_bind (h.consult _) fun _ => paired_pure _

theorem paired_checkType (type : TypeRef) (span span' : Span) :
    Paired R (checkType input type span) (checkType input' type span') := by
  unfold checkType
  split
  · exact paired_bind (paired_resolveClass h _) fun _ =>
      paired_ite (h.report _ _ _) (paired_pure _)
  · exact paired_pure _

theorem paired_checkBase (node : NodeId) (decl : ClassDecl) (c : ClassSummary) :
    Paired R (checkBase input node decl c) (checkBase input' node decl c) := by
  unfold checkBase
  split
  · refine paired_get fun s t hst => ?_
    rw [Resolution.findClass_congr _ (h.header hst), h.others]
    exact paired_bind (h.consult _) fun _ => paired_ite (h.report _ _ _) (paired_pure _)
  · exact paired_pure _

theorem paired_checkImport (i : ImportedClass) :
    Paired R (checkImport input i) (checkImport input' i) := by
  refine paired_get fun s t hst => ?_
  rw [Resolution.findClass_congr _ (h.header hst), h.others]
  exact paired_bind (h.consult _) fun _ => paired_ite (h.report _ _ _) (paired_pure _)

/-- An expression that is evidently of a wrong type is reported. -/
theorem paired_evident (node : NodeId) (wrong : TypeRef → Bool) (message : TypeRef → String)
    (span span' : Span) :
    Paired R
      (get >>= fun s => match evidentType? input s.resolution node with
        | none => pure ()
        | some type => if wrong type then report (message type) span else pure ())
      (get >>= fun s => match evidentType? input' s.resolution node with
        | none => pure ()
        | some type => if wrong type then report (message type) span' else pure ()) := by
  intro s t hst
  refine ⟨rfl, ?_⟩
  have htells (type? : Option TypeRef) (span : Span) (s : WalkState) : ∃ ds,
      ((match type? with
        | none => pure ()
        | some type => if wrong type then report (message type) span else pure () :
        Walk Unit).run s).2 = { s with resolution := { s.resolution with diagnostics := ds } } := by
    cases type? with
    | none => exact ⟨s.resolution.diagnostics, rfl⟩
    | some type =>
      dsimp only
      split
      · exact ⟨_, rfl⟩
      · exact ⟨s.resolution.diagnostics, rfl⟩
  change R (StateT.run (match evidentType? input s.resolution node with
    | none => pure ()
    | some type => if wrong type then report (message type) span else pure () : Walk Unit) s).2
    (StateT.run (match evidentType? input' t.resolution node with
    | none => pure ()
    | some type => if wrong type then report (message type) span' else pure () : Walk Unit) t).2
  rcases h.evident hst node with heq | hany
  · rw [heq]
    cases evidentType? input' t.resolution node with
    | none => exact hst
    | some type => exact (paired_ite (h.report _ _ _) (paired_pure ()) s t hst).2
  · obtain ⟨ds, hds⟩ := htells (evidentType? input s.resolution node) span s
    obtain ⟨ds', hds'⟩ := htells (evidentType? input' t.resolution node) span' t
    rw [hds, hds']
    exact hany ds ds'

end

end Walk

/-! ### Constructs -/

/-- Visitors that keep states related. -/
structure Visitors.Paired (R : WalkState → WalkState → Prop) (v w : Visitors) : Prop where
  statement : ∀ node, Walk.Paired R (v.statement node) (w.statement node)
  expression : ∀ node, Walk.Paired R (v.expression node) (w.expression node)
  classDecl : ∀ node, Walk.Paired R (v.classDecl node) (w.classDecl node)

namespace Walk

section

variable {R : WalkState → WalkState → Prop} {input input' : ResolveInput} {v w : Visitors}
  (h : Parallel input input' R)
include h

theorem paired_checkNumeric (symbol : String) (operand : NodeId) :
    Paired R (checkNumeric input symbol operand) (checkNumeric input' symbol operand) := by
  exact paired_evident h operand (fun type => type ≠ .any && !type.isNumeric)
    (fun type => s!"Non-numeric operand for '{symbol}' of type {type.name}") _ _

theorem paired_checkVar (hv : v.Paired R w) (decl : NodeId) :
    Paired R (checkVar input v decl) (checkVar input' w decl) := by
  unfold checkVar
  rcases h.ast.varDecl? decl with ⟨hd, hd'⟩ | ⟨var, offset, hd, hd'⟩
  · rw [hd, hd']
    exact paired_pure _
  · rw [hd, hd']
    refine paired_bind (paired_checkType h _ _ _) fun _ => ?_
    dsimp only
    cases var.init with
    | none => exact paired_pure _
    | some init =>
      exact paired_bind (hv.expression _) fun _ =>
        paired_evident h init (fun type => !type.isAssignable var.type)
          (fun type => s!"Cannot convert from {type.name} to {var.type.name}") _ _

theorem paired_declareVar (hv : v.Paired R w) (decl : NodeId) :
    Paired R (declareVar input v decl) (declareVar input' w decl) := by
  refine paired_bind (paired_noteBlock h decl) fun _ => ?_
  rcases h.ast.varDecl? decl with ⟨hd, hd'⟩ | ⟨var, offset, hd, hd'⟩
  · rw [hd, hd']
    exact paired_pure _
  · rw [hd, hd']
    refine paired_bind (paired_checkVar h hv decl) fun _ => ?_
    refine paired_ite (paired_pure _) (paired_get fun s t hst => ?_)
    rw [h.block hst]
    cases t.block with
    | none => exact paired_pure _
    | some block =>
      refine paired_bind (paired_scope? h block) fun scope => ?_
      cases scope with
      | none => exact paired_pure _
      | some scope =>
        dsimp only
        rw [funext (h.ast.any_varDecl?_name var.name)]
        exact paired_ite (h.report _ _ _) (paired_modifyScope h _ _)

theorem paired_declareFunction (block stmt : NodeId) :
    Paired R (declareFunction input block stmt) (declareFunction input' block stmt) := by
  unfold declareFunction
  rcases h.ast.funDecl? stmt with ⟨hd, hd'⟩ | ⟨fn, offset, hd, hd'⟩
  · rw [hd, hd']
    exact paired_pure _
  · rw [hd, hd']
    rcases h.ast.cases stmt with ⟨hd, hd'⟩ | ⟨data, data', hd, hd', hsame⟩
    · rw [hd, hd']
      exact paired_pure _
    · rw [hd, hd']
      cases hsame with
      | same data =>
        cases data with
        | funDecl decl =>
          refine paired_ite (paired_pure _) (paired_bind (paired_scope? h block) fun scope => ?_)
          cases scope with
          | none => exact paired_pure _
          | some scope =>
            dsimp only
            rw [funext (h.ast.any_funDecl?_name fn.name)]
            exact paired_ite (h.report _ _ _) (paired_modifyScope h _ _)
        | _ => exact paired_pure _
      | varDecl offset heq => exact paired_pure _
      | funDecl offset heq => exact paired_pure _

omit h in
theorem blockStatements_respaced (h : input.ast.Respaced input'.ast) (block : NodeId) :
    blockStatements input.ast block = blockStatements input'.ast block := by
  unfold blockStatements
  rcases h.cases block with ⟨hd, hd'⟩ | ⟨data, data', hd, hd', hsame⟩
  · rw [hd, hd']
  · rw [hd, hd']
    cases hsame <;> rfl

theorem paired_walkBlock (hv : v.Paired R w) (block : NodeId) (params : List NodeId) :
    Paired R (walkBlock input v block params) (walkBlock input' w block params) := by
  refine paired_bind (paired_noteBlock h block) fun _ => ?_
  dsimp only
  rw [blockStatements_respaced h.ast]
  refine paired_get fun s t hst => ?_
  rw [h.block hst]
  refine paired_bind (paired_openScope h _ _) fun _ => ?_
  refine paired_bind (paired_forM hv.statement _) fun _ => ?_
  refine paired_bind (paired_forM (paired_declareFunction h block) _) fun _ => ?_
  exact paired_bind (paired_forM hv.statement _) fun _ =>
    paired_modify fun _ _ hst' => h.atBlock hst' t.block

theorem paired_walkFunction (hv : v.Paired R w) (decl : NodeId) :
    Paired R (walkFunction input v decl) (walkFunction input' w decl) := by
  refine paired_bind (paired_noteBlock h decl) fun _ => ?_
  rcases h.ast.funDecl? decl with ⟨hd, hd'⟩ | ⟨fn, offset, hd, hd'⟩
  · rw [hd, hd']
    exact paired_pure _
  · rw [hd, hd']
    exact paired_bind (paired_checkType h _ _ _) fun _ => paired_walkBlock h hv _ _

theorem paired_walkField (hv : v.Paired R w) (known : List String) (field : NodeId) :
    Paired R (walkField input v known field) (walkField input' w known field) := by
  refine paired_bind (paired_noteBlock h field) fun _ => ?_
  rcases h.ast.varDecl? field with ⟨hd, hd'⟩ | ⟨var, offset, hd, hd'⟩
  · rw [hd, hd']
    exact paired_pure _
  · rw [hd, hd']
    have hrest (span span' : Span) : Paired R
        (if var.name.isEmpty then pure known
          else if known.contains var.name then do
            report s!"Field '{var.name}' already declared" span
            pure known
          else pure (var.name :: known))
        (if var.name.isEmpty then pure known
          else if known.contains var.name then do
            report s!"Field '{var.name}' already declared" span'
            pure known
          else pure (var.name :: known)) :=
      paired_ite (paired_pure _)
        (paired_ite (paired_bind (h.report _ _ _) fun _ => paired_pure _) (paired_pure _))
    dsimp only
    rcases h.ast.cases field with ⟨hd, hd'⟩ | ⟨data, data', hd, hd', hsame⟩
    · rw [hd, hd']
      exact hrest _ _
    · rw [hd, hd']
      cases hsame with
      | same data =>
        cases data with
        | varDecl decl => exact paired_bind (paired_checkVar h hv decl) fun _ => hrest _ _
        | _ => exact hrest _ _
      | varDecl offset heq => exact hrest _ _
      | funDecl offset heq => exact hrest _ _

theorem paired_walkClass (hv : v.Paired R w) (node : NodeId) :
    Paired R (walkClass input v node) (walkClass input' w node) := by
  refine paired_get fun s t hst => ?_
  rw [h.ast.classDecl?, show s.resolution.classes = t.resolution.classes from
    congrArg Resolution.Header.classes (h.header hst), h.owner hst, h.block hst]
  split
  · refine paired_bind (paired_checkBase h _ _ _) fun _ => ?_
    refine paired_bind (paired_modify fun _ _ hst' => h.ofOwner hst' _) fun _ => ?_
    refine paired_bind (paired_openScope h _ _) fun _ => ?_
    refine paired_bind (paired_noteBlock h _) fun _ => ?_
    refine paired_bind (paired_foldlM (paired_walkField h hv) _ _) fun _ => ?_
    refine paired_bind (paired_forM hv.statement _) fun _ => ?_
    exact paired_bind (paired_forM hv.classDecl _) fun _ => paired_modify fun _ _ hst' =>
      h.ofOwner (h.atBlock hst' t.block) t.owner
  · exact paired_pure _

theorem paired_walkExpression (hv : v.Paired R w) (node : NodeId) :
    Paired R (walkExpression input v node) (walkExpression input' w node) := by
  refine paired_bind (paired_noteBlock h node) fun _ => ?_
  have hall (nodes : List NodeId) : Paired R (nodes.forM v.expression) (nodes.forM w.expression) :=
    paired_forM hv.expression nodes
  rcases h.ast.cases node with ⟨hd, hd'⟩ | ⟨data, data', hd, hd', hsame⟩
  · rw [hd, hd']
    exact paired_pure _
  · rw [hd, hd']
    cases hsame with
    | varDecl offset heq => exact paired_declareVar h hv node
    | funDecl offset heq => exact paired_walkFunction h hv node
    | same data =>
      cases data with
      | identifier name => exact h.bindName _ _
      | assign name value => exact paired_bind (hv.expression _) fun _ => h.bindName _ _
      | listLiteral items => exact hall _
      | binary op left right =>
        refine paired_bind (hv.expression _) fun _ => paired_bind (hv.expression _) fun _ => ?_
        exact paired_ite (paired_bind (paired_checkNumeric h _ _)
          fun _ => paired_checkNumeric h _ _)
          (paired_pure _)
      | unary op operand =>
        exact paired_bind (hv.expression _) fun _ =>
          paired_ite (paired_checkNumeric h _ _) (paired_pure _)
      | call callee args => exact paired_bind (hv.expression _) fun _ => hall _
      | methodCall target name args => exact paired_bind (hv.expression _) fun _ => hall _
      | closure params body isBlock => exact paired_walkBlock h hv _ _
      | invokeNew className args =>
        refine paired_bind (paired_resolveClass h _) fun found => ?_
        cases found with
        | none => exact paired_bind (h.report _ _ _) fun _ => hall _
        | some fullName => exact paired_bind (h.bindTo _ _) fun _ => hall _
      | funDeclExpr decl => exact paired_walkFunction h hv node
      | varDeclExpr decl => exact paired_declareVar h hv node
      | _ => exact paired_pure _

theorem paired_walkStatement (hv : v.Paired R w) (node : NodeId) :
    Paired R (walkStatement input v node) (walkStatement input' w node) := by
  refine paired_bind (paired_noteBlock h node) fun _ => ?_
  rcases h.ast.cases node with ⟨hd, hd'⟩ | ⟨data, data', hd, hd', hsame⟩
  · rw [hd, hd']
    exact paired_walkExpression h hv _
  · rw [hd, hd']
    cases hsame with
    | varDecl offset heq => exact paired_walkExpression h hv _
    | funDecl offset heq => exact paired_walkExpression h hv _
    | same data =>
      cases data with
      | varDecl decl => exact paired_declareVar h hv _
      | funDecl decl => exact paired_walkFunction h hv _
      | exprStmt expr => exact hv.expression _
      | ifStmt cond thenBranch elseBranch =>
        exact paired_bind (hv.expression _) fun _ => paired_bind (hv.statement _) fun _ =>
          paired_forM hv.statement _
      | whileStmt cond body => exact paired_bind (hv.expression _) fun _ => hv.statement _
      | returnStmt value => exact paired_forM hv.expression _
      | block stmts => exact paired_walkBlock h hv _ _
      | classDecl decl => exact paired_walkClass h hv _
      | noop => exact paired_pure _
      | importDecl path rename => exact paired_pure _
      | _ => exact paired_walkExpression h hv _

theorem paired_visitors (depth : Nat) :
    (visitors input depth).Paired R (visitors input' depth) := by
  induction depth with
  | zero => exact ⟨fun _ => paired_pure _, fun _ => paired_pure _, fun _ => paired_pure _⟩
  | succ depth ih =>
    exact ⟨paired_walkStatement h ih, paired_walkExpression h ih, paired_walkClass h ih⟩

theorem paired_walkScript (hv : v.Paired R w) (script : ClassDecl) :
    Paired R (walkScript input v script) (walkScript input' w script) := by
  refine paired_get fun s t hst => ?_
  rw [show s.resolution.imports = t.resolution.imports from
    congrArg Resolution.Header.imports (h.header hst)]
  refine paired_bind (paired_forM (paired_checkImport h) _) fun _ => ?_
  exact paired_bind (paired_forM (fun _ => paired_walkBlock h hv _ _) _) fun _ =>
    paired_forM (paired_walkClass h hv) _

end

end Walk

end ScriptAnalysis
