import ScriptAnalysis.Proofs.Scope.Places

/-!
# How a node is walked

Every statement and every expression is walked in one of a few ways (`WalkShape`): most are noted,
and then their parts are visited one after the other (`Visits`).  What holds of all walks is proved
by these cases, and not by those of the syntax.
-/

namespace ScriptAnalysis.Walk

/-- Whether a node is bound to what its name refers to. -/
def isUse : NodeData → Bool
  | .identifier _ | .assign _ _ | .invokeNew _ _ => true
  | _ => false

/-- A walk that visits the constructs `ns` one after the other.  Operands may be checked in
    between. -/
inductive Visits (input : ResolveInput) (v : Visitors) : Walk Unit → List NodeId → Prop
  | nil : Visits input v (pure ()) []
  | expression {k : NodeId} : input.ast.IsExpr k → Visits input v (v.expression k) [k]
  | statement {k : NodeId} : input.ast.IsStmt k → Visits input v (v.statement k) [k]
  | append {x y : Walk Unit} {ns ms : List NodeId} :
      Visits input v x ns → Visits input v y ms → Visits input v (x >>= fun _ => y) (ns ++ ms)
  | numeric {x : Walk Unit} {ns : List NodeId} (symbol : String) (operand : NodeId) :
      Visits input v x ns → Visits input v (x >>= fun _ => checkNumeric input symbol operand) ns

/-- A walk over the node `m`. -/
inductive WalkShape (input : ResolveInput) (v : Visitors) (m : NodeId) (data : NodeData) :
    Walk Unit → Prop
  /-- The parts are visited, and nothing else is done. -/
  | parts {x : Walk Unit} : isUse data = false → input.ast.opens? m = none →
      (∀ decl, data ≠ .classDecl decl) →
      data.parts.flatMap input.ast.directVars = input.ast.directVars m →
      Visits input v x data.parts → WalkShape input v m data (noteBlock m >>= fun _ => x)
  /-- A name is bound behind the parts. -/
  | name {x : Walk Unit} {name : String} : input.ast.IsName m name →
      data.parts.flatMap input.ast.directVars = [] → Visits input v x data.parts →
      WalkShape input v m data (noteBlock m >>= fun _ => x >>= fun _ => bindName input m name)
  /-- A new object is bound to its class before the arguments are visited. -/
  | new {className : String} {args : List NodeId} {x : Walk Unit}
    {own : Option String → Walk Unit} :
      data = .invokeNew className args → args.flatMap input.ast.directVars = [] →
      Visits input v x args →
      (∀ fullName, own (some fullName) = bindTo m (.toClass fullName) >>= fun _ => x) →
      own none = (report s!"Unknown class '{className}'" (input.ast.span m) >>= fun _ => x) →
      WalkShape input v m data (noteBlock m >>= fun _ => resolveClass input className >>= own)
  /-- A scope is opened. -/
  | block {scope : Surround} : input.ast.opens? m = some scope →
      WalkShape input v m data (noteBlock m >>= fun _ => walkBlock input v scope.block scope.params)
  | funDecl {decl : NodeId} {f : FunDecl} : data = .funDecl decl →
      input.ast.data? decl = some (.funDeclExpr f) →
      WalkShape input v m data (noteBlock m >>= fun _ => walkFunction input v decl)
  | varDecl {decl : NodeId} : data = .varDecl decl →
      WalkShape input v m data (noteBlock m >>= fun _ => declareVar input v decl)

section

variable {input : ResolveInput} {v : Visitors} {m : NodeId} {ns : List NodeId} {data : NodeData}
  {a c : ParsePoint}

theorem flatMap_directVars_eq_nil {ast : Ast} (h : ∀ n ∈ ns, ast.IsExpr n) :
    ns.flatMap ast.directVars = [] :=
  List.flatMap_eq_nil_iff.mpr fun n hn => (h n hn).directVars

theorem Visits.cons {x y : Walk Unit} {k : NodeId} (hx : Visits input v x [k])
    (hy : Visits input v y ns) : Visits input v (x >>= fun _ => y) (k :: ns) := hx.append hy

theorem Visits.forM {visit : NodeId → Walk Unit} (h : ∀ k ∈ ns, Visits input v (visit k) [k]) :
    Visits input v (ns.forM visit) ns := by
  induction ns with
  | nil => exact .nil
  | cons k ns ih =>
    exact .cons (h k (List.mem_cons_self ..)) (ih fun l hl => h l (List.mem_cons_of_mem _ hl))

theorem Visits.expressions (h : ∀ k ∈ ns, input.ast.IsExpr k) :
    Visits input v (ns.forM v.expression) ns := .forM fun k hk => .expression (h k hk)

theorem Visits.statements (h : ∀ k ∈ ns, input.ast.IsStmt k) :
    Visits input v (ns.forM v.statement) ns := .forM fun k hk => .statement (h k hk)

theorem shape_walkExpression (hdata : input.ast.data? m = some data)
    (hformed : data.Formed input.ast) (hexpr : data.isExpr = true) :
    WalkShape input v m data (walkExpression input v m) := by
  have hparts (huse : isUse data = false) (hopens : input.ast.opens? m = none) {x : Walk Unit}
      (hx : Visits input v x data.parts) :
      WalkShape input v m data (noteBlock m >>= fun _ => x) := by
    refine .parts huse hopens ?_ ?_ hx
    · rintro decl rfl
      cases hexpr
    · have hall : ∀ k ∈ data.parts, input.ast.IsExpr k := fun k => by
        refine Ast.isExpr_of_part hformed hexpr ?_
        rintro params body isBlock rfl
        simp [Ast.opens?, hdata] at hopens
      rw [flatMap_directVars_eq_nil hall]
      exact (Ast.IsExpr.directVars ⟨data, hdata, hexpr⟩).symm
  unfold walkExpression
  rw [hdata]
  cases data with
  | identifier name =>
    have hnil : Visits input v (pure ()) (NodeData.identifier name).parts := .nil
    simpa only [pure_bind] using WalkShape.name (.inl hdata) rfl hnil
  | assign name value =>
    refine .name (.inr ⟨value, hdata⟩) ?_ (.expression hformed)
    exact flatMap_directVars_eq_nil (by simpa [NodeData.parts, NodeData.Formed] using hformed)
  | listLiteral items => exact hparts rfl (by simp [Ast.opens?, hdata]) (.expressions hformed)
  | binary op left right =>
    refine hparts rfl (by simp [Ast.opens?, hdata]) ?_
    have hright := Visits.expression (v := v) hformed.2
    refine .cons (.expression hformed.1) ?_
    cases op.isArithmetic with
    | true =>
      simpa only [bind_assoc, if_true] using (hright.numeric op.symbol left).numeric op.symbol right
    | false => exact hright.append .nil
  | unary op operand =>
    refine hparts rfl (by simp [Ast.opens?, hdata]) ?_
    have hoperand := Visits.expression (v := v) hformed
    by_cases hop : op = .negate
    · simp only [hop, if_true]
      exact hoperand.numeric "-" operand
    · simp only [hop, if_false]
      exact hoperand.append .nil
  | call callee args =>
    refine hparts rfl (by simp [Ast.opens?, hdata]) ?_
    exact .cons (.expression hformed.1) (.expressions hformed.2)
  | methodCall target name args =>
    refine hparts rfl (by simp [Ast.opens?, hdata]) ?_
    exact .cons (.expression hformed.1) (.expressions hformed.2)
  | closure params body isBlock =>
    have hopens : input.ast.opens? m =
        some ⟨body, params, blockStatements input.ast body, false⟩ := by
      simp [Ast.opens?, hdata]
    have hblock : WalkShape input v m (.closure params body isBlock) _ := .block hopens
    exact hblock
  | invokeNew className args =>
    exact .new rfl (flatMap_directVars_eq_nil hformed) (.expressions hformed) (fun _ => rfl) rfl
  | literal value => exact hparts rfl (by simp [Ast.opens?, hdata]) .nil
  | noop => exact hparts rfl (by simp [Ast.opens?, hdata]) .nil
  | _ => cases hexpr

theorem shape_walkStatement (hlaid : Laid input.ast a [m] c) (hdata : input.ast.data? m = some data)
    (hformed : data.Formed input.ast) (hstmt : data.isStmt = true) :
    WalkShape input v m data (walkStatement input v m) := by
  have hparts (huse : isUse data = false) (hopens : input.ast.opens? m = none)
      (hvars : data.parts.flatMap input.ast.directVars = input.ast.directVars m) {x : Walk Unit}
      (hx : Visits input v x data.parts) :
      WalkShape input v m data (noteBlock m >>= fun _ => x) := by
    refine .parts huse hopens ?_ hvars hx
    rintro decl rfl
    cases hstmt
  unfold walkStatement
  rw [hdata]
  cases data with
  | varDecl decl => exact .varDecl rfl
  | funDecl decl =>
    obtain ⟨f, hdecl⟩ := hformed
    exact .funDecl rfl hdecl
  | exprStmt expr =>
    refine hparts rfl (by simp [Ast.opens?, hdata]) ?_ (.expression hformed)
    rw [Ast.directVars_eq_nil hdata (by simp) (by simp) (by simp)]
    simpa [NodeData.parts] using Ast.IsExpr.directVars hformed
  | ifStmt cond thenBranch elseBranch =>
    obtain ⟨hcond, hthen, helse⟩ := hformed
    refine hparts rfl (by simp [Ast.opens?, hdata]) ?_ ?_
    · rw [Ast.directVars_of_ifStmt hlaid hdata, NodeData.parts, List.flatMap_cons, hcond.directVars]
      rfl
    · exact .cons (.expression hcond) (.cons (.statement hthen)
        (.statements fun k hk => helse k (Option.mem_toList.mp hk)))
  | whileStmt cond body =>
    refine hparts rfl (by simp [Ast.opens?, hdata]) ?_ ?_
    · rw [Ast.directVars_of_whileStmt hlaid hdata, NodeData.parts, List.flatMap_cons,
        hformed.1.directVars, List.nil_append, List.flatMap_singleton]
    · exact .cons (.expression hformed.1) (.statement hformed.2)
  | returnStmt value =>
    have hvalue : ∀ k ∈ value.toList, input.ast.IsExpr k := fun k hk =>
      hformed k (Option.mem_toList.mp hk)
    refine hparts rfl (by simp [Ast.opens?, hdata]) ?_ (.expressions hvalue)
    rw [Ast.directVars_eq_nil hdata (by simp) (by simp) (by simp)]
    exact flatMap_directVars_eq_nil hvalue
  | block stmts =>
    have hopens : input.ast.opens? m = some ⟨m, [], stmts, false⟩ := by
      simp [Ast.opens?, hdata]
    have hblock : WalkShape input v m (.block stmts) _ := .block hopens
    exact hblock
  | _ => cases hstmt

/-! ### Variables -/

/-- Makes a variable that was walked known in the scope at hand, unless it has no name. -/
def knowVar (input : ResolveInput) (decl : NodeId) (var : VarDecl) : Walk Unit :=
  if var.name.isEmpty then return else do
    match (← get).block with
    | none => return
    | some block =>
      match ← scope? block with
      | none => return
      | some scope =>
        if scope.vars.any fun id => (input.ast.varDecl? id).any (·.name == var.name) then
          report s!"Variable '{var.name}' already declared" (nameSpan var.name var.nameOffset)
        else modifyScope block fun scope => { scope with vars := scope.vars ++ [decl] }

theorem declareVar_eq {decl : NodeId} {var : VarDecl} (hvar : input.ast.varDecl? decl = some var) :
    declareVar input v decl =
      noteBlock decl >>= fun _ => checkVar input v decl >>= fun _ => knowVar input decl var := by
  unfold declareVar
  rw [hvar]
  rfl

/-- A statement declares one variable or, without a name, none. -/
theorem directVars_of_var {ast : Ast} {decl : NodeId} {var : VarDecl}
    (hdata : ast.data? m = some (.varDecl decl)) (hvar : ast.varDecl? decl = some var) :
    ast.directVars m = if var.name.isEmpty then [] else [decl] := by
  rw [Ast.directVars_of_varDecl hdata, Ast.varName?_eq hvar]
  cases hempty : var.name.isEmpty <;> simp [Ast.isNamed, hempty]

/-! ### Functions -/

/-- Makes a function known in a block. -/
def knowFunction (input : ResolveInput) (block decl : NodeId) (f : FunDecl) : Walk Unit := do
  match ← scope? block with
  | none => return
  | some scope =>
    if scope.funs.any fun id => (input.ast.funDecl? id).any (·.name == f.name) then
      report s!"Function '{f.name}' already declared" (nameSpan f.name f.nameOffset)
    else modifyScope block fun scope => { scope with funs := scope.funs ++ [decl] }

theorem funDecl?_of_stmt {ast : Ast} {stmt decl : Nat} (h : Laid ast a [stmt] c)
    (hdata : ast.data? stmt = some (.funDecl decl)) :
    ∃ f, ast.funDecl? stmt = some f ∧ ast.funDecl? decl = some f := by
  obtain ⟨hlaid, hlt⟩ := h.part hdata (k := decl) (by simp [NodeData.parts])
  obtain ⟨_, _, _, _, -, -, hstmt, -⟩ := h.of_data hdata
  obtain ⟨f, hf⟩ := hstmt.formed
  obtain ⟨size, hsize⟩ : ∃ k, ast.size = k + 1 + 1 := ⟨ast.size - 2, by have := h.lt_size; omega⟩
  refine ⟨f, ?_, Ast.funDecl?_of_expr hf⟩
  unfold Ast.funDecl?
  rw [hsize, Ast.funDeclWithin, hdata]
  dsimp only
  rw [Ast.funDeclWithin, hf]

theorem declareFunction_of_none {block stmt : Nat} (hlaid : Laid input.ast a [stmt] c)
    (hnone : input.ast.directFun? stmt = none) : declareFunction input block stmt = pure () := by
  unfold declareFunction
  split
  · next f decl hstmt hdata =>
    obtain ⟨f', hstmt', hdecl⟩ := funDecl?_of_stmt hlaid hdata
    cases hstmt.symm.trans hstmt'
    unfold Ast.directFun? at hnone
    rw [hdata] at hnone
    dsimp only at hnone
    rw [Ast.funName?_eq hdecl] at hnone
    cases hempty : f.name.isEmpty with
    | true => rfl
    | false => simp [Ast.isNamed, hempty] at hnone
  · rfl

theorem declareFunction_of_some {block stmt decl : Nat} (hlaid : Laid input.ast a [stmt] c)
    (hsome : input.ast.directFun? stmt = some decl) : ∃ f, input.ast.funDecl? decl = some f ∧
      declareFunction input block stmt = knowFunction input block decl f := by
  unfold Ast.directFun? at hsome
  split at hsome
  · next decl' hdata =>
    obtain ⟨f, hstmt, hdecl⟩ := funDecl?_of_stmt hlaid hdata
    rw [Ast.funName?_eq hdecl] at hsome
    cases hempty : f.name.isEmpty with
    | true => simp [Ast.isNamed, hempty] at hsome
    | false =>
      obtain rfl : decl' = decl := by simpa [Ast.isNamed, hempty] using hsome
      refine ⟨f, hdecl, ?_⟩
      unfold declareFunction
      rw [hstmt, hdata]
      dsimp only
      rw [if_neg (by simp [hempty])]
      rfl
  · cases hsome

end

end ScriptAnalysis.Walk
