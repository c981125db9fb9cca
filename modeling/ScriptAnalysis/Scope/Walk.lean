import ScriptAnalysis.Class.Describe
import ScriptAnalysis.Scope.Assignable
import ScriptAnalysis.Scope.Globals
import ScriptAnalysis.Scope.Resolution

/-!
# Resolving the names of a script

One walk over the nodes in the order of the text.  Every block opens a scope.  The functions
that a block declares directly are known in all of it; a variable is known once its declaration,
initial value included, has been walked.

A name is looked for in the scopes outwards, then among the members of the class at hand and of
its base classes, then, in the code of the script itself, among the globals, and at last among
the classes.

The walk goes from a node only to nodes below it, through `Visitors`, so as many levels as there
are nodes are enough.
-/

namespace ScriptAnalysis

structure ResolveInput where
  file : FileId
  scriptName : String
  ast : Ast
  root : NodeId
  globals : Globals
  others : ClassLookup

/-- What the walk has found out, and where it is. -/
structure WalkState where
  resolution : Resolution
  block : Option NodeId := none
  owner : String := ""
  /-- The questions asked so far, the latest first. -/
  asked : List ClassQuery := []

abbrev Walk := StateM WalkState

structure Visitors where
  statement : NodeId → Walk Unit
  expression : NodeId → Walk Unit
  classDecl : NodeId → Walk Unit

def nameSpan (name : String) (offset : Nat) : Span :=
  (Span.mk 0 name.utf8ByteSize).movedTo offset

/-- The variable or function of a scope that a name refers to. -/
def BlockScope.find? (scope : BlockScope) (ast : Ast) (name : String) : Option NodeId :=
  (scope.vars.find? fun id => (ast.varDecl? id).any (·.name == name)).or
    (scope.funs.find? fun id => (ast.funDecl? id).any (·.name == name))

/-- The member of a class that a name refers to.  Fields go before methods. -/
def ClassSummary.memberBinding? (c : ClassSummary) (name : String) : Option Binding :=
  if (c.field? name).isSome then some (.field c.fullName name)
  else if (c.method? name).isSome then some (.method c.fullName name)
  else none

namespace Walk

/-! ### Changes of the resolution -/

def consult {α : Type} (x : Consulted α) : Walk α := modifyGet fun s =>
  (x.value, { s with asked := x.asked.reverse ++ s.asked })

def modifyResolution (f : Resolution → Resolution) : Walk Unit := modify fun s =>
  { s with resolution := f s.resolution }

def report (message : String) (span : Span) : Walk Unit := modifyResolution fun r =>
  { r with diagnostics := r.diagnostics ++ [.ofResolution message span] }

/-- Notes the scope at hand as the innermost one around a node. -/
def noteBlock (node : NodeId) : Walk Unit := do
  match (← get).block with
  | some block => modifyResolution fun r => { r with nodeBlock := r.nodeBlock.insert node block }
  | none => return

def bindTo (node : NodeId) (binding : Binding) : Walk Unit := modifyResolution fun r =>
  { r with bindings := r.bindings.insert node binding }

/-- Opens a scope for a node and makes it the one at hand. -/
def openScope (node : NodeId) (enclosing : Option NodeId) : Walk Unit := modify fun s =>
  { s with
    block := some node
    resolution := { s.resolution with
      blocks := s.resolution.blocks.insert node { enclosing, owningClass := s.owner } } }

def modifyScope (block : NodeId) (f : BlockScope → BlockScope) : Walk Unit :=
  modifyResolution fun r => { r with blocks := r.blocks.modify block f }

def scope? (block : NodeId) : Walk (Option BlockScope) := return (← get).resolution.blocks[block]?

section

variable (input : ResolveInput)

/-! ### Looking names up -/

/-- The known class that a name stands for here. -/
def resolveClass (written : String) : Walk (Option String) := do
  let s ← get
  let found ← consult (s.resolution.resolveClass input.others written s.owner)
  return found.map ClassSummary.fullName

def lookup (name : String) : Walk (Option Binding) := do
  let s ← get
  let scopes := s.resolution.scopesAround s.block
  match scopes.findSome? fun scope => scope.find? input.ast name with
  | some decl => return some (.localDecl decl)
  | none =>
    let chain ← consult (s.resolution.classChain input.others s.owner)
    match chain.findSome? fun c => c.memberBinding? name with
    | some binding => return some binding
    | none =>
      if s.owner = s.resolution.scriptClass && input.globals.contains name then
        return some (.global name)
      return (← resolveClass input name).map .toClass

/-- Binds a node to what its name refers to, or reports that it refers to nothing. -/
def bindName (node : NodeId) (name : String) : Walk Unit := do
  match ← lookup input name with
  | some binding => bindTo node binding
  | none => report s!"Unknown variable '{name}'" (input.ast.span node)

/-! ### Types -/

/-- The type of a global, where its name tells enough. -/
def globalType? (name : String) : Option TypeRef :=
  match input.globals.type? name with
  | some "String" => some .string
  | some "boolean" => some .boolean
  | _ => none

/-- The type of an expression, where it is evident. -/
def evidentType? (r : Resolution) (node : NodeId) : Option TypeRef :=
  match input.ast.data? node with
  | some (.literal value) => some value.type
  | some (.listLiteral _) => some .list
  | some (.identifier _) =>
    match r.bindings[node]? with
    | some (.localDecl decl) => (input.ast.varDecl? decl).map VarDecl.type
    | some (.global name) => globalType? input name
    | _ => none
  | _ => none

/-- Reports an operand that is evidently no number. -/
def checkNumeric (symbol : String) (operand : NodeId) : Walk Unit := do
  match evidentType? input (← get).resolution operand with
  | none => return
  | some type =>
    if type ≠ .any && !type.isNumeric then
      report s!"Non-numeric operand for '{symbol}' of type {type.name}" (input.ast.span operand)

def checkType (type : TypeRef) (span : Span) : Walk Unit := do
  match type with
  | .named path =>
    if (← resolveClass input path).isNone then report s!"Unknown class '{path}'" span
  | _ => return

/-! ### Declarations -/

variable (v : Visitors)

/-- Checks the type of a variable, walks its initial value and checks that one. -/
def checkVar (decl : NodeId) : Walk Unit := do
  match input.ast.varDecl? decl with
  | none => return
  | some var =>
    checkType input var.type (input.ast.span decl)
    match var.init with
    | none => return
    | some init =>
      v.expression init
      match evidentType? input (← get).resolution init with
      | none => return
      | some type =>
        if !type.isAssignable var.type then
          report s!"Cannot convert from {type.name} to {var.type.name}" (input.ast.span init)

/-- Walks the declaration of a variable and then makes it known in the scope at hand. -/
def declareVar (decl : NodeId) : Walk Unit := do
  noteBlock decl
  match input.ast.varDecl? decl with
  | none => return
  | some var =>
    checkVar input v decl
    if var.name.isEmpty then return
    match (← get).block with
    | none => return
    | some block =>
      match ← scope? block with
      | none => return
      | some scope =>
        if scope.vars.any fun id => (input.ast.varDecl? id).any (·.name == var.name) then
          report s!"Variable '{var.name}' already declared" (nameSpan var.name var.nameOffset)
        else modifyScope block fun scope => { scope with vars := scope.vars ++ [decl] }

/-- Makes the function that a statement declares known in a block. -/
def declareFunction (block stmt : NodeId) : Walk Unit := do
  match input.ast.funDecl? stmt, input.ast.data? stmt with
  | some fn, some (.funDecl decl) =>
    if fn.name.isEmpty then return
    match ← scope? block with
    | none => return
    | some scope =>
      if scope.funs.any fun id => (input.ast.funDecl? id).any (·.name == fn.name) then
        report s!"Function '{fn.name}' already declared" (nameSpan fn.name fn.nameOffset)
      else modifyScope block fun scope => { scope with funs := scope.funs ++ [decl] }
  | _, _ => return

def blockStatements (ast : Ast) (block : NodeId) : List NodeId :=
  match ast.data? block with
  | some (.block stmts) => stmts
  | _ => []

/-- Walks a block in a scope of its own, in which `params` are declared first. -/
def walkBlock (block : NodeId) (params : List NodeId) : Walk Unit := do
  noteBlock block
  let stmts := blockStatements input.ast block
  let around := (← get).block
  openScope block around
  params.forM v.statement
  stmts.forM (declareFunction input block)
  stmts.forM v.statement
  modify fun s => { s with block := around }

/-- Walks a function: the type that it returns, its parameters and its body. -/
def walkFunction (decl : NodeId) : Walk Unit := do
  noteBlock decl
  match input.ast.funDecl? decl with
  | none => return
  | some fn =>
    checkType input fn.returnType (input.ast.span decl)
    walkBlock input v fn.body fn.params

/-! ### Classes -/

def checkBase (node : NodeId) (decl : ClassDecl) (c : ClassSummary) : Walk Unit := do
  match decl.base, c.base with
  | some written, some base =>
    let found ← consult ((← get).resolution.findClass input.others base)
    if found.isNone then report s!"Unknown class '{written}'" (input.ast.span node)
  | _, _ => return

/-- Walks a field.  `known` are the names of the fields before it; answers them with its own. -/
def walkField (known : List String) (field : NodeId) : Walk (List String) := do
  noteBlock field
  match input.ast.varDecl? field with
  | none => return known
  | some var =>
    match input.ast.data? field with
    | some (.varDecl decl) => checkVar input v decl
    | _ => pure ()
    if var.name.isEmpty then return known
    if known.contains var.name then
      report s!"Field '{var.name}' already declared" (nameSpan var.name var.nameOffset)
      return known
    return var.name :: known

def walkClass (node : NodeId) : Walk Unit := do
  let s ← get
  match input.ast.classDecl? node, s.resolution.classes.find? (·.decl == node) with
  | some decl, some c =>
    checkBase input node decl c
    modify fun s => { s with owner := c.fullName }
    openScope node none
    noteBlock node
    let _ ← decl.fields.foldlM (walkField input v) []
    decl.methods.forM v.statement
    decl.inner.forM v.classDecl
    modify fun now => { now with block := s.block, owner := s.owner }
  | _, _ => return

/-! ### Expressions and statements -/

def walkExpression (node : NodeId) : Walk Unit := do
  noteBlock node
  match input.ast.data? node with
  | some (.identifier name) => bindName input node name
  | some (.assign name value) =>
    v.expression value
    bindName input node name
  | some (.listLiteral items) => items.forM v.expression
  | some (.binary op left right) =>
    v.expression left
    v.expression right
    if op.isArithmetic then
      checkNumeric input op.symbol left
      checkNumeric input op.symbol right
  | some (.unary op operand) =>
    v.expression operand
    if op = .negate then checkNumeric input "-" operand
  | some (.call callee args) =>
    v.expression callee
    args.forM v.expression
  | some (.methodCall target _ args) =>
    v.expression target
    (args.getD []).forM v.expression
  | some (.closure params body _) => walkBlock input v body params
  | some (.invokeNew className args) =>
    match ← resolveClass input className with
    | some fullName => bindTo node (.toClass fullName)
    | none => report s!"Unknown class '{className}'" (input.ast.span node)
    args.forM v.expression
  | some (.funDeclExpr _) => walkFunction input v node
  | some (.varDeclExpr _) => declareVar input v node
  | _ => return

def walkStatement (node : NodeId) : Walk Unit := do
  noteBlock node
  match input.ast.data? node with
  | some (.varDecl decl) => declareVar input v decl
  | some (.funDecl decl) => walkFunction input v decl
  | some (.exprStmt expr) => v.expression expr
  | some (.ifStmt cond thenBranch elseBranch) =>
    v.expression cond
    v.statement thenBranch
    elseBranch.toList.forM v.statement
  | some (.whileStmt cond body) =>
    v.expression cond
    v.statement body
  | some (.returnStmt value) => value.toList.forM v.expression
  | some (.block _) => walkBlock input v node []
  | some (.classDecl _) => walkClass input v node
  | some .noop | some (.importDecl _ _) => return
  | _ => walkExpression input v node

/-- The walks over constructs at most `depth` levels deep. -/
def visitors : Nat → Visitors
  | 0 => ⟨fun _ => return, fun _ => return, fun _ => return⟩
  | depth + 1 =>
    let below := visitors depth
    ⟨walkStatement input below, walkExpression input below, walkClass input below⟩

/-! ### Scripts -/

def checkImport (i : ImportedClass) : Walk Unit := do
  let found ← consult ((← get).resolution.findClass input.others i.path)
  if found.isNone then report s!"Unknown class '{i.path}'" (input.ast.span i.node)

/-- Walks a script: its imports, its statements, and its classes. -/
def walkScript (script : ClassDecl) : Walk Unit := do
  (← get).resolution.imports.forM (checkImport input)
  script.body.toList.forM fun body => walkBlock input v body []
  script.inner.forM (walkClass input v)

end

end Walk

/-- What is known of a script before it is walked. -/
def ResolveInput.start (input : ResolveInput) (script : ClassDecl) : WalkState :=
  let scriptClass := qualify script.package input.scriptName
  { resolution := {
      package := script.package
      scriptClass := scriptClass
      classes := describeClasses input.file input.scriptName input.ast input.root
      imports := importsOf input.ast input.root }
    owner := scriptClass }

/-- Resolves the names of a script.  Without the class of a script nothing is known. -/
def ResolveInput.resolve (input : ResolveInput) : Consulted Resolution :=
  match input.ast.classDecl? input.root with
  | none => pure {}
  | some script =>
    let (_, s) := (Walk.walkScript input (Walk.visitors input input.ast.size) script).run
      (input.start script)
    ⟨s.resolution, s.asked.reverse⟩

end ScriptAnalysis
