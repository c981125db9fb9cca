import ScriptAnalysis.Grammar.Expression

/-!
# Statements and functions

Braces in place of a statement are first read as a closure.  If that has no parameters the
braces are a plain block, and the statement is the body.
-/

namespace ScriptAnalysis.Rules

open Production

/-- A block in braces with a marker of its own. -/
def block (r : Rules) : Production NodeId := do
  let m ← openMarker
  let start ← here
  let mut stmts := []
  if ← expect r.source .leftBrace "'\x7b'" then
    stmts ← r.statementsUntil .rightBrace
    let _ ← expect r.source .rightBrace "'\x7d'"
  finish m start (.block stmts)

/-- A function or a method: its type, its name, its parameters and its body. -/
def funDecl (r : Rules) (isMethod : Bool) : Production NodeId := do
  let m ← openMarker
  let start ← here
  let returnType ← r.type
  let (declaredName, nameOffset) ← r.name (if isMethod then .method else .function)
  let declared ← r.params
  let body ← r.block
  let span ← spanFrom start
  let decl ← alloc
    (.funDeclExpr ⟨declaredName, nameOffset, returnType, declared, body, isMethod⟩) span
  let node ← alloc (.funDecl decl) span
  close m node
  return node

def bracedStatement (r : Rules) : Production NodeId := do
  let braces ← r.expression
  let m ← openBefore braces.marker
  let result ← match (← get).ast.data? braces.node with
    | some (.closure [] body _) =>
      modify fun s => { s with ast := s.ast.modify braces.node fun n =>
        { n with data := .closure [] body true } }
      pure body
    | _ => alloc (.exprStmt braces.node) ((← get).ast.span braces.node)
  close m result
  return result

/-- The branch of an `if` or a `while`.  Where no statement stands it is an empty block. -/
def branch (r : Rules) : Production NodeId := do
  match ← r.statement with
  | some stmt => return stmt
  | none => allocFrom (← get).lastEnd (.block [])

def condition (r : Rules) : Production NodeId := do
  let _ ← expect r.source .leftParen "'('"
  let cond ← r.expression
  let _ ← expect r.source .rightParen "')'"
  return cond.node

def ifStatement (r : Rules) : Production NodeId := do
  let m ← openMarker
  let start ← here
  advance
  let cond ← r.condition
  let thenBranch ← r.branch
  let elseBranch ← if ← accept .elseKw then some <$> r.branch else pure none
  finish m start (.ifStmt cond thenBranch elseBranch)

def whileStatement (r : Rules) : Production NodeId := do
  let m ← openMarker
  let start ← here
  advance
  let cond ← r.condition
  let body ← r.branch
  finish m start (.whileStmt cond body)

def returnStatement (r : Rules) : Production NodeId := do
  let m ← openMarker
  let start ← here
  advance
  let value ← if startsExpression (← kind) then some <$> Parsed.node <$> r.expression
    else pure none
  finish m start (.returnStmt value)

def expressionStatement (r : Rules) : Production NodeId := do
  let m ← openMarker
  let start ← here
  let expr ← r.expression
  finish m start (.exprStmt expr.node)

def emptyStatement : Production Unit := do
  let m ← openMarker
  let start ← here
  advance
  let _ ← finish m start .noop

/-- Reports a token that starts no statement.  A closing brace is left for the block around it,
    and `else` for the `if` around it. -/
def strayToken (r : Rules) : Production Unit := do
  match ← kind with
  | .rightBrace | .elseKw =>
    let m ← openMarker
    reportHere r.source m "expression"
  | _ => skipUnexpected r.source "expression"

/-- A statement that its first token does not announce: a declaration or an expression. -/
def plainStatement (r : Rules) : Production (Option NodeId) := do
  match ← declarationShape with
  | some .function => some <$> r.funDecl false
  | some .variable => some <$> r.varDecl .localVar true
  | none =>
    if startsExpression (← kind) then some <$> r.expressionStatement
    else
      r.strayToken
      return none

/-- A statement with the semicolon that may end it. -/
def aStatement (r : Rules) : Production (Option NodeId) := do
  let stmt ← match ← kind with
    | .semicolon =>
      emptyStatement
      pure none
    | .leftBrace => some <$> r.bracedStatement
    | .ifKw => some <$> r.ifStatement
    | .whileKw => some <$> r.whileStatement
    | .returnKw => some <$> r.returnStatement
    | _ => r.plainStatement
  if stmt.isSome then
    let _ ← accept .semicolon
  return stmt

end ScriptAnalysis.Rules
