import ScriptAnalysis.Grammar.Declaration
import ScriptAnalysis.Grammar.Literal

/-!
# Expressions

Assignments are the loosest, then the six levels of binary operators, the operators before an
operand, the calls and accesses after one, and the primary expressions.  An operator or a call
wraps what stands before it with `openBefore`, once it is seen, so operators of one level
associate to the left.
-/

namespace ScriptAnalysis

/-- The binary operators, level by level from the loosest to the tightest. -/
def binaryLevels : List (List (TokenKind × BinaryOp)) :=
  [[(.pipePipe, .or)],
   [(.ampAmp, .and)],
   [(.equalEqual, .eq), (.bangEqual, .notEq)],
   [(.less, .less), (.lessEqual, .lessEq), (.greater, .greater), (.greaterEqual, .greaterEq)],
   [(.plus, .add), (.minus, .sub)],
   [(.star, .mul), (.slash, .div), (.percent, .mod)]]

def unaryOp? : TokenKind → Option UnaryOp
  | .bang => some .not
  | .minus => some .negate
  | _ => none

def startsExpression : TokenKind → Bool
  | .ident | .intLiteral | .decimalLiteral | .stringLiteral | .trueKw | .falseKw | .nullKw
  | .leftParen | .leftSquare | .leftBrace | .bang | .minus | .newKw => true
  | _ => false

/-- The tokens that close something or end a statement.  Where one of them stands in place of an
    expression it is left for what it closes. -/
def isCloser : TokenKind → Bool
  | .rightParen | .rightBrace | .rightSquare | .semicolon | .eof => true
  | _ => false

namespace Rules

open Production

/-- Expressions with commas between them, after an opening bracket and up to a closing one. -/
def args (r : Rules) (closing : TokenKind) (what : String) : Production (List NodeId) := do
  advance
  let mut read := []
  if !(← at? closing) then read ← separated (Parsed.node <$> r.expr)
  let _ ← expect r.source closing what
  return read

/-- Statements up to a token of this kind or the end of the text.  A statement that consumes
    nothing has reported the next token, which is then skipped. -/
def statementsUntil (r : Rules) (stop : TokenKind) : Production (List NodeId) :=
  repeatFrom (fun read => do
    if (← at? stop) || (← atEnd) then return .inr read.reverse
    let before ← current
    let stmt ← r.statement
    skipIfStuck before
    return .inl (stmt.toList ++ read)) []

/-- Parameters before an arrow.  Without the arrow they were none, and the attempt is taken
    back. -/
def closureParams (r : Rules) : Production (List NodeId) := do
  let next ← kind
  if next ≠ .ident && !next.isTypeKeyword then return []
  let m ← openMarker
  let lastEnd := (← get).lastEnd
  let declared ← separated r.param
  if ← accept .arrow then
    closeGroup m
    return declared
  undo m lastEnd
  return []

/-- Braces with a body, and parameters before it, if any; their marker is `m`. -/
def closure (r : Rules) (m : MarkerId) : Production Parsed := do
  let start ← here
  advance
  let declared ← r.closureParams
  let stmts ← r.statementsUntil .rightBrace
  let _ ← expect r.source .rightBrace "'\x7d'"
  let span ← spanFrom start
  let body ← alloc (.block stmts) span
  let node ← alloc (.closure declared body false) span
  close m node
  return ⟨m, node⟩

/-- An object of a class: the class, and the arguments in parentheses. -/
def invokeNew (r : Rules) : Production NodeData := do
  advance
  let className := (← r.type).name
  if ← at? .leftParen then return .invokeNew className (← r.args .rightParen "')'")
  let _ ← expect r.source .leftParen "'('"
  return .invokeNew className []

/-- Reports a token that starts no expression, under the marker `m`. -/
def missingExpression (r : Rules) (m : MarkerId) (t : Token) : Production Parsed := do
  if !isCloser t.kind then advance
  report m (unexpected r.source t "expression") t.span
  return ⟨m, ← alloc .noop t.span⟩

/-- Reads an integer literal under the marker `m`.  One that is too large is reported and means
    nothing. -/
def intLiteral (r : Rules) (m : MarkerId) (t : Token) : Production Parsed := do
  advance
  match intValue? (r.text t) with
  | some value => return ⟨m, ← finish m t.offset (.literal (.int value))⟩
  | none =>
    report m "Integer literal too large" t.span
    return ⟨m, ← alloc .noop t.span⟩

/-- Consumes a token that is an expression by itself. -/
def simple (m : MarkerId) (t : Token) (data : NodeData) : Production Parsed := do
  advance
  return ⟨m, ← finish m t.offset data⟩

/-- An expression that no operator takes apart. -/
def primary (r : Rules) : Production Parsed := do
  let t ← current
  let m ← openMarker
  match t.kind with
  | .intLiteral => r.intLiteral m t
  | .decimalLiteral => simple m t (.literal (.decimal (decimalDigits (r.text t))))
  | .stringLiteral => simple m t (.literal (.str (stringValue (r.text t))))
  | .trueKw => simple m t (.literal (.bool true))
  | .falseKw => simple m t (.literal (.bool false))
  | .nullKw => simple m t (.literal .null)
  | .ident => simple m t (.identifier (r.text t))
  | .leftParen =>
    advance
    let inner ← r.expr
    let _ ← expect r.source .rightParen "')'"
    dissolve m
    return ⟨m, inner.node⟩
  | .leftSquare =>
    let items ← r.args .rightSquare "']'"
    return ⟨m, ← finish m t.offset (.listLiteral items)⟩
  | .leftBrace => r.closure m
  | .newKw =>
    let data ← r.invokeNew
    return ⟨m, ← finish m t.offset data⟩
  | _ => r.missingExpression m t

/-- The field or method after a dot, with its arguments, if there are any. -/
def member (r : Rules) (target : NodeId) : Production NodeData := do
  advance
  let t ← current
  let name ← if ← expect r.source .ident "field or method name" then pure (r.text t) else pure ""
  if ← at? .leftParen then
    return .methodCall target name (some (← r.args .rightParen "')'"))
  return .methodCall target name none

def suffixed (r : Rules) : Production Parsed := do
  let start ← here
  repeatFrom (fun target => do
    match ← kind with
    | .leftParen =>
      let m ← openBefore target.marker
      let read ← r.args .rightParen "')'"
      return .inl ⟨m, ← finish m start (.call target.node read)⟩
    | .dot =>
      let m ← openBefore target.marker
      let data ← r.member target.node
      return .inl ⟨m, ← finish m start data⟩
    | _ => return .inr target) (← r.primary)

def operand (r : Rules) : Production Parsed := do
  match unaryOp? (← kind) with
  | none => r.suffixed
  | some op =>
    let m ← openMarker
    let start ← here
    advance
    let inner ← r.unary
    return ⟨m, ← finish m start (.unary op inner.node)⟩

/-- Operands joined by the operators of these levels, the loosest first. -/
def binary (r : Rules) : List (List (TokenKind × BinaryOp)) → Production Parsed
  | [] => r.operand
  | operators :: tighter => do
    let start ← here
    let first ← r.binary tighter
    repeatFrom (fun left => do
      match operators.lookup (← kind) with
      | none => return .inr left
      | some op =>
        let m ← openBefore left.marker
        advance
        let right ← r.binary tighter
        return .inl ⟨m, ← finish m start (.binary op left.node right.node)⟩) first

/-- An expression: an assignment to a name, or operands joined by operators. -/
def expression (r : Rules) : Production Parsed := do
  if (← at? .ident) && (← kindAfter 1) == .equal then
    let m ← openMarker
    let t ← current
    advance
    advance
    let value ← r.expr
    return ⟨m, ← finish m t.offset (.assign (r.text t) value.node)⟩
  r.binary binaryLevels

end Rules

end ScriptAnalysis
