import ScriptAnalysis.Grammar.Production

/-!
# Names, types and variables

The parts of declarations: dotted paths, declared names, types, variables with their initial
values, and parameters.  `declarationShape?` looks ahead to tell whether a declaration starts
here and what it declares.
-/

namespace ScriptAnalysis

/-! ### Looking ahead -/

inductive DeclarationShape where
  | variable
  | function
deriving DecidableEq, Repr

mutual

/-- Skips the dots and names that continue a path. -/
def afterName : List Token → List Token
  | [] => []
  | t :: ts =>
    if t.isTrivia then afterName ts
    else if t.kind = .dot then (afterDot? ts).getD (t :: ts)
    else t :: ts

/-- Skips the name after a dot and what continues the path. -/
def afterDot? : List Token → Option (List Token)
  | [] => none
  | t :: ts =>
    if t.isTrivia then afterDot? ts
    else if t.kind = .ident then some (afterName ts)
    else none

end

/-- Skips a type: a keyword or a path. -/
def afterType? : List Token → Option (List Token)
  | [] => none
  | t :: ts =>
    if t.isTrivia then afterType? ts
    else if t.kind.isTypeKeyword then some ts
    else if t.kind = .ident then some (afterName ts)
    else none

/-- Whether a type and a name stand ahead, and what they declare: a function if a parenthesis
    follows, else a variable. -/
def declarationShape? (ahead : List Token) : Option DeclarationShape :=
  (afterType? ahead).bind fun rest =>
    if (nthSignificant rest 0).map Token.kind = some .ident then
      if (nthSignificant rest 1).map Token.kind = some .leftParen then some .function
      else some .variable
    else none

def keywordType? : TokenKind → Option TypeRef
  | .defKw | .varKw => some .any
  | .booleanType => some .boolean
  | .intType => some .int
  | .longType => some .long
  | .doubleType => some .double
  | .decimalType => some .decimal
  | .stringType => some .string
  | .listType => some .list
  | .mapType => some .map
  | _ => none

def VarRole.nameKind : VarRole → NameKind
  | localVar => .variable
  | parameter => .parameter
  | field => .field

namespace Rules

open Production

def text (r : Rules) (t : Token) : String := t.textIn r.source

def declarationShape : Production (Option DeclarationShape) :=
  return declarationShape? (← get).draft.ahead

/-- Names joined by dots, if there is a name. -/
def dottedPath (source : String) : Production (Option String) := do
  let first ← current
  if first.kind ≠ .ident then return none
  advance
  let path ← repeatFrom (fun path => do
    if (← at? .dot) && (← kindAfter 1) == .ident then
      advance
      let name ← current
      advance
      return .inl (path ++ "." ++ name.textIn source)
    return .inr path) (first.textIn source)
  return some path

/-- A declared name and its offset.  A missing name is empty. -/
def name (r : Rules) (nameKind : NameKind) : Production (String × Nat) := do
  let t ← current
  if t.kind ≠ .ident then
    let _ ← expect r.source .ident "name"
    return ("", t.offset)
  let m ← openMarker
  advance
  let node ← alloc (.name (r.text t) nameKind) t.span
  close m node
  return (r.text t, t.offset)

/-- A type: a keyword, or the path of a class. -/
def type (r : Rules) : Production TypeRef := do
  let m ← openMarker
  let start ← here
  match keywordType? (← kind) with
  | some declared =>
    advance
    let _ ← finish m start (.type declared)
    return declared
  | none =>
    match ← dottedPath r.source with
    | some path =>
      let _ ← finish m start (.type (.named path))
      return .named path
    | none =>
      reportHere r.source m "type"
      return .any

/-- A variable: its type unless it goes without, its name, and its initial value, if any. -/
def varDecl (r : Rules) (role : VarRole) (typed : Bool) : Production NodeId := do
  let m ← openMarker
  let start ← here
  let declared ← if typed then r.type else pure .any
  let (declaredName, nameOffset) ← r.name role.nameKind
  let init ← if ← accept .equal then some <$> Parsed.node <$> r.expr else pure none
  let span ← spanFrom start
  let decl ← alloc (.varDeclExpr ⟨declaredName, nameOffset, declared, init, role⟩) span
  let node ← alloc (.varDecl decl) span
  close m node
  return node

/-- A parameter.  It goes without a type if its name is followed by what may end a
    parameter. -/
def param (r : Rules) : Production NodeId := do
  let next ← kindAfter 1
  let untyped := (← at? .ident) &&
    (next == .comma || next == .rightParen || next == .equal || next == .arrow)
  r.varDecl .parameter !untyped

def params (r : Rules) : Production (List NodeId) := do
  let m ← openMarker
  let mut declared := []
  if ← expect r.source .leftParen "'('" then
    if !(← at? .rightParen) then declared ← separated r.param
    let _ ← expect r.source .rightParen "')'"
  closeGroup m
  return declared

end Rules

end ScriptAnalysis
