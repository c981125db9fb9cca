import ScriptAnalysis.Scope.Resolution

/-!
# What may be used at a place

The variables, functions, members and classes that may be named at a node, the nearest first.
Of several with one name the nearest hides the others.
-/

namespace ScriptAnalysis

def keepFirst {α : Type} (key : α → String) : List α → List α
  | [] => []
  | a :: as => a :: (keepFirst key as).filter fun b => key b != key a

namespace Resolution

/-- The variables of a scope that are declared before `location`, then its functions. -/
def declaredIn (ast : Ast) (location : Nat) (scope : BlockScope) : List Declaration :=
  (scope.vars.filterMap fun id =>
    match ast.varDecl? id with
    | some v =>
      if (ast.span id).start < location then some (.variable v.name v.type id) else none
    | none => none) ++
  scope.funs.filterMap fun id =>
    (ast.funDecl? id).map fun f => .function f.name id

def fieldsOf (c : ClassSummary) : List Declaration :=
  c.fields.map fun f => .field f.name f.type c.fullName

def methodsOf (c : ClassSummary) : List Declaration :=
  c.methods.map fun m => .method m.name c.fullName

/-- What may be named at a node: the variables declared before `location` and the functions of
    the scopes around it, innermost first, then the fields and then the methods of its class and
    its base classes. -/
def visibleDeclarations (r : Resolution) (ast : Ast) (others : ClassLookup) (node : NodeId)
    (location : Nat) : Consulted (List Declaration) := do
  let scopes := r.scopesAround r.nodeBlock[node]?
  let declared := scopes.flatMap (declaredIn ast location)
  let chain ← match scopes.head? with
    | none => pure []
    | some scope => r.classChain others scope.owningClass
  return keepFirst Declaration.name
    (declared ++ chain.flatMap fieldsOf ++ chain.flatMap methodsOf)

/-- The classes of several full names, as far as they are known. -/
def findEach (r : Resolution) (others : ClassLookup) :
    List String → Consulted (List ClassSummary)
  | [] => pure []
  | fullName :: rest => do
    let found ← r.findClass others fullName
    return found.toList ++ (← r.findEach others rest)

/-- Each class of a chain, unless it is that of a script, followed by the classes in it. -/
def withInner (r : Resolution) (others : ClassLookup) :
    List ClassSummary → Consulted (List ClassSummary)
  | [] => pure []
  | c :: rest => do
    let inner ← r.findEach others c.inner
    return (if c.isScript then [] else [c]) ++ inner ++ (← r.withInner others rest)

/-- The classes along the base classes of several classes, and the classes in them. -/
def withBases (r : Resolution) (others : ClassLookup) :
    List String → Consulted (List ClassSummary)
  | [] => pure []
  | fullName :: rest => do
    let chain ← r.classChain others fullName
    let found ← r.withInner others chain
    return found ++ (← r.withBases others rest)

/-- The classes that may be named at a node: its class and the classes around it, with their
    base classes and all inner classes, then the imported classes, then those of the package. -/
def visibleClasses (r : Resolution) (others : ClassLookup) (node : NodeId) :
    Consulted (List ClassSummary) := do
  match r.scopeOf? node with
  | none => return []
  | some scope =>
    let around ← r.withBases others (← r.enclosingClasses others scope.owningClass)
    let imported ← r.findEach others (r.imports.map ImportedClass.path)
    let top := r.classes.filter (·.enclosing.isNone)
    let samePackage ← others.askPackage (r.package.getD "")
    return keepFirst ClassSummary.fullName
      (around ++ imported ++ (top ++ samePackage).filter (!·.isScript))

end Resolution

end ScriptAnalysis
