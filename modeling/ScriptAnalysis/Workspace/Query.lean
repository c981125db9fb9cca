import ScriptAnalysis.Scope.Visible
import ScriptAnalysis.Workspace.Analyzer

/-!
# Questions about places in a text

Each question names a file, its text at the moment, and mostly the key of a place.  Where no scope
is known around the place, nothing is visible there.
-/

namespace ScriptAnalysis.Query

def errorsAt (file : FileId) (text : String) (offset : Nat) : Query (List Diagnostic) :=
  return (← put file text).analysis.errorsAt offset

def errorsForNode (file : FileId) (text : String) (id : TreeId) : Query (List Diagnostic) :=
  return (← put file text).analysis.errorsForNode id

/-- The node of a key, and the analysis to which it belongs. -/
def lookupNode (file : FileId) (text : String) (key : AstKey) :
    Query (Option (Snapshot × NodeId)) := do
  let s ← put file text
  return (s.analysis.lookup key).map fun node => (s, node)

/-- Answers a question about the scope at a key, `absent` if there is none. -/
def atScope {α : Type} (file : FileId) (text : String) (key : AstKey) (absent : α)
    (ask : Analysis → NodeId → ClassLookup → Consulted α) : Query α := do
  let a := (← put file text).analysis
  match a.scopedNode? key with
  | none => return absent
  | some node => consult file (ask a node)

def visibleDeclarations (file : FileId) (text : String) (key : AstKey) :
    Query (List Declaration) :=
  atScope file text key [] fun a node others =>
    a.resolution.visibleDeclarations a.ast others node (a.locationOf key)

def visibleClasses (file : FileId) (text : String) (key : AstKey) : Query (List ClassSummary) :=
  atScope file text key [] fun a node others => a.resolution.visibleClasses others node

def owningClass (file : FileId) (text : String) (key : AstKey) : Query (Option ClassSummary) :=
  atScope file text key none fun a node others => a.resolution.owningClass others node

/-- Whether a text imports a class under this name or from this path. -/
def isImported (file : FileId) (text name : String) : Query Bool :=
  return (← put file text).analysis.resolution.isImported name

/-- The class of a text by its full name, or by its name within the package of the text. -/
def classNamed (file : FileId) (text name : String) : Query (Option ClassSummary) :=
  return (← put file text).analysis.classNamed? name

/-- The class of a full name in the first of some files that declares it. -/
def classAmong (fullName : String) :
    List (FileId × SourceFile) → Query (Option (Snapshot × ClassSummary))
  | [] => return none
  | (file, source) :: rest => do
    let s ← put file source.text
    match s.analysis.resolution.localClass? fullName with
    | some c => return some (s, c)
    | none => classAmong fullName rest

def findClass (fullName : String) : Query (Option (Snapshot × ClassSummary)) := do
  classAmong fullName ((← get).sources.candidatesFor fullName)

/-- The class of a full name, in an analysis at hand or else in the workspace, with the analysis
    that declares it. -/
def classFrom (a : Analysis) (fullName : String) : Query (Option (Analysis × ClassSummary)) := do
  match a.resolution.localClass? fullName with
  | some c => return some (a, c)
  | none => return (← findClass fullName).map fun (s, c) => (s.analysis, c)

/-- The key of the declaration to which a binding leads.  Globals are not declared anywhere. -/
def declarationKey (a : Analysis) : Binding → Query (Option AstKey)
  | .localDecl decl => return a.keyOf? decl
  | .global _ => return none
  | .toClass fullName => return (← classFrom a fullName).bind fun (owner, c) => owner.classKey? c
  | .field ofClass name | .method ofClass name =>
    return (← classFrom a ofClass).bind fun (owner, c) => owner.memberKey? c name

/-- The key of the declaration to which the name at a key refers, perhaps in another file. -/
def declarationOf (file : FileId) (text : String) (key : AstKey) : Query (Option AstKey) := do
  let a := (← put file text).analysis
  match (a.lookup key).bind fun node => a.resolution.bindings[node]? with
  | some binding => declarationKey a binding
  | none => return none

end ScriptAnalysis.Query
