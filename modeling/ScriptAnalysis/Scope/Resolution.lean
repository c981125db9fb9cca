import ScriptAnalysis.Class.Lookup
import ScriptAnalysis.Class.Reference
import ScriptAnalysis.Diagnostic.Basic
import Std.Data.TreeMap.Basic

/-!
# What the names of a script refer to

A `Resolution` holds the scopes of a script, the meaning of its names, its classes and its
imports.  Classes are looked for in the script first and then in other files.

Chains of classes, along base classes or outwards, are followed while the names are known and
new.  A chain is therefore no longer than the number of known names, whatever cycles the classes
form.
-/

namespace ScriptAnalysis

/-- A scope: a block, or the members of a class. -/
structure BlockScope where
  enclosing : Option NodeId
  /-- The full name of the class to which the code belongs. -/
  owningClass : String
  vars : List NodeId := []
  funs : List NodeId := []
deriving DecidableEq, Repr

inductive Binding where
  /-- A variable, a parameter or a function, by its declaration. -/
  | localDecl (decl : NodeId)
  | global (name : String)
  | field (ofClass name : String)
  | method (ofClass name : String)
  | toClass (fullName : String)
deriving DecidableEq, Repr

inductive Declaration where
  | variable (name : String) (type : TypeRef) (decl : NodeId)
  | function (name : String) (decl : NodeId)
  | field (name : String) (type : TypeRef) (ofClass : String)
  | method (name : String) (ofClass : String)
deriving DecidableEq, Repr

def Declaration.name : Declaration → String
  | .variable name _ _ => name
  | .function name _ => name
  | .field name _ _ => name
  | .method name _ => name

/-- What is known of a script after its names are resolved. -/
structure Resolution where
  package : Option String := none
  scriptClass : String := ""
  /-- The scopes, by their block or class. -/
  blocks : Std.TreeMap NodeId BlockScope := ∅
  /-- The innermost scope around each node. -/
  nodeBlock : Std.TreeMap NodeId NodeId := ∅
  bindings : Std.TreeMap NodeId Binding := ∅
  /-- The classes of the script, its own class first. -/
  classes : List ClassSummary := []
  imports : List ImportedClass := []
  diagnostics : List Diagnostic := []

namespace Resolution

def localClass? (r : Resolution) (fullName : String) : Option ClassSummary :=
  r.classes.find? (·.fullName == fullName)

/-- The class of a full name, in this script or else in another file. -/
def findClass (r : Resolution) (others : ClassLookup) (fullName : String) :
    Consulted (Option ClassSummary) :=
  match r.localClass? fullName with
  | some c => pure (some c)
  | none => others.ask fullName

/-- The first of several full names that is known. -/
def findFirst (r : Resolution) (others : ClassLookup) :
    List String → Consulted (Option ClassSummary)
  | [] => pure none
  | fullName :: rest => do
    match ← r.findClass others fullName with
    | some c => return some c
    | none => r.findFirst others rest

/-- More steps than a chain of known classes without repetition can take. -/
def chainLimit (r : Resolution) (others : ClassLookup) : Nat :=
  r.classes.length + others.limit + 1

/-- Follows base classes while they are known and not among `seen`. -/
def basesFrom (r : Resolution) (others : ClassLookup) :
    Nat → List String → String → Consulted (List ClassSummary)
  | 0, _, _ => pure []
  | steps + 1, seen, fullName => do
    if fullName ∈ seen then return []
    match ← r.findClass others fullName with
    | none => return []
    | some c =>
      match c.base with
      | none => return [c]
      | some base => return c :: (← r.basesFrom others steps (fullName :: seen) base)

/-- A class and its base classes, the nearest first.  The chain ends at an unknown class or
    where it would repeat itself. -/
def classChain (r : Resolution) (others : ClassLookup) (fullName : String) :
    Consulted (List ClassSummary) :=
  r.basesFrom others (r.chainLimit others) [] fullName

/-- Goes outwards from a class while the names are not among `seen`. -/
def outwardsFrom (r : Resolution) (others : ClassLookup) :
    Nat → List String → String → Consulted (List String)
  | 0, _, _ => pure []
  | steps + 1, seen, fullName => do
    if fullName ∈ seen then return []
    match (← r.findClass others fullName).bind ClassSummary.enclosing with
    | none => return [fullName]
    | some outer =>
      return fullName :: (← r.outwardsFrom others steps (fullName :: seen) outer)

/-- The full names of a class and of the classes around it, innermost first. -/
def enclosingClasses (r : Resolution) (others : ClassLookup) (fullName : String) :
    Consulted (List String) :=
  r.outwardsFrom others (r.chainLimit others) [] fullName

/-- The known class that a name stands for, as written in the class `around`. -/
def resolveClass (r : Resolution) (others : ClassLookup) (written around : String) :
    Consulted (Option ClassSummary) := do
  let outer ← r.enclosingClasses others around
  r.findFirst others (candidates written outer r.package r.imports)

def scopeOf? (r : Resolution) (node : NodeId) : Option BlockScope :=
  (r.nodeBlock[node]?).bind fun block => r.blocks[block]?

/-- The class to which the code at a node belongs. -/
def owningClass (r : Resolution) (others : ClassLookup) (node : NodeId) :
    Consulted (Option ClassSummary) :=
  match r.scopeOf? node with
  | none => pure none
  | some scope => r.findClass others scope.owningClass

/-- Whether an import introduces `name`, as a name or as a path. -/
def isImported (r : Resolution) (name : String) : Bool :=
  r.imports.any fun i => i.name == name || i.path == name

/-- At most `steps` scopes from a block outwards. -/
def scopesFrom (r : Resolution) : Nat → Option NodeId → List BlockScope
  | 0, _ => []
  | _, none => []
  | steps + 1, some block =>
    match r.blocks[block]? with
    | none => []
    | some scope => scope :: r.scopesFrom steps scope.enclosing

def scopesAround (r : Resolution) (block : Option NodeId) : List BlockScope :=
  r.scopesFrom r.blocks.size block

end Resolution

end ScriptAnalysis
