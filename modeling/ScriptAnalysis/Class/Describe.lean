import ScriptAnalysis.Class.Reference
import ScriptAnalysis.Class.Summary

/-!
# The classes that a file declares

`describeClasses` summarises every class of a parsed script, the class of the script first and
each class before those in it.  The class that a class extends is looked for in the file alone:
the first candidate that the file declares, else the first that it imports, else the last one.
-/

namespace ScriptAnalysis

/-- A class to be summarised: its declaration, its names, and the class around it. -/
structure ClassSite where
  decl : NodeId
  name : String
  fullName : String
  enclosing : Option String

/-- The classes directly in a class.  Those of a script count as declared in its package. -/
def innerSites (ast : Ast) (site : ClassSite) (decl : ClassDecl) : List ClassSite :=
  decl.inner.filterMap fun id =>
    match ast.classDecl? id with
    | none => none
    | some inner =>
      if inner.name.isEmpty then none
      else
        let fullName := if decl.isScript then qualify decl.package inner.name
          else site.fullName ++ "." ++ inner.name
        some ⟨id, inner.name, fullName, if decl.isScript then none else some site.fullName⟩

/-- The fields of a class.  Fields without a name do not count. -/
def fieldSummaries (ast : Ast) (decl : ClassDecl) : List FieldSummary :=
  ((decl.fields.filterMap ast.varDecl?).filter fun v => !v.name.isEmpty).map fun v =>
    ⟨v.name, v.type⟩

/-- The methods of a class.  Methods without a name do not count. -/
def methodSummaries (ast : Ast) (decl : ClassDecl) : List MethodSummary :=
  ((decl.methods.filterMap ast.funDecl?).filter fun f => !f.name.isEmpty).map fun f =>
    ⟨f.name, f.returnType, f.params.length⟩

/-- The summary of one class.  The class it extends is given as written. -/
def summarise (file : FileId) (ast : Ast) (site : ClassSite) (decl : ClassDecl) : ClassSummary where
  name := site.name
  package := decl.package
  fullName := site.fullName
  base := decl.base
  fields := fieldSummaries ast decl
  methods := methodSummaries ast decl
  inner := (innerSites ast site decl).map ClassSite.fullName
  enclosing := site.enclosing
  isScript := decl.isScript
  file := file
  decl := site.decl

/-- The summaries of a class and of those in it, nested at most `depth` deep. -/
def summariesBelow (file : FileId) (ast : Ast) : Nat → ClassSite → List ClassSummary
  | 0, _ => []
  | depth + 1, site =>
    match ast.classDecl? site.decl with
    | none => []
    | some decl =>
      summarise file ast site decl ::
        (innerSites ast site decl).flatMap (summariesBelow file ast depth)

/-- Goes outwards from a class at most `steps` times. -/
def outwards (classes : List ClassSummary) : Nat → Option String → List String
  | 0, _ => []
  | _, none => []
  | steps + 1, some fullName =>
    fullName :: outwards classes steps
      ((classes.find? (·.fullName == fullName)).bind ClassSummary.enclosing)

/-- The full names of a class and of the classes around it, innermost first. -/
def enclosingChain (classes : List ClassSummary) (c : ClassSummary) : List String :=
  c.fullName :: outwards classes (classes.length + 1) c.enclosing

/-- Whether a full name is, or lies within, an imported class. -/
def isImportedName (imports : List ImportedClass) (fullName : String) : Bool :=
  imports.any fun i => fullName == i.path || (i.path ++ ".").isPrefixOf fullName

/-- The full name of the class that `c` extends, as well as the file alone tells. -/
def baseWithin (classes : List ClassSummary) (package : Option String)
    (imports : List ImportedClass) (c : ClassSummary) : Option String := do
  let written ← c.base
  let found := candidates written (enclosingChain classes c) package imports
  let declared := found.find? fun fullName => classes.any (·.fullName == fullName)
  let imported := found.find? (isImportedName imports)
  declared.or (imported.or found.getLast?)

def describeClasses (file : FileId) (scriptName : String) (ast : Ast) (root : NodeId) :
    List ClassSummary :=
  match ast.classDecl? root with
  | none => []
  | some script =>
    let classes := summariesBelow file ast ast.size
      ⟨root, scriptName, qualify script.package scriptName, none⟩
    let imports := importsOf ast root
    classes.map fun c => { c with base := baseWithin classes script.package imports c }

end ScriptAnalysis
