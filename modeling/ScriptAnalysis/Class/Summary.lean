import ScriptAnalysis.Ast.Key

/-!
# Summaries of classes

A `ClassSummary` tells what other files need to know of a class: its names, its members, the
class it extends, the classes in and around it, and where it is declared.
-/

namespace ScriptAnalysis

structure FieldSummary where
  name : String
  type : TypeRef
deriving DecidableEq, Repr

structure MethodSummary where
  name : String
  returnType : TypeRef
  paramCount : Nat
deriving DecidableEq, Repr

/-- What is known of a class without its text. -/
structure ClassSummary where
  /-- The name by itself.  The class of a script has the name of the script. -/
  name : String
  package : Option String
  /-- The package, the names of the classes around it, and its name, with dots between. -/
  fullName : String
  /-- The full name of the class it extends, as well as its own file tells. -/
  base : Option String
  fields : List FieldSummary
  methods : List MethodSummary
  /-- The full names of the classes declared directly in it. -/
  inner : List String
  /-- The full name of the class around it.  A class at the top of a script has none, although
      the script lists it as an inner one. -/
  enclosing : Option String
  isScript : Bool
  file : FileId
  /-- The declaration in the arena of its file. -/
  decl : NodeId
deriving DecidableEq, Repr

namespace ClassSummary

def field? (c : ClassSummary) (name : String) : Option FieldSummary :=
  c.fields.find? (·.name == name)

def method? (c : ClassSummary) (name : String) : Option MethodSummary :=
  c.methods.find? (·.name == name)

end ClassSummary

end ScriptAnalysis
