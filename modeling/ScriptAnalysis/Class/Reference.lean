import ScriptAnalysis.Ast.Basic

/-!
# What a written class name may refer to

A class name in a script may be relative to a class around the reference, to an import, or to
the package, or it may be a full name.  `candidates` lists the full names in this order.
-/

namespace ScriptAnalysis

structure ImportedClass where
  path : String
  /-- The name given to the class in place of its own. -/
  rename : Option String
  node : NodeId
deriving DecidableEq, Repr

/-- The part of a dotted name after its last dot. -/
def lastPart (path : String) : String :=
  String.ofList (path.toList.reverse.takeWhile (· ≠ '.')).reverse

/-- A dotted name split at its first dot. -/
def splitFirst (path : String) : String × Option String :=
  match path.toList.dropWhile (· ≠ '.') with
  | [] => (path, none)
  | _ :: rest => (String.ofList (path.toList.takeWhile (· ≠ '.')), some (String.ofList rest))

def ImportedClass.name (i : ImportedClass) : String := i.rename.getD (lastPart i.path)

/-- A name within a package.  Names outside every package stand by themselves. -/
def qualify (package : Option String) (name : String) : String :=
  match package with
  | none => name
  | some package => if package.isEmpty then name else package ++ "." ++ name

/-- The full names that `written` may stand for, the nearest first and none twice.  `around`
    lists the full names of the classes around the reference, innermost first. -/
def candidates (written : String) (around : List String) (package : Option String)
    (imports : List ImportedClass) : List String :=
  let (head, rest) := splitFirst written
  let relative := around.map fun outer => outer ++ "." ++ written
  let imported := (imports.filter (·.name == head)).map fun i =>
    match rest with
    | some rest => i.path ++ "." ++ rest
    | none => i.path
  let absolute := if rest.isSome then [written] else []
  (relative ++ imported ++ [qualify package written] ++ absolute).eraseDups

/-- The imports of a script.  One without a path imports nothing. -/
def importsOf (ast : Ast) (root : NodeId) : List ImportedClass :=
  match ast.classDecl? root with
  | none => []
  | some script => script.imports.filterMap fun node =>
    match ast.data? node with
    | some (.importDecl path rename) => if path.isEmpty then none else some ⟨path, rename, node⟩
    | _ => none

end ScriptAnalysis
