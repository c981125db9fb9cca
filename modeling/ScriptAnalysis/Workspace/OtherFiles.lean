import ScriptAnalysis.Class.Lookup
import ScriptAnalysis.Workspace.Sources

/-!
# The classes of the other files of a workspace

While one file is analysed, the others answer for their classes.  A class is looked for in the
files that may declare it, by ascending id, up to the first that does.
-/

namespace ScriptAnalysis

/-- A file other than the one at hand, and its classes, which are worked out when they are first
    asked for. -/
structure OtherFile where
  file : FileId
  source : SourceFile
  classes : Thunk (List ClassSummary)

namespace OtherFile

def class? (other : OtherFile) (fullName : String) : Option ClassSummary :=
  other.classes.get.find? (·.fullName == fullName)

/-- The classes at the top of this file, without that of its script. -/
def topClasses (other : OtherFile) : List ClassSummary :=
  other.classes.get.filter fun c => c.enclosing.isNone && !c.isScript

/-- The files among which a class of this full name is looked for. -/
def candidates (others : List OtherFile) (fullName : String) : List OtherFile :=
  others.filter fun other => other.source.mayDeclare fullName

def ofPackage (others : List OtherFile) (package : String) : List OtherFile :=
  others.filter fun other => other.source.package == some package

/-- The first files of a list, up to one that declares a class of this full name. -/
def untilFound (fullName : String) : List OtherFile → List OtherFile
  | [] => []
  | other :: rest =>
    if (other.class? fullName).isSome then [other] else other :: untilFound fullName rest

/-- The files that have to be looked into for a question. -/
def lookedInto (others : List OtherFile) : ClassQuery → List OtherFile
  | .named fullName => untilFound fullName (candidates others fullName)
  | .inPackage package => ofPackage others package

/-- The lookup that finds the classes of other files.  A file declares one class for its script,
    and takes at least one byte for every other class. -/
def lookup (others : List OtherFile) : ClassLookup where
  named fullName := (candidates others fullName).findSome? (·.class? fullName)
  inPackage package := (ofPackage others package).flatMap topClasses
  limit := others.foldl (fun n other => n + other.source.text.utf8ByteSize + 1) 0

end OtherFile

end ScriptAnalysis
