import ScriptAnalysis.Ast.Key
import Std.Data.TreeMap.Basic

/-!
# The files of a workspace

`Sources` holds the text of every file that is known, with the name of its script and the package
to which its place assigns it.  Files are listed by ascending id.
-/

namespace ScriptAnalysis

structure SourceFile where
  /-- The name of the script: that of the file without its extension. -/
  name : String
  /-- The package that the place of the file stands for, `""` at the top.  A file outside every
      place for scripts has none. -/
  package : Option String
  text : String
deriving DecidableEq, Repr

namespace SourceFile

/-- A file of which only the text is known counts as a script in the package at the top. -/
def detached (text : String) : SourceFile := ⟨"Script", some "", text⟩

/-- Whether a class of this full name may be declared in the file. -/
def mayDeclare (source : SourceFile) (fullName : String) : Bool :=
  match source.package with
  | none => false
  | some package => package.isEmpty || (package ++ ".").isPrefixOf fullName

end SourceFile

structure Sources where
  files : Std.TreeMap FileId SourceFile := ∅

namespace Sources

def empty : Sources := {}

def get? (s : Sources) (file : FileId) : Option SourceFile := s.files[file]?

def contains (s : Sources) (file : FileId) : Bool := s.files.contains file

def size (s : Sources) : Nat := s.files.size

def isEmpty (s : Sources) : Bool := s.files.isEmpty

def insert (s : Sources) (file : FileId) (source : SourceFile) : Sources :=
  ⟨s.files.insert file source⟩

def erase (s : Sources) (file : FileId) : Sources := ⟨s.files.erase file⟩

/-- Replaces the text of a file, if the file is known. -/
def setText (s : Sources) (file : FileId) (text : String) : Sources :=
  ⟨s.files.modify file fun source => { source with text }⟩

def toList (s : Sources) : List (FileId × SourceFile) := s.files.toList

def inPackage (s : Sources) (package : String) : List (FileId × SourceFile) :=
  s.toList.filter fun entry => entry.2.package == some package

def candidatesFor (s : Sources) (fullName : String) : List (FileId × SourceFile) :=
  s.toList.filter fun entry => entry.2.mayDeclare fullName

end Sources

end ScriptAnalysis
