import ScriptAnalysis.Grammar.Script
import ScriptAnalysis.Scope.Walk
import ScriptAnalysis.Workspace.Analysis
import ScriptAnalysis.Workspace.Sources

/-!
# From a text to its analysis

A `Toolchain` is the choice of a scanner, a grammar and a resolver, and of where globals come
from.  Whatever is wrong with a text, there is an analysis of it: an interruption is the only
failure.  If the grammar leaves a recording for which there is no tree, the analysis holds nothing
but the text.
-/

namespace ScriptAnalysis

inductive Interruption where
  | cancelled
deriving DecidableEq, Repr

def Interruption.message : Interruption → String
  | cancelled => Fault.cancelled.message

structure Toolchain where
  tokens : String → List Token := scan
  grammar : String → Production NodeId := Script.script
  resolve : ResolveInput → Consulted Resolution := ResolveInput.resolve
  globals : Except GlobalsFault Globals := .ok .empty

/-- What is reported for a file outside every place for scripts. -/
def outsideSourceRoots : Diagnostic :=
  .ofConfiguration "File exists outside configured source roots" 0

/-- What is reported when the globals cannot be had.  It is shown at the first node. -/
def GlobalsFault.diagnostic (fault : GlobalsFault) (firstOffset : Option Nat) : Diagnostic :=
  (Diagnostic.ofConfiguration fault.message 0).anchoredAt (firstOffset.getD 0)

namespace Toolchain

/-- Parses a text and assembles its tree.  The parse is cancelled when it opens one marker more
    than `marksLeft`. -/
def parse (t : Toolchain) (file : FileId) (text : String) (marksLeft : Option Nat := none) :
    Except Fault (Parse × Assembly) := do
  let p ← parseWith (t.grammar text) (t.tokens text) marksLeft
  return (p, ← p.transcript.assemble file p.ast)

/-- The classes that a text declares, none if there is no tree for it. -/
def describe (t : Toolchain) (file : FileId) (text scriptName : String) : List ClassSummary :=
  match t.parse file text with
  | .ok (p, _) => describeClasses file scriptName p.ast p.root
  | .error _ => []

/-- The globals, none if they cannot be had. -/
def knownGlobals (t : Toolchain) : Globals :=
  match t.globals with
  | .ok globals => globals
  | .error _ => .empty

/-- Resolves the names of a parsed text.  In a file outside every place for scripts nothing is
    resolved. -/
def resolution (t : Toolchain) (file : FileId) (source : SourceFile) (others : ClassLookup)
    (p : Parse) : Consulted Resolution :=
  match source.package with
  | none => pure {}
  | some _ => t.resolve {
      file, scriptName := source.name, ast := p.ast, root := p.root, globals := t.knownGlobals,
      others }

def conclude (t : Toolchain) (file : FileId) (text : String) (source : SourceFile) (p : Parse)
    (assembly : Assembly) (resolution : Resolution) : Analysis where
  file := file
  text := text
  ast := p.ast
  root := some p.root
  assembly := assembly
  resolution := resolution
  diagnostics := .ofList (assembly.diagnostics ++ resolution.diagnostics ++
    if source.package.isNone then [outsideSourceRoots] else [])
  globalsDiagnostic := match t.globals with
    | .ok _ => none
    | .error fault => some (fault.diagnostic assembly.firstOffset)

def analyse (t : Toolchain) (file : FileId) (text : String) (source : SourceFile)
    (others : ClassLookup) (marksLeft : Option Nat := none) :
    Except Interruption (Consulted Analysis) :=
  match t.parse file text marksLeft with
  | .ok (p, assembly) =>
    .ok do return t.conclude file text source p assembly (← t.resolution file source others p)
  | .error .cancelled => .error .cancelled
  | .error _ => .ok (pure { file, text, degraded := true })

end Toolchain

end ScriptAnalysis
