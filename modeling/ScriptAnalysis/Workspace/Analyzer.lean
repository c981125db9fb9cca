import ScriptAnalysis.Workspace.Cache
import ScriptAnalysis.Workspace.OtherFiles
import ScriptAnalysis.Workspace.Toolchain

/-!
# The analyses of a workspace

An `Analyzer` keeps the analyses of texts that were asked for lately.  `Query.put` answers the
analysis of a text, from the cache where the text is the one cached for its file, and otherwise by
making it anew.

Names of classes are looked for in the other files of the workspace.  A file whose text is cached
answers by its analysis, and that counts as a use of it.
-/

namespace ScriptAnalysis

/-- An analysis that was made.  The serial number tells analyses of one text apart. -/
structure Snapshot where
  serial : Nat
  analysis : Analysis

structure Analyzer where
  toolchain : Toolchain := {}
  policy : CachePolicy := {}
  sources : Sources := .empty
  cache : RecencyCache Snapshot := .empty
  made : Nat := 0

namespace Analyzer

def describe (a : Analyzer) (file : FileId) (source : SourceFile) : List ClassSummary :=
  match a.cache.peek file source.text with
  | some snapshot => snapshot.analysis.resolution.classes
  | none => a.toolchain.describe file source.text source.name

def othersOf (a : Analyzer) (file : FileId) : List OtherFile :=
  (a.sources.toList.filter fun entry => entry.1 ≠ file).map fun (other, source) =>
    ⟨other, source, Thunk.mk fun _ => a.describe other source⟩

/-- Counts the uses of the cached files that were looked into for some questions. -/
def noteUses (a : Analyzer) (others : List OtherFile) (asked : List ClassQuery) : Analyzer :=
  let used := asked.flatMap (OtherFile.lookedInto others)
  let use (cache : RecencyCache Snapshot) (other : OtherFile) :=
    (cache.getFor other.file other.source.text).2
  { a with cache := used.foldl use a.cache }

end Analyzer

/-- A question to an analyzer.  Answering it may change what is cached. -/
abbrev Query := ExceptT Interruption (StateM Analyzer)

namespace Query

/-! ### The cache -/

def ofCache {α : Type} (f : RecencyCache Snapshot → α × RecencyCache Snapshot) : Query α :=
  modifyGet fun a =>
    let (answer, cache) := f a.cache
    (answer, { a with cache })

/-- The analysis cached for a file, whatever its text. -/
def cached (file : FileId) : Query (Option Snapshot) := ofCache (·.get file)

/-- The analysis cached for a file, if it is one of this text. -/
def cachedFor (file : FileId) (text : String) : Query (Option Snapshot) :=
  ofCache (·.getFor file text)

/-- Forgets what is cached for a file.  Answers whether there was anything. -/
def invalidate (file : FileId) : Query Bool := ofCache fun c => (c.contains file, c.erase file)

def clear : Query Unit := ofCache fun c => ((), c.clear)

/-- Stores an analysis that was made of a text, unless texts like it are not kept.  Answers the
    analysis that is valid from now on. -/
def keep (file : FileId) (text : String) (snapshot : Snapshot) : Query Snapshot := do
  let policy := (← get).policy
  ofCache (·.keep policy file text snapshot)

/-! ### Analyses -/

/-- Answers by the classes of the files other than `file`. -/
def consult {α : Type} (file : FileId) (ask : ClassLookup → Consulted α) : Query α := do
  let others := (← get).othersOf file
  let answer := ask (OtherFile.lookup others)
  modify (·.noteUses others answer.asked)
  return answer.value

/-- Gives an analysis its serial number. -/
def number (analysis : Analysis) : Query Snapshot := modifyGet fun a =>
  (⟨a.made, analysis⟩, { a with made := a.made + 1 })

/-- Makes the analysis of a text, without the cache and with no other file in sight. -/
def makeDetached (file : FileId) (text : String) : Query Snapshot := do
  match (← get).toolchain.analyse file text (.detached text) .none with
  | .ok analysis => number analysis.value
  | .error e => throw e

/-- Makes the analysis of a text in the workspace. -/
def make (file : FileId) (text : String) (marksLeft : Option Nat := none) : Query Snapshot := do
  let a ← get
  let source := (a.sources.get? file).getD (.detached text)
  let others := a.othersOf file
  match a.toolchain.analyse file text source (OtherFile.lookup others) marksLeft with
  | .ok analysis =>
    modify (·.noteUses others analysis.asked)
    number analysis.value
  | .error e => throw e

/-- The analysis of a text: the one that is cached, or else the one that `build` makes. -/
def putWith (build : Query Snapshot) (file : FileId) (text : String) : Query Snapshot := do
  match ← cachedFor file text with
  | some snapshot => return snapshot
  | none => keep file text (← build)

/-- The analysis of a text.  If it has to be made, that is cancelled when the parse opens one
    marker more than `marksLeft`. -/
def put (file : FileId) (text : String) (marksLeft : Option Nat := none) : Query Snapshot :=
  putWith (make file text marksLeft) file text

end Query

end ScriptAnalysis
