import ScriptAnalysis.Grammar.Statement
import ScriptAnalysis.Token.Scan

/-!
# Scripts and classes

A script is an optional package, then imports, classes and statements in any order.  It stands
for a class of its own, whose marker spans the whole text.

`rules` ties the productions together.  Each of them refers to the others only after it has
consumed a token, so as many rounds as there are tokens are enough, with one to spare.
-/

namespace ScriptAnalysis

open Production

/-- The members of a class read so far, the latest first. -/
structure MembersRead where
  fields : List NodeId := []
  methods : List NodeId := []
  inner : List NodeId := []

namespace Rules

def classMember (r : Rules) (read : MembersRead) : Production MembersRead := do
  match ← kind with
  | .classKw => return { read with inner := (← r.classDecl) :: read.inner }
  | .semicolon =>
    advance
    return read
  | _ =>
    match ← declarationShape with
    | some .function => return { read with methods := (← r.funDecl true) :: read.methods }
    | some .variable =>
      let decl ← r.varDecl .field true
      let _ ← accept .semicolon
      return { read with fields := decl :: read.fields }
    | none =>
      skipUnexpected r.source "field or method declaration"
      return read

def classMembers (r : Rules) : Production MembersRead :=
  repeatFrom (fun read => do
    if (← at? .rightBrace) || (← atEnd) then return .inr read
    let before ← current
    let read ← r.classMember read
    skipIfStuck before
    return .inl read) {}

/-- A class: its name, the class it extends, if any, and its members in braces. -/
def aClass (r : Rules) : Production NodeId := do
  let m ← openMarker
  let start ← here
  advance
  let (declaredName, _) ← r.name .ofClass
  let base ← if ← accept .extendsKw then some <$> TypeRef.name <$> r.type else pure none
  let mut read : MembersRead := {}
  if ← expect r.source .leftBrace "'\x7b'" then
    read ← r.classMembers
    let _ ← expect r.source .rightBrace "'\x7d'"
  finish m start (.classDecl {
    name := declaredName
    package := r.package
    base := base
    fields := read.fields.reverse
    methods := read.methods.reverse
    inner := read.inner.reverse })

/-- The productions, for constructs nested at most `depth` deep. -/
def upTo (source : String) (package : Option String) : Nat → Rules
  | 0 => ⟨source, package, throw .tooDeep, throw .tooDeep, throw .tooDeep, throw .tooDeep⟩
  | depth + 1 =>
    let inner := upTo source package depth
    ⟨source, package, inner.expression, inner.operand, inner.aStatement, inner.aClass⟩

end Rules

/-- The parts of a script read so far, the latest first. -/
structure PartsRead where
  imports : List NodeId := []
  classes : List NodeId := []
  stmts : List NodeId := []

namespace Script

/-- The name of the package, after its keyword. -/
def package (source : String) : Production (Option String) := do
  advance
  let m ← openMarker
  let start ← here
  match ← Rules.dottedPath source with
  | some path =>
    let _ ← finish m start (.name path .package)
    return some path
  | none =>
    reportHere source m "package name"
    return none

/-- An import: the path of a class, and the name it gets here, if it gets another one. -/
def importDecl (source : String) : Production NodeId := do
  let m ← openMarker
  let start ← here
  advance
  let path ← match ← Rules.dottedPath source with
    | some path => pure path
    | none =>
      let _ ← expect source .ident "class name"
      pure ""
  let mut rename := none
  if ← accept .asKw then
    let t ← current
    if ← expect source .ident "alias" then rename := some (t.textIn source)
  finish m start (.importDecl path rename)

def part (r : Rules) (read : PartsRead) : Production PartsRead := do
  match ← kind with
  | .importKw =>
    let decl ← importDecl r.source
    let _ ← accept .semicolon
    return { read with imports := decl :: read.imports }
  | .classKw => return { read with classes := (← r.classDecl) :: read.classes }
  | _ => return { read with stmts := (← r.statement).toList ++ read.stmts }

def parts (r : Rules) : Production PartsRead :=
  repeatFrom (fun read => do
    if ← atEnd then return .inr read
    let before ← current
    let read ← part r read
    skipIfStuck before
    return .inl read) {}

/-- A whole script.  Answers the node of its class. -/
def script (source : String) : Production NodeId := do
  let m ← openMarker
  let start ← here
  let mut declared := none
  if ← at? .packageKw then
    declared ← package source
    let _ ← accept .semicolon
  let r := Rules.upTo source declared ((← get).draft.ahead.length + 1)
  let read ← parts r
  let body ← allocFrom start (.block read.stmts.reverse)
  advance
  let stop := (← current).span.stop
  let node ← alloc (.classDecl {
    package := declared
    inner := read.classes.reverse
    imports := read.imports.reverse
    body := some body
    isScript := true }) ⟨0, stop⟩
  close m node
  return node

end Script

/-- The result of a parse: the class of the script, the arena and the transcript. -/
structure Parse where
  root : NodeId
  ast : Ast
  transcript : Transcript

/-- Parses the tokens of a text with a production.  The parse is cancelled when it opens one
    marker more than `marksLeft`. -/
def parseWith (production : Production NodeId) (tokens : List Token)
    (marksLeft : Option Nat := none) : Except Fault Parse := do
  let (root, s) ← production.run { draft := Draft.ofTokens tokens marksLeft }
  return ⟨root, s.ast, ← s.draft.toTranscript⟩

def parseScript (source : String) : Except Fault Parse :=
  parseWith (Script.script source) (scan source)

end ScriptAnalysis
