import ScriptAnalysis.Diagnostic.Index
import ScriptAnalysis.Scope.Resolution
import ScriptAnalysis.Tree.Assembly

/-!
# What is known of one text

An `Analysis` brings together the tree of a text, the meaning of its nodes, what its names refer
to, and everything that is wrong with it.  It answers the questions of an editor, which knows
places in the tree by their keys.

A fault is shown on one node: of the nodes that start at its offset, the innermost one.
-/

namespace ScriptAnalysis

structure Analysis where
  file : FileId
  text : String
  ast : Ast := {}
  root : Option NodeId := none
  assembly : Assembly := {}
  resolution : Resolution := {}
  /-- The diagnostics, apart from the one on globals. -/
  diagnostics : DiagnosticIndex := .empty
  /-- Why the globals could not be had. -/
  globalsDiagnostic : Option Diagnostic := none
  /-- Whether nothing but the text is known, because there was no tree for it. -/
  degraded : Bool := false

namespace Analysis

def tree (a : Analysis) : SourceTree := a.assembly.tree

def lookup (a : Analysis) (key : AstKey) : Option NodeId := a.assembly.nodes[key]?

def treeNode? (a : Analysis) (key : AstKey) : Option TreeId := a.assembly.treeNodes[key]?

def keyOfTree? (a : Analysis) (id : TreeId) : Option AstKey :=
  (a.assembly.treeNodes.toList.find? fun entry => entry.2 == id).map Prod.fst

def keyOf? (a : Analysis) (node : NodeId) : Option AstKey := a.assembly.nodeKeys[node]?

/-- The key of the name that the function or class at a key declares. -/
def nameKey? (a : Analysis) (decl : AstKey) : Option AstKey := a.assembly.nameKeys[decl]?

/-! ### Diagnostics -/

/-- What is reported at an offset, faults of the globals first. -/
def errorsAt (a : Analysis) (offset : Nat) : List Diagnostic :=
  a.globalsDiagnostic.toList.filter (·.offset == offset) ++ a.diagnostics.reportedAt offset

/-- Whether the first child of a tree node that is no trivia starts where the node does. -/
def isShadowed (a : Analysis) (id : TreeId) : Bool :=
  (a.tree.firstSignificantChild? id).any fun child =>
    a.tree.significantStart child == a.tree.significantStart id

def errorsForNode (a : Analysis) (id : TreeId) : List Diagnostic :=
  if (a.tree.kind id).isTrivia || a.isShadowed id then []
  else a.errorsAt (a.tree.significantStart id)

/-! ### Scopes -/

/-- The node of a key, if a scope is known for it. -/
def nodeInScope? (a : Analysis) (key : AstKey) : Option NodeId :=
  (a.lookup key).filter (a.resolution.nodeBlock.contains ·)

/-- The node of a key or, if no scope is known for it, of the nearest key around it that has
    one. -/
def scopedNode? (a : Analysis) (key : AstKey) : Option NodeId :=
  match a.nodeInScope? key with
  | some node => some node
  | none => do
    let id ← a.treeNode? key
    (a.tree.ancestors id).findSome? fun above => (a.keyOfTree? above).bind a.nodeInScope?

/-- The statement that declares a variable around the identifier at a key. -/
def declarationAround? (a : Analysis) (key : AstKey) : Option NodeId := do
  let id ← a.treeNode? key
  let decl ← (a.tree.ancestors id).find? fun above => a.tree.kind above == .node .varDecl
  a.lookup (← a.keyOfTree? decl)

/-- The offset before which variables have to be declared to be visible at a key.  An identifier
    in the declaration of a variable does not see that variable. -/
def locationOf (a : Analysis) (key : AstKey) : Nat :=
  let decl := if key.kind = .identifier then a.declarationAround? key else none
  match decl.or (a.lookup key) with
  | some node => (a.ast.span node).start
  | none => key.offset

/-! ### Classes -/

/-- The class of a full name, or of a name within the package of the script. -/
def classNamed? (a : Analysis) (name : String) : Option ClassSummary :=
  (a.resolution.localClass? name).or
    (a.resolution.localClass? (qualify a.resolution.package name))

def classNode? (a : Analysis) (fullName : String) : Option NodeId := do
  let c ← a.resolution.localClass? fullName
  let _ ← a.ast.classDecl? c.decl
  return c.decl

/-- The declaration of a field or a method in the declaration of a class.  Fields go before
    methods. -/
def memberDecl? (a : Analysis) (decl : ClassDecl) (member : String) : Option NodeId :=
  (decl.fields.find? fun id => (a.ast.varDecl? id).any (·.name == member)).or
    (decl.methods.findSome? fun id =>
      match a.ast.data? id with
      | some (.funDecl fn) => if (a.ast.funDecl? fn).any (·.name == member) then some fn else none
      | _ => none)

def classKey? (a : Analysis) (c : ClassSummary) : Option AstKey := a.keyOf? c.decl

def memberKey? (a : Analysis) (c : ClassSummary) (member : String) : Option AstKey := do
  a.keyOf? (← a.memberDecl? (← a.ast.classDecl? c.decl) member)

end Analysis

end ScriptAnalysis
