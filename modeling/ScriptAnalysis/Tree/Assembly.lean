import ScriptAnalysis.Ast.Key
import ScriptAnalysis.Recording.Fault
import ScriptAnalysis.Tree.Basic
import Std.Data.TreeMap.Basic

/-!
# From a transcript to a tree

`Transcript.assemble` replays the events of a parse once.  Finished markers become inner nodes;
markers that were dropped or mark a fault, and closures that turned out to be plain blocks, do
not, and what they hold goes to the node around them.

At the end of each inner node its key is entered into the indexes of the `Assembly`.  Ends
arrive innermost first, so of two nodes with one key the outer one keeps it.
-/

namespace ScriptAnalysis

/-- A tree, and how its positions and the nodes of the arena correspond. -/
structure Assembly where
  tree : SourceTree := {}
  nodes : Std.TreeMap AstKey NodeId := ∅
  treeNodes : Std.TreeMap AstKey TreeId := ∅
  /-- The key that leads to a node.  A declaration is reached by the statement around it or by
      its name. -/
  nodeKeys : Std.TreeMap NodeId AstKey := ∅
  /-- From the key of a declared function or class to the key of its name. -/
  nameKeys : Std.TreeMap AstKey AstKey := ∅
  /-- The least offset of a key. -/
  firstOffset : Option Nat := none
  /-- What the error markers report, in the order of the text. -/
  diagnostics : List Diagnostic := []

/-- A marker that was entered and not left: its node in the tree, if it has one, and the offset
    of its first token that is no trivia. -/
structure Frame where
  marker : MarkerId
  node : Option TreeId
  offset : Nat

namespace Assembly

/-- Appends a token to a node.  A blank or a line end that follows another one without a gap is
    joined to it. -/
def pushLeaf (a : Assembly) (parent : TreeId) (t : Token) : Assembly :=
  let fresh : Assembly := { a with tree := (a.tree.push parent (.token t.kind) t.span).2 }
  if t.kind.isBlank then
    match (a.tree.children parent).back? with
    | none => fresh
    | some last =>
      let previous := a.tree.node last
      match previous.kind with
      | .token kind =>
        if kind.isBlank && previous.span.stop == t.span.start then
          { a with tree := a.tree.modify last fun n =>
              { n with span := n.span.cover t.span, kind := .token .whitespace } }
        else fresh
      | _ => fresh
  else fresh

/-- Sets the span of an inner node from its children.  Without children it keeps its place. -/
def closeNode (a : Assembly) (id : TreeId) : Assembly :=
  let children := a.tree.children id
  match children[0]?, children.back? with
  | some first, some last =>
    let span : Span := ⟨(a.tree.node first).span.start, (a.tree.node last).span.stop⟩
    { a with tree := a.tree.modify id fun n => { n with span } }
  | _, _ => a

/-- Gives a key to a node.  A node that had the key before loses it. -/
def claimKey (a : Assembly) (key : AstKey) (node : NodeId) (treeNode : TreeId) : Assembly :=
  let nodeKeys := match a.nodes[key]? with
    | some previous =>
      if a.nodeKeys[previous]? = some key then a.nodeKeys.erase previous else a.nodeKeys
    | none => a.nodeKeys
  { a with
    nodes := a.nodes.insert key node
    treeNodes := a.treeNodes.insert key treeNode
    nodeKeys := nodeKeys.insert node key
    firstOffset := some ((a.firstOffset.map (min · key.offset)).getD key.offset) }

/-- The key of the name that a marker declares. -/
def nameKey? (file : FileId) (markers : MarkerId → Marker) (m : Marker) : Option AstKey := do
  let name := markers (← m.nameMarker)
  return ⟨file, ← name.kind, ← name.offset⟩

/-- Sets or clears the name of a declaration. -/
def setName (a : Assembly) (key : AstKey) (nameKey : Option AstKey) : Assembly :=
  { a with nameKeys := match nameKey with
    | some name => a.nameKeys.insert key name
    | none => a.nameKeys.erase key }

/-- Leads the nodes of a declaration to the key of its statement or of its name. -/
def redirect (a : Assembly) (key : AstKey) (nameKey : Option AstKey) (node : NodeId) :
    NodeData → Assembly
  | .varDecl decl => { a with nodeKeys := a.nodeKeys.insert decl key }
  | .funDecl decl =>
    match nameKey with
    | some name => { a with nodeKeys := a.nodeKeys.insert decl name }
    | none => a
  | .classDecl decl =>
    match nameKey with
    | some name => if decl.isScript then a else { a with nodeKeys := a.nodeKeys.insert node name }
    | none => a
  | _ => a

/-- Enters a finished marker into the indexes.  Groups and statements without effect have no
    key. -/
def index (a : Assembly) (file : FileId) (markers : MarkerId → Marker) (ast : Ast)
    (m : Marker) (treeNode : TreeId) (offset : Nat) : Assembly :=
  match m.kind, m.node with
  | some kind, some node =>
    match ast.data? node with
    | none | some .noop => a
    | some data =>
      let key : AstKey := ⟨file, kind, offset⟩
      let nameKey := nameKey? file markers m
      ((a.claimKey key node treeNode).setName key nameKey).redirect key nameKey node data
  | _, _ => a

end Assembly

/-- Whether the marker holds braces that turned out to be a plain block. -/
def Marker.isPlainBlock (m : Marker) (ast : Ast) : Bool :=
  match m.node.bind ast.data? with
  | some (.closure _ _ true) => true
  | _ => false

/-- Whether a marker becomes a node of the tree. -/
def Marker.hasTreeNode (m : Marker) (ast : Ast) : Bool := m.isDone && !m.isPlainBlock ast

/-- The node of the innermost marker that has one, or the root. -/
def currentParent (frames : List Frame) : TreeId :=
  (frames.findSome? Frame.node).getD SourceTree.root

/-- What an error marker reports, moved to its first token that is no trivia. -/
def Marker.report (m : Marker) (offset : Option Nat) : List Diagnostic :=
  match m.state, m.diagnostic with
  | .error, some d => [d.anchoredAt (offset.getD d.offset)]
  | _, _ => []

namespace Transcript

/-- Replays events onto an assembly and the markers entered so far, innermost first. -/
def replay (t : Transcript) (file : FileId) (ast : Ast) :
    List Event → Assembly → List Frame → Except Fault Assembly
  | [], a, [] => .ok (a.closeNode SourceTree.root)
  | [], _, frame :: _ => .error (.unbalanced frame.marker)
  | .token token :: events, a, frames =>
    t.replay file ast events (a.pushLeaf (currentParent frames) token) frames
  | .start id :: events, a, frames =>
    let m := t.marker id
    let offset := m.offset.or (firstOffset events)
    if m.hasTreeNode ast then
      match offset with
      | none => .error (.withoutToken id)
      | some offset =>
        let (node, tree) := a.tree.push (currentParent frames) (.node (m.kind.getD .group))
          (.point offset)
        t.replay file ast events { a with tree } (⟨id, some node, offset⟩ :: frames)
    else
      t.replay file ast events { a with diagnostics := a.diagnostics ++ m.report offset }
        (⟨id, none, offset.getD 0⟩ :: frames)
  | .stop id :: events, a, frames =>
    match frames with
    | [] => .error (.unbalanced id)
    | frame :: outer =>
      if frame.marker ≠ id then .error (.unbalanced id)
      else match frame.node with
        | none => t.replay file ast events a outer
        | some node =>
          t.replay file ast events
            ((a.closeNode node).index file t.marker ast (t.marker id) node frame.offset) outer

def assemble (t : Transcript) (file : FileId) (ast : Ast) : Except Fault Assembly :=
  t.replay file ast t.events {} []

end Transcript

end ScriptAnalysis
