import ScriptAnalysis.Recording.Event

/-!
# Trees that hold every token

A `SourceTree` is an arena of nodes.  Its leaves are the tokens of a text, with runs of blanks
and line ends joined, and its inner nodes are the finished constructs of a parse.  The root,
node `0`, also holds whatever stands outside every construct.

Nodes are added under a parent that is already there, so parents have smaller ids than their
children; walks through a tree are bounded by its size.
-/

namespace ScriptAnalysis

abbrev TreeId := Nat

inductive TreeKind where
  | root
  | node (kind : NodeKind)
  | token (kind : TokenKind)
deriving DecidableEq, Repr, Inhabited

def TreeKind.isTrivia : TreeKind → Bool
  | token kind => kind.isTrivia
  | _ => false

structure TreeNode where
  kind : TreeKind
  span : Span
  parent : Option TreeId := none
  children : Array TreeId := #[]
deriving DecidableEq, Repr, Inhabited

def TreeNode.isToken (n : TreeNode) : Bool :=
  match n.kind with
  | .token _ => true
  | _ => false

/-- A tree over the tokens of a text. -/
structure SourceTree where
  nodes : Array TreeNode := #[{ kind := .root, span := .point 0 }]
deriving DecidableEq, Repr, Inhabited

namespace SourceTree

def empty : SourceTree := {}

def root : TreeId := 0

def size (t : SourceTree) : Nat := t.nodes.size

def isEmpty (t : SourceTree) : Bool := decide (t.size ≤ 1)

/-- The node of an id; an unknown id has an empty root. -/
def node (t : SourceTree) (id : TreeId) : TreeNode := t.nodes.getD id ⟨.root, .point 0, none, #[]⟩

def kind (t : SourceTree) (id : TreeId) : TreeKind := (t.node id).kind

def parent? (t : SourceTree) (id : TreeId) : Option TreeId := (t.node id).parent

def children (t : SourceTree) (id : TreeId) : Array TreeId := (t.node id).children

/-- Adds a last child to `parent` and answers its id. -/
def push (t : SourceTree) (parent : TreeId) (kind : TreeKind) (span : Span) :
    TreeId × SourceTree :=
  let id := t.nodes.size
  let nodes := t.nodes.push { kind, span, parent := some parent }
  (id, ⟨nodes.modify parent fun n => { n with children := n.children.push id }⟩)

def modify (t : SourceTree) (id : TreeId) (f : TreeNode → TreeNode) : SourceTree :=
  ⟨t.nodes.modify id f⟩

def firstSignificantChild? (t : SourceTree) (id : TreeId) : Option TreeId :=
  (t.children id).find? fun child => !(t.kind child).isTrivia

/-- A node and at most `steps` nodes above it, innermost first. -/
def chainAbove (t : SourceTree) : Nat → TreeId → List TreeId
  | 0, id => [id]
  | steps + 1, id =>
    match t.parent? id with
    | some parent => id :: t.chainAbove steps parent
    | none => [id]

def ancestors (t : SourceTree) (id : TreeId) : List TreeId := t.chainAbove t.size id

/-- The tokens at most `depth` levels below a node, in the order of the text. -/
def leavesBelow (t : SourceTree) : Nat → TreeId → List TreeId
  | 0, _ => []
  | depth + 1, id =>
    let n := t.node id
    if n.isToken then [id] else n.children.toList.flatMap (t.leavesBelow depth)

def leaves (t : SourceTree) : List TreeId := t.leavesBelow t.size root

def text (t : SourceTree) (source : String) : String :=
  String.join (t.leaves.map fun leaf => (t.node leaf).span.textIn source)

/-- The step from a node down to its first child that is no token and holds `offset`. -/
def childAt? (t : SourceTree) (offset : Nat) (id : TreeId) : Option TreeId :=
  (t.children id).find? fun child =>
    let n := t.node child
    !n.isToken && n.span.contains offset

/-- Goes down towards `offset`, at most `depth` levels, and answers the last node of the given
    kind on the way, or `found`. -/
def nodeAtBelow (t : SourceTree) (offset : Nat) (kind : NodeKind) :
    Nat → TreeId → Option TreeId → Option TreeId
  | 0, _, found => found
  | depth + 1, id, found =>
    let found := if t.kind id = .node kind then some id else found
    match t.childAt? offset id with
    | some child => t.nodeAtBelow offset kind depth child found
    | none => found

/-- The innermost node of the given kind on the way down to `offset`. -/
def nodeAt? (t : SourceTree) (offset : Nat) (kind : NodeKind) : Option TreeId :=
  t.nodeAtBelow offset kind t.size root none

/-- Goes down to the first child that is no trivia, at most `depth` times. -/
def firstTokenBelow (t : SourceTree) : Nat → TreeId → TreeId
  | 0, id => id
  | depth + 1, id =>
    match t.firstSignificantChild? id with
    | some child => t.firstTokenBelow depth child
    | none => id

/-- The offset of the first token under a node that is no trivia.  The span of the node may
    start earlier, at trivia that it holds. -/
def significantStart (t : SourceTree) (id : TreeId) : Nat :=
  (t.node (t.firstTokenBelow t.size id)).span.start

end SourceTree

end ScriptAnalysis
