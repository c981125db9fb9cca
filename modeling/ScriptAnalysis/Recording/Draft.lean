import ScriptAnalysis.Diagnostic.Messages
import ScriptAnalysis.Recording.Fault

/-!
# Recording a parse

A `Draft` is a recording in progress.  It holds the tokens still ahead and the events so far,
the latest first.  A grammar moves the tokens over (`advance`) and puts markers around them:

* `openMarker` starts a construct here, `openBefore` starts one around another that is already
  recorded, and `undo` takes a construct back with all it holds;
* `closeAs`, `closeWith`, `closeGroup`, `dissolve` and `closeError` end the innermost opened
  construct in one of the ways of `MarkerState`.

Trivia is recorded only together with the token after it.  A marker opened in front of trivia
therefore holds it, and `Marker.offset` looks past it.
-/

namespace ScriptAnalysis

structure Draft where
  ahead : List Token
  /-- The end of the last token of the text. -/
  textEnd : Nat
  /-- The events so far, the latest first. -/
  history : List Event := []
  markers : Array Marker := #[]
  /-- The opened markers, innermost first. -/
  opened : List MarkerId := []
  messages : MessageSet := .empty
  /-- How many more markers may be opened before the parse counts as cancelled; without a
      number it is never cancelled. -/
  marksLeft : Option Nat := none

/-- The first token from the `n`th place on, not counting trivia. -/
def nthSignificant : List Token → Nat → Option Token
  | [], _ => none
  | t :: ts, n =>
    if t.isTrivia then nthSignificant ts n
    else match n with
      | 0 => some t
      | n + 1 => nthSignificant ts n

/-- Moves trivia and the token after it in front of the events. -/
def consume : List Token → List Event → List Token × List Event
  | [], events => ([], events)
  | t :: ts, events =>
    if t.isTrivia then consume ts (.token t :: events) else (ts, .token t :: events)

/-- Puts `outer` around `inner` in a list of opened markers, innermost first. -/
def insertOutside (inner outer : MarkerId) : List MarkerId → List MarkerId
  | [] => []
  | m :: ms => if m = inner then m :: outer :: ms else m :: insertOutside inner outer ms

/-- Looks for the name that `owner` declares in the events after its start, in the order of the
    text: the first finished marker of a wanted kind that no finished marker around it hides.
    `nodes` tells for each marker entered and not left whether it is finished. -/
def findName (markers : Array Marker) (wanted : NodeKind → Bool) (owner : MarkerId) :
    List Event → List Bool → Option MarkerId
  | [], _ => none
  | .token _ :: events, nodes => findName markers wanted owner events nodes
  | .start id :: events, nodes =>
    let m := markers.getD id {}
    if m.isDone && m.kind.any wanted && !nodes.contains true then some id
    else findName markers wanted owner events (m.isDone :: nodes)
  | .stop id :: events, nodes =>
    if id = owner then none else findName markers wanted owner events nodes.tail

/-- The kinds of the name that a construct of this kind declares. -/
def declaredNameKinds : NodeKind → Option (NodeKind → Bool)
  | .funDecl => some fun kind => kind == .functionName || kind == .methodName
  | .classDecl => some fun kind => kind == .className
  | _ => none

namespace Draft

def ofTokens (tokens : List Token) (marksLeft : Option Nat) : Draft where
  ahead := tokens
  textEnd := (tokens.getLast?.map fun t => t.span.stop).getD 0
  marksLeft := marksLeft

/-! ### The tokens ahead -/

/-- The `n`th token ahead that is no trivia.  Past the last one stands an empty token at the
    end of the text. -/
def lookahead (d : Draft) (n : Nat) : Token :=
  (nthSignificant d.ahead n).getD ⟨.eof, .point d.textEnd⟩

def current (d : Draft) : Token := d.lookahead 0

def at? (d : Draft) (kind : TokenKind) : Bool := d.current.kind == kind

def atEnd (d : Draft) : Bool := d.at? .eof

/-- Records the trivia ahead and the token after it. -/
def advance (d : Draft) : Draft :=
  let (ahead, history) := consume d.ahead d.history
  { d with ahead, history }

/-- The events so far, in the order of the text. -/
def events (d : Draft) : List Event := d.history.reverse

/-! ### Markers -/

/-- The record of a marker; an unknown id has an empty one. -/
def marker (d : Draft) (id : MarkerId) : Marker := d.markers.getD id {}

/-- The events after the start of a marker, the latest first. -/
def since (d : Draft) (id : MarkerId) : List Event := d.history.takeWhile (!·.isStart id)

/-- The events from the start of a marker back to the first; empty if it has no start. -/
def upTo (d : Draft) (id : MarkerId) : List Event := d.history.dropWhile (!·.isStart id)

def openMarker (d : Draft) : Except Fault (MarkerId × Draft) :=
  if d.marksLeft = some 0 then .error .cancelled
  else
    let id := d.markers.size
    .ok (id, { d with
      markers := d.markers.push { resume := d.ahead }
      history := .start id :: d.history
      opened := id :: d.opened
      marksLeft := d.marksLeft.map (· - 1) })

/-- Opens a marker just before the start of `inner`.  It has to be closed after `inner`. -/
def openBefore (d : Draft) (inner : MarkerId) : Except Fault (MarkerId × Draft) :=
  match d.upTo inner with
  | [] => .error (.misuse (.precedeAbsent inner))
  | start :: earlier =>
    let id := d.markers.size
    .ok (id, { d with
      markers := d.markers.push { resume := (d.marker inner).resume }
      history := d.since inner ++ start :: .start id :: earlier
      opened := if inner ∈ d.opened then insertOutside inner id d.opened else id :: d.opened })

/-- Marks a marker as taken back and forgets its message. -/
def retract (d : Draft) (id : MarkerId) : Draft :=
  let m := d.marker id
  { d with
    markers := d.markers.setIfInBounds id { m with state := .rolledBack, diagnostic := none }
    messages := match m.diagnostic with
      | some diagnostic => d.messages.erase diagnostic.message
      | none => d.messages }

/-- Takes back an opened marker with every event since its start.  The tokens it holds are
    ahead again. -/
def undo (d : Draft) (id : MarkerId) : Except Fault Draft :=
  let m := d.marker id
  if m.state ≠ .opened then .error (.misuse (.undoClosed id m.state))
  else match d.upTo id with
    | [] => .error (.misuse (.undoAbsent id))
    | start :: earlier =>
      let retracted := ((d.since id ++ [start]).filterMap Event.started?).foldl retract d
      .ok { retracted with
        history := earlier
        opened := if id ∈ d.opened then (d.opened.dropWhile (· ≠ id)).tail else d.opened
        ahead := m.resume }

/-- The offset of the first token after the start of a marker that is no trivia. -/
def startOffset (d : Draft) (id : MarkerId) : Option Nat :=
  if (d.upTo id).isEmpty then none else firstOffset (d.since id).reverse

def close (d : Draft) (id : MarkerId) (state : MarkerState) : Except Fault Draft :=
  let m := d.marker id
  if m.state ≠ .opened then .error (.misuse (.closeTwice id m.state))
  else match d.opened with
    | [] => .error (.misuse (.noneOpened id))
    | innermost :: outer =>
      if innermost ≠ id then .error (.misuse (.notInnermost id innermost))
      else .ok { d with
        markers := d.markers.setIfInBounds id { m with state, offset := d.startOffset id }
        history := .stop id :: d.history
        opened := outer }

/-- The marker of the name that `id` declares, if a construct of this kind declares one. -/
def nameMarker? (d : Draft) (id : MarkerId) (kind : NodeKind) : Option MarkerId :=
  match declaredNameKinds kind with
  | none => none
  | some wanted =>
    if (d.upTo id).isEmpty then none else findName d.markers wanted id (d.since id).reverse []

def modifyMarker (d : Draft) (id : MarkerId) (f : Marker → Marker) : Draft :=
  { d with markers := d.markers.modify id f }

/-- Ends a marker as a node of the tree with the given meaning and kind. -/
def closeAs (d : Draft) (id : MarkerId) (node : NodeId) (kind : NodeKind) :
    Except Fault Draft := do
  let d ← d.close id .done
  let nameMarker := d.nameMarker? id kind
  return d.modifyMarker id fun m => { m with kind := some kind, node := some node, nameMarker }

def dissolve (d : Draft) (id : MarkerId) : Except Fault Draft := d.close id .dropped

/-- Ends a marker with the kind that its meaning gives, or without a node. -/
def closeWith (d : Draft) (id : MarkerId) (node : NodeId) (ast : Ast) : Except Fault Draft :=
  match (ast.data? node).bind NodeKind.of? with
  | some kind => d.closeAs id node kind
  | none => d.dissolve id

def closeGroup (d : Draft) (id : MarkerId) : Except Fault Draft := do
  let d ← d.close id .done
  return d.modifyMarker id fun m => { m with kind := some .group }

/-- Ends a marker as the place of a fault.  A message that was reported before is not reported
    again; then the marker ends without a node. -/
def closeError (d : Draft) (id : MarkerId) (diagnostic : Diagnostic) : Except Fault Draft :=
  match d.messages.insert? diagnostic.message with
  | none => d.dissolve id
  | some messages => do
    let d ← { d with messages }.close id .error
    return d.modifyMarker id fun m => { m with diagnostic := some diagnostic }

/-- Records the tokens left and hands over the transcript.  No marker may be opened. -/
def toTranscript (d : Draft) : Except Fault Transcript :=
  match d.opened with
  | innermost :: _ => .error (.unbalanced innermost)
  | [] => .ok ⟨d.events ++ d.ahead.map .token, d.markers⟩

end Draft

end ScriptAnalysis
