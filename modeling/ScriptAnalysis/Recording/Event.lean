import ScriptAnalysis.Ast.Kind
import ScriptAnalysis.Diagnostic.Basic
import ScriptAnalysis.Token.Basic

/-!
# Events of a parse

A parse is written down as a flat list of events: tokens in the order of the text, and starts
and ends of markers.  A marker stands for one construct; what became of it is kept in its
record, and the events hold only its id.
-/

namespace ScriptAnalysis

/-- The number of a marker, in the order of creation. -/
abbrev MarkerId := Nat

def markerName (id : MarkerId) : String := s!"Marker({id})"

/-- What became of a marker.  An opened marker changes its state exactly once. -/
inductive MarkerState where
  | opened
  /-- Closed as a node of the tree. -/
  | done
  /-- Closed without a node; what it holds belongs to the construct around it. -/
  | dropped
  /-- Closed as the place of a fault. -/
  | error
  /-- Taken back, together with its events. -/
  | rolledBack
deriving DecidableEq, Repr

def MarkerState.name : MarkerState → String
  | opened => "Open"
  | done => "Done"
  | dropped => "Dropped"
  | error => "Error"
  | rolledBack => "RolledBack"

structure Marker where
  state : MarkerState := .opened
  /-- The kind of its node, known once it is done. -/
  kind : Option NodeKind := none
  /-- The offset of the first token after its start that is no trivia, known once closed. -/
  offset : Option Nat := none
  /-- The marker of the name that a function or a class declares. -/
  nameMarker : Option MarkerId := none
  node : Option NodeId := none
  diagnostic : Option Diagnostic := none
  /-- The tokens that were not yet consumed when the marker was opened. -/
  resume : List Token := []
deriving DecidableEq, Repr, Inhabited

def Marker.isDone (m : Marker) : Bool := m.state == .done

inductive Event where
  | token (token : Token)
  | start (marker : MarkerId)
  | stop (marker : MarkerId)
deriving DecidableEq, Repr

namespace Event

def isStart (id : MarkerId) : Event → Bool
  | start m => m == id
  | _ => false

def started? : Event → Option MarkerId
  | start m => some m
  | _ => none

/-- The offset of a token that is no trivia. -/
def significantOffset? : Event → Option Nat
  | token t => if t.isTrivia then none else some t.offset
  | _ => none

end Event

/-- The offset of the first token among `events` that is no trivia. -/
def firstOffset (events : List Event) : Option Nat := events.findSome? Event.significantOffset?

structure Transcript where
  events : List Event
  markers : Array Marker
deriving DecidableEq, Repr

def Transcript.marker (t : Transcript) (id : MarkerId) : Marker := t.markers.getD id {}

end ScriptAnalysis
