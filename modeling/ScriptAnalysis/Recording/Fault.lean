import ScriptAnalysis.Recording.Event

/-!
# What can go wrong with a recording

Faults of the *text* are diagnostics and never stop a parse.  A `Fault` is a fault of the
recording itself: the parse was cancelled, or markers were used out of order.
-/

namespace ScriptAnalysis

/-- A marker was used in a way its state does not allow. -/
inductive Misuse where
  | closeTwice (marker : MarkerId) (state : MarkerState)
  | undoClosed (marker : MarkerId) (state : MarkerState)
  | notInnermost (marker innermost : MarkerId)
  /-- A marker that left the stack of opened ones cannot be closed. -/
  | noneOpened (marker : MarkerId)
  /-- Only a marker that has events can be preceded by another. -/
  | precedeAbsent (marker : MarkerId)
  /-- Only a marker that has events can be taken back. -/
  | undoAbsent (marker : MarkerId)
deriving DecidableEq, Repr

def Misuse.message : Misuse → String
  | closeTwice m state => s!"cannot complete {markerName m}: marker is {state.name}"
  | undoClosed m state => s!"cannot roll back {markerName m}: marker is {state.name}"
  | notInnermost m inner =>
    s!"cannot complete {markerName m} while {markerName inner} is still open"
  | noneOpened m => s!"cannot complete {markerName m}: no open markers"
  | precedeAbsent m => s!"cannot precede {markerName m}: not in the event stream"
  | undoAbsent m => s!"cannot roll back {markerName m}: not in the event stream"

/-- Why there is no recording, or no tree for one. -/
inductive Fault where
  | cancelled
  /-- No token follows the start of a marker that has a node. -/
  | withoutToken (marker : MarkerId)
  /-- Starts and ends of markers do not pair up. -/
  | unbalanced (marker : MarkerId)
  | misuse (cause : Misuse)
  /-- A grammar nested its productions more deeply than the text can require. -/
  | tooDeep
deriving DecidableEq, Repr

def Fault.message : Fault → String
  | cancelled => "parse cancelled"
  | withoutToken m => s!"marker {markerName m} was completed but no token follows its start"
  | unbalanced m => s!"marker {markerName m} was never completed"
  | misuse cause => cause.message
  | tooDeep => "productions nested too deeply"

end ScriptAnalysis
