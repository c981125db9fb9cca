/-!
# Spans of a text

Every position in the library is a byte offset of the
UTF-8 text, and every construct carries the half-open range `[start, stop)` it was
read from.

A span cuts its text out of a source (`Span.textIn`).  A span that reaches past the
end, or whose ends do not fall between two characters, cuts out nothing.
-/

namespace ScriptAnalysis

/-- The largest offset a span may hold. -/
def maxOffset : Nat := 4294967295

/-- A byte range `[start, stop)` of a text. -/
structure Span where
  start : Nat
  stop : Nat
deriving DecidableEq, Repr, Inhabited

/-- An end of a range that is no offset. -/
inductive SpanFault where
  | start (offset : Nat)
  | stop (offset : Nat)
deriving DecidableEq, Repr

def SpanFault.message : SpanFault → String
  | .start offset => s!"span start {offset} exceeds u32::MAX"
  | .stop offset => s!"span end {offset} exceeds u32::MAX"

namespace Span

def point (offset : Nat) : Span := ⟨offset, offset⟩

/-- The span of a range whose ends are offsets.  The start is examined first. -/
def ofRange (start stop : Nat) : Except SpanFault Span :=
  if maxOffset < start then .error (.start start)
  else if maxOffset < stop then .error (.stop stop)
  else .ok ⟨start, stop⟩

def length (s : Span) : Nat := s.stop - s.start

def isEmpty (s : Span) : Bool := s.start == s.stop

/-- Whether `offset` lies in the half-open range. -/
def contains (s : Span) (offset : Nat) : Bool :=
  decide (s.start ≤ offset) && decide (offset < s.stop)

/-- The least span that covers both. -/
def cover (s t : Span) : Span := ⟨min s.start t.start, max s.stop t.stop⟩

/-- The span of the same length that starts at `offset`, cut off at the last offset. -/
def movedTo (s : Span) (offset : Nat) : Span := ⟨offset, min (offset + s.length) maxOffset⟩

/-- The part of `text` in this span, or nothing if the span is out of bounds or cuts
    through a character.  Bytes cut within a character are no UTF-8 text, so reading
    them back is the test. -/
def textIn (s : Span) (text : String) : String :=
  if s.start ≤ s.stop ∧ s.stop ≤ text.utf8ByteSize then
    (String.fromUTF8? (text.toByteArray.extract s.start s.stop)).getD ""
  else ""

/-- A span as it is written in outlines: `start..stop`. -/
def render (s : Span) : String := s!"{s.start}..{s.stop}"

end Span

end ScriptAnalysis
