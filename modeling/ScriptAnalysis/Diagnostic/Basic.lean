import ScriptAnalysis.Text.Span

/-!
# Messages to the author of a script

A diagnostic is a message anchored at a span.  It tells which part of the analysis found the
fault; how it is worded is decided where it is found.
-/

namespace ScriptAnalysis

/-- Where a diagnostic comes from. -/
inductive DiagnosticKind where
  /-- A fault of the form of the text, found while it was parsed. -/
  | parse
  /-- A fault of its meaning. -/
  | resolution
  /-- A fault of the surroundings, such as globals that cannot be had. -/
  | configuration
deriving DecidableEq, Repr

def DiagnosticKind.name : DiagnosticKind → String
  | parse => "syntax"
  | resolution => "resolution"
  | configuration => "configuration"

structure Diagnostic where
  kind : DiagnosticKind
  message : String
  span : Span
deriving DecidableEq, Repr

namespace Diagnostic

def ofParse (message : String) (span : Span) : Diagnostic := ⟨.parse, message, span⟩

def ofResolution (message : String) (span : Span) : Diagnostic := ⟨.resolution, message, span⟩

/-- A fault of the surroundings.  It has no extent. -/
def ofConfiguration (message : String) (offset : Nat) : Diagnostic :=
  ⟨.configuration, message, .point offset⟩

def offset (d : Diagnostic) : Nat := d.span.start

/-- The same message for a span of the same length at another offset. -/
def anchoredAt (d : Diagnostic) (offset : Nat) : Diagnostic :=
  { d with span := d.span.movedTo offset }

@[simp] theorem offset_anchoredAt (d : Diagnostic) (offset : Nat) :
    (d.anchoredAt offset).offset = offset := rfl

@[simp] theorem message_anchoredAt (d : Diagnostic) (offset : Nat) :
    (d.anchoredAt offset).message = d.message := rfl

end Diagnostic

end ScriptAnalysis
