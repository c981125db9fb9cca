import ScriptAnalysis.Recording.Draft

/-!
# Productions

A production reads a construct from the tokens ahead, records it in the draft and leaves its
meaning in the arena.  It fails only with a fault of the recording; a fault of the text is
recorded as an error marker, and the production goes on.

Loops are written with `repeatFrom`, which runs a step at most once for each token ahead and
once more.  Every step but the last consumes a token, so the bound is never reached.
-/

namespace ScriptAnalysis

/-- What productions change: the recording, the arena, and the end of the last token consumed
    that is no trivia. -/
structure ParseState where
  draft : Draft
  ast : Ast := {}
  lastEnd : Nat := 0

/-- A step of a parse that answers an `α`. -/
abbrev Production := StateT ParseState (Except Fault)

/-- An expression that has been read: the marker around it and its node. -/
structure Parsed where
  marker : MarkerId
  node : NodeId
deriving DecidableEq, Repr, Inhabited

namespace Production

/-! ### The tokens ahead -/

def current : Production Token := return (← get).draft.current

def kind : Production TokenKind := return (← get).draft.current.kind

def kindAfter (n : Nat) : Production TokenKind := return ((← get).draft.lookahead n).kind

def at? (kind : TokenKind) : Production Bool := return (← get).draft.at? kind

def atEnd : Production Bool := return (← get).draft.atEnd

/-- The offset at which the next construct starts. -/
def here : Production Nat := return (← get).draft.current.offset

def advance : Production Unit := modify fun s =>
  let lastEnd := s.draft.current.span.stop
  { s with draft := s.draft.advance, lastEnd }

def accept (kind : TokenKind) : Production Bool := do
  if ← at? kind then
    advance
    return true
  return false

/-- Consumes the next token if it is still `before`, so that a loop gets on. -/
def skipIfStuck (before : Token) : Production Unit := do
  if (← current) = before then advance

/-- The span from `start` to the end of what was consumed last. -/
def spanFrom (start : Nat) : Production Span := do
  return ⟨start, max (← get).lastEnd start⟩

/-! ### Markers and nodes -/

def record (f : Draft → Except Fault Draft) : Production Unit := fun s => do
  let draft ← f s.draft
  return ((), { s with draft })

def recordNew (f : Draft → Except Fault (MarkerId × Draft)) : Production MarkerId := fun s => do
  let (id, draft) ← f s.draft
  return (id, { s with draft })

def openMarker : Production MarkerId := recordNew Draft.openMarker

def openBefore (inner : MarkerId) : Production MarkerId := recordNew (·.openBefore inner)

/-- Ends a marker with the kind of its meaning. -/
def close (id : MarkerId) (node : NodeId) : Production Unit := fun s => do
  let draft ← s.draft.closeWith id node s.ast
  return ((), { s with draft })

def closeGroup (id : MarkerId) : Production Unit := record (·.closeGroup id)

def dissolve (id : MarkerId) : Production Unit := record (·.dissolve id)

def report (id : MarkerId) (message : String) (span : Span) : Production Unit :=
  record (·.closeError id (.ofParse message span))

/-- Takes a marker back, and with it what was consumed since, up to `lastEnd`. -/
def undo (id : MarkerId) (lastEnd : Nat) : Production Unit := do
  record (·.undo id)
  modify fun s => { s with lastEnd }

def alloc (data : NodeData) (span : Span) : Production NodeId := modifyGet fun s =>
  let (id, ast) := s.ast.alloc data span
  (id, { s with ast })

def allocFrom (start : Nat) (data : NodeData) : Production NodeId := do
  alloc data (← spanFrom start)

/-- Allocates a node from `start` on and ends its marker. -/
def finish (id : MarkerId) (start : Nat) (data : NodeData) : Production NodeId := do
  let node ← allocFrom start data
  close id node
  return node

/-! ### Faults of the text -/

/-- What to say of a token where `what` is expected. -/
def unexpected (source : String) (t : Token) (what : String) : String :=
  if t.kind = .eof then s!"Unexpected end of file: expected {what}"
  else
    let text := t.textIn source
    s!"Unexpected token '{text}': expected {what}"

/-- Ends a marker as the fault that the next token is not what is expected.  The token is left
    ahead. -/
def reportHere (source : String) (id : MarkerId) (what : String) : Production Unit := do
  let t ← current
  report id (unexpected source t what) t.span

/-- Consumes a token of this kind, or reports its absence without consuming anything. -/
def expect (source : String) (kind : TokenKind) (what : String) : Production Bool := do
  if ← accept kind then return true
  let m ← openMarker
  reportHere source m what
  return false

/-- Reports the next token and skips it.  The end of the text stays ahead. -/
def skipUnexpected (source : String) (what : String) : Production Unit := do
  let m ← openMarker
  let t ← current
  if t.kind ≠ .eof then advance
  report m (unexpected source t what) t.span

/-! ### Loops -/

/-- Runs a step from `a` until it answers a result, at most `bound` times. -/
def iterate {α β : Type} (step : α → Production (α ⊕ β)) : Nat → α → Production β
  | 0, _ => throw .tooDeep
  | bound + 1, a => do
    match ← step a with
    | .inl next => iterate step bound next
    | .inr result => return result

/-- Runs a step from `a` until it answers a result, at most once for each token ahead and once
    more. -/
def repeatFrom {α β : Type} (step : α → Production (α ⊕ β)) (a : α) : Production β := do
  iterate step ((← get).draft.ahead.length + 1) a

/-- One item or more, with commas between them. -/
def separated {α : Type} (item : Production α) : Production (List α) :=
  repeatFrom (fun read => do
    let read := (← item) :: read
    if ← accept .comma then return .inl read
    return .inr read.reverse) []

end Production

/-- The productions that others refer to in a circle, and what they all need to know: the text,
    and the package that the script declares. -/
structure Rules where
  source : String
  package : Option String
  /-- An expression, assignments included. -/
  expr : Production Parsed
  unary : Production Parsed
  /-- A statement.  A lone semicolon is none. -/
  statement : Production (Option NodeId)
  classDecl : Production NodeId

end ScriptAnalysis
