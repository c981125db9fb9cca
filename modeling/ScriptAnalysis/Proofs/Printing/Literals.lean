import ScriptAnalysis.Proofs.Grammar.ScriptNodes
import ScriptAnalysis.Proofs.Grammar.Scripts
import ScriptAnalysis.Proofs.Grammar.Single
import ScriptAnalysis.Proofs.Token.Blanks
import ScriptAnalysis.Proofs.Token.Literals
import ScriptAnalysis.Proofs.Tree.Messages
import ScriptAnalysis.Proofs.Tree.ScriptTree

/-!
# Literals mean what is written

A text that is one literal token is a script whose only statement is this literal, and all that
depends on the text is what comes of the token (`Reading`): its value, or a fault if it is an
integer that is too large.  Around the literal the grammar has no choice, so the parse of such a
text is run: it goes from `inScript` over `inStatement`, `behindLiteral` and `behindStatement` to
`behindScript`, and each state is written out.

What comes of a string or of digits is told by their texts alone (`Reading.ofToken_written`,
`Reading.ofToken_digits`).
-/

namespace ScriptAnalysis

open Production

/-- The tokens of a text of this size that is one token. -/
def loneTokens (kind : TokenKind) (size : Nat) : List Token :=
  [⟨kind, ⟨0, size⟩⟩, ⟨.eof, .point size⟩]

/-- What comes of a literal. -/
inductive Reading where
  | value (value : Literal)
  | tooLarge

namespace Reading

def ofInt : Option Int → Reading
  | some n => .value (.int n)
  | none => .tooLarge

/-- What comes of a literal with this text. -/
def ofToken : TokenKind → String → Reading
  | .decimalLiteral, text => .value (.decimal (decimalDigits text))
  | .stringLiteral, text => .value (.str (stringValue text))
  | .trueKw, _ => .value (.bool true)
  | .falseKw, _ => .value (.bool false)
  | .nullKw, _ => .value .null
  | _, text => ofInt (intValue? text)

def data : Reading → NodeData
  | value v => .literal v
  | tooLarge => .noop

/-- What is reported of a literal of this size. -/
def faults (size : Nat) : Reading → List Diagnostic
  | value _ => []
  | tooLarge => [.ofParse "Integer literal too large" ⟨0, size⟩]

def messages : Reading → MessageSet
  | value _ => .empty
  | tooLarge => { messages := ["Integer literal too large"] }

/-- The marker around a literal of this size, which was opened in front of `resume`. -/
def marker (size : Nat) (resume : List Token) : Reading → Marker
  | value _ => { state := .done, kind := some .literal, offset := some 0, node := some 0, resume }
  | tooLarge => {
      state := .error
      offset := some 0
      diagnostic := some (.ofParse "Integer literal too large" ⟨0, size⟩)
      resume }

end Reading

/-! ### The run of a parse -/

namespace ParseState

/-- The script is opened. -/
def inScript (kind : TokenKind) (size : Nat) : ParseState where
  draft := {
    ahead := loneTokens kind size
    textEnd := size
    history := [.start 0]
    markers := #[{ resume := loneTokens kind size }]
    opened := [0] }

/-- The statement is opened in the script. -/
def inStatement (kind : TokenKind) (size : Nat) : ParseState where
  draft := {
    ahead := loneTokens kind size
    textEnd := size
    history := [.start 1, .start 0]
    markers := #[{ resume := loneTokens kind size }, { resume := loneTokens kind size }]
    opened := [1, 0] }

/-- The literal is read. -/
def behindLiteral (kind : TokenKind) (size : Nat) (reading : Reading) : ParseState where
  draft := {
    ahead := [⟨.eof, .point size⟩]
    textEnd := size
    history := [.stop 2, .token ⟨kind, ⟨0, size⟩⟩, .start 2, .start 1, .start 0]
    markers := #[{ resume := loneTokens kind size }, { resume := loneTokens kind size },
      reading.marker size (loneTokens kind size)]
    opened := [1, 0]
    messages := reading.messages }
  ast := ⟨#[⟨reading.data, ⟨0, size⟩⟩]⟩
  lastEnd := size

/-- The statement is read. -/
def behindStatement (kind : TokenKind) (size : Nat) (reading : Reading) : ParseState where
  draft := {
    ahead := [⟨.eof, .point size⟩]
    textEnd := size
    history := [.stop 1, .stop 2, .token ⟨kind, ⟨0, size⟩⟩, .start 2, .start 1, .start 0]
    markers := #[{ resume := loneTokens kind size },
      { state := .done, kind := some .exprStmt, offset := some 0, node := some 1,
        resume := loneTokens kind size },
      reading.marker size (loneTokens kind size)]
    opened := [0]
    messages := reading.messages }
  ast := ⟨#[⟨reading.data, ⟨0, size⟩⟩, ⟨.exprStmt 0, ⟨0, size⟩⟩]⟩
  lastEnd := size

/-- The script is read. -/
def behindScript (kind : TokenKind) (size : Nat) (reading : Reading) : ParseState where
  draft := {
    ahead := []
    textEnd := size
    history := [.stop 0, .token ⟨.eof, .point size⟩, .stop 1, .stop 2, .token ⟨kind, ⟨0, size⟩⟩,
      .start 2, .start 1, .start 0]
    markers := #[
      { state := .done, kind := some .classDecl, offset := some 0, node := some 3,
        resume := loneTokens kind size },
      { state := .done, kind := some .exprStmt, offset := some 0, node := some 1,
        resume := loneTokens kind size },
      reading.marker size (loneTokens kind size)]
    messages := reading.messages }
  ast := ⟨#[⟨reading.data, ⟨0, size⟩⟩, ⟨.exprStmt 0, ⟨0, size⟩⟩, ⟨.block [1], ⟨0, size⟩⟩,
    ⟨.classDecl { body := some 2, isScript := true }, ⟨0, size⟩⟩]⟩
  lastEnd := size

end ParseState

open ParseState

variable {kind : TokenKind} {size : Nat} {r : Rules}

/-- The tokens that are literals, one by one. -/
theorem mem_literalKinds : kind ∈ literalKinds ↔ kind = .intLiteral ∨ kind = .decimalLiteral ∨
    kind = .stringLiteral ∨ kind = .trueKw ∨ kind = .falseKw ∨ kind = .nullKw := by
  simp [literalKinds]

theorem run_openScript (kind : TokenKind) (size : Nat) :
    openMarker.run { draft := Draft.ofTokens (loneTokens kind size) none } =
      .ok (0, inScript kind size) := rfl

theorem run_openStatement (kind : TokenKind) (size : Nat) :
    openMarker.run (inScript kind size) = .ok (1, inStatement kind size) := rfl

/-- A token that is a literal whatever its text says. -/
theorem run_simple (hkind : kind ∈ literalKinds) (v : Literal) : (do
      let m ← openMarker
      Rules.simple m ⟨kind, ⟨0, size⟩⟩ (.literal v)).run (inStatement kind size) =
    .ok (⟨2, 0⟩, behindLiteral kind size (.value v)) := by
  -- The run computes but for the end of the span, which is never in front of its start.
  have hrun : (do
        let m ← openMarker
        Rules.simple m ⟨kind, ⟨0, size⟩⟩ (.literal v)).run (inStatement kind size) =
      .ok (⟨2, 0⟩, { behindLiteral kind size (.value v) with
        ast := ⟨#[⟨.literal v, ⟨0, max size 0⟩⟩]⟩ }) := by
    rcases mem_literalKinds.mp hkind with rfl | rfl | rfl | rfl | rfl | rfl
    all_goals rfl
  rw [hrun, Nat.max_zero]
  rfl

theorem run_intLiteral : (do
      let m ← openMarker
      r.intLiteral m ⟨.intLiteral, ⟨0, size⟩⟩).run (inStatement .intLiteral size) =
    .ok (⟨2, 0⟩, behindLiteral .intLiteral size
      (.ofInt (intValue? (r.text ⟨.intLiteral, ⟨0, size⟩⟩)))) := by
  unfold Rules.intLiteral
  cases intValue? (r.text ⟨.intLiteral, ⟨0, size⟩⟩) with
  | none => rfl
  | some n => exact run_simple (by decide) (.int n)

theorem run_primary (hkind : kind ∈ literalKinds) {text : String}
    (htext : r.text ⟨kind, ⟨0, size⟩⟩ = text) :
    r.primary.run (inStatement kind size) =
      .ok (⟨2, 0⟩, behindLiteral kind size (.ofToken kind text)) := by
  subst htext
  rcases mem_literalKinds.mp hkind with rfl | rfl | rfl | rfl | rfl | rfl
  · exact run_intLiteral
  · exact run_simple hkind _
  · exact run_simple hkind _
  · exact run_simple hkind _
  · exact run_simple hkind _
  · exact run_simple hkind _

theorem run_exprStmt (hkind : kind ∈ literalKinds) (reading : Reading) :
    (finish 1 0 (.exprStmt 0)).run (behindLiteral kind size reading) =
      .ok (1, behindStatement kind size reading) := by
  have hrun : (finish 1 0 (.exprStmt 0)).run (behindLiteral kind size reading) =
      .ok (1, { behindStatement kind size reading with
        ast := ⟨#[⟨reading.data, ⟨0, size⟩⟩, ⟨.exprStmt 0, ⟨0, max size 0⟩⟩]⟩ }) := by
    rcases mem_literalKinds.mp hkind with rfl | rfl | rfl | rfl | rfl | rfl
    all_goals rfl
  rw [hrun, Nat.max_zero]
  rfl

theorem run_closing (hkind : kind ∈ literalKinds) (reading : Reading) :
    (Script.closing 0 0 1).run (behindStatement kind size reading) =
      .ok (3, behindScript kind size reading) := by
  have hrun : (Script.closing 0 0 1).run (behindStatement kind size reading) =
      .ok (3, { behindScript kind size reading with
        ast := ⟨#[⟨reading.data, ⟨0, size⟩⟩, ⟨.exprStmt 0, ⟨0, size⟩⟩,
          ⟨.block [1], ⟨0, max size 0⟩⟩,
          ⟨.classDecl { body := some 2, isScript := true }, ⟨0, size⟩⟩]⟩ }) := by
    rcases mem_literalKinds.mp hkind with rfl | rfl | rfl | rfl | rfl | rfl
    all_goals cases reading
    all_goals rfl
  rw [hrun, Nat.max_zero]
  rfl

theorem current_loneTokens (hkind : kind ∈ literalKinds) {d : Draft}
    (h : d.ahead = loneTokens kind size) : d.current = ⟨kind, ⟨0, size⟩⟩ := by
  have htrivia : ∀ k ∈ literalKinds, k.isTrivia = false := by decide
  have hkept : Token.isTrivia ⟨kind, ⟨0, size⟩⟩ = false := htrivia kind hkind
  unfold Draft.current Draft.lookahead
  rw [h, loneTokens, nthSignificant, hkept]
  rfl

/-- No production between the statement and the literal takes more than the literal. -/
theorem expression_of_literal (hkind : kind ∈ literalKinds) {text : String}
    (htext : r.text ⟨kind, ⟨0, size⟩⟩ = text) :
    r.expression.Ensures (inStatement kind size) fun expr s =>
      s.draft.current.kind = .eof ∧ expr = ⟨2, 0⟩ ∧
        s = behindLiteral kind size (.ofToken kind text) := by
  have hcurrent : (inStatement kind size).draft.current = ⟨kind, ⟨0, size⟩⟩ :=
    current_loneTokens hkind rfl
  refine expression_of_primary (by rw [hcurrent]; exact hkind) ?_
  exact ensures_of_run (run_primary hkind htext) ⟨rfl, rfl, rfl⟩

theorem statement_of_literal (hkind : kind ∈ literalKinds) {text : String}
    (htext : r.text ⟨kind, ⟨0, size⟩⟩ = text) :
    r.aStatement.Ensures (inScript kind size) fun stmt s =>
      ∃ n, stmt = some n ∧ s.draft.current.kind = .eof ∧ n = 1 ∧
        s = behindStatement kind size (.ofToken kind text) := by
  have hcurrent : (inScript kind size).draft.current = ⟨kind, ⟨0, size⟩⟩ :=
    current_loneTokens hkind rfl
  have hstart : (inStatement kind size).draft.current.offset = 0 := by
    rw [current_loneTokens hkind rfl]
    rfl
  refine aStatement_of_expression (by rw [hcurrent]; exact hkind) ?_
  unfold Rules.expressionStatement
  refine ensures_bind.mpr (ensures_of_run (run_openStatement kind size) ?_)
  refine ensures_bind.mpr (ensures_here.mpr (ensures_bind.mpr ?_))
  rw [hstart]
  refine (expression_of_literal hkind htext).mono ?_
  rintro _ _ ⟨-, rfl, rfl⟩
  exact ensures_of_run (run_exprStmt hkind _) ⟨rfl, rfl, rfl⟩

theorem script_of_literal (hkind : kind ∈ literalKinds) {text : String}
    (htext : (⟨0, size⟩ : Span).textIn text = text) :
    (Script.script text).Ensures { draft := Draft.ofTokens (loneTokens kind size) none }
      fun root s => root = 3 ∧ s = behindScript kind size (.ofToken kind text) := by
  have hcurrent : (inScript kind size).draft.current = ⟨kind, ⟨0, size⟩⟩ :=
    current_loneTokens hkind rfl
  have hother : ∀ k ∈ literalKinds, k ∉ [.packageKw, .eof, .importKw, .classKw] := by decide
  refine script_of_statement (ensures_of_run (run_openScript kind size) ?_)
  rw [hcurrent]
  refine ⟨hother kind hkind, ?_⟩
  have htext' : (Rules.upTo text none 2).text ⟨kind, ⟨0, size⟩⟩ = text := by
    unfold Rules.text
    rw [Rules.upTo_source]
    exact htext
  refine (statement_of_literal hkind htext').mono ?_
  rintro _ _ ⟨n, rfl, heof, rfl, rfl⟩
  exact ⟨1, rfl, rfl, ensures_of_run (run_closing hkind _) ⟨rfl, rfl⟩⟩

/-! ### Texts of one literal -/

/-- A text that is cut off as a whole is one token. -/
theorem scan_of_cut {c : Char} {tail : List Char} (h : Scan.cut c tail = ⟨kind, tail, []⟩) :
    scan (String.ofList (c :: tail)) =
      loneTokens kind (String.ofList (c :: tail)).utf8ByteSize := by
  unfold scan loneTokens
  rw [String.toList_ofList, Scan.tokensFrom, h, Scan.tokensFrom, Scan.utf8ByteSize_ofList]
  simp

theorem Span.textIn_whole (text : String) : (⟨0, text.utf8ByteSize⟩ : Span).textIn text = text := by
  have h := Span.textIn_append "" text ""
  simpa using h

/-- The markers at the places of faults. -/
def Transcript.errorMarkers (t : Transcript) : List Marker :=
  t.markers.toList.filter fun m => m.state == .error

/-- The expression that is all that a script does. -/
def Parse.stated? (p : Parse) : Option NodeData := do
  let script ← p.ast.classDecl? p.root
  match p.ast.data? (← script.body) with
  | some (.block [stmt]) =>
    match p.ast.data? stmt with
    | some (.exprStmt expr) => p.ast.data? expr
    | _ => none
  | _ => none

/-- The script is this expression and no more, and these are the faults: at the markers of the
    recording, and in the tree for any file. -/
structure Parse.StatesOnly (p : Parse) (data : NodeData) (faults : List Diagnostic) : Prop where
  stated : p.stated? = some data
  only : ∀ id value, p.ast.data? id = some (.literal value) → data = .literal value
  marked : p.transcript.errorMarkers.map Marker.diagnostic = faults.map some
  reported : ∀ file, ∃ r, p.transcript.assemble file p.ast = .ok r ∧
    r.diagnostics.map Diagnostic.message = faults.map Diagnostic.message

/-- The text is one token of this kind, and its parse is this expression with these faults. -/
structure LoneLiteral (text : String) (kind : TokenKind) (data : NodeData)
    (faults : List Diagnostic) : Prop where
  tokens : scan text = [⟨kind, ⟨0, text.utf8ByteSize⟩⟩, ⟨.eof, .point text.utf8ByteSize⟩]
  parsed : ∃ p, parseScript text = .ok p ∧ p.StatesOnly data faults

/-- A text that is one literal token is parsed as what comes of it. -/
theorem loneLiteral_of_scan (hkind : kind ∈ literalKinds) {text : String}
    (hscan : scan text = loneTokens kind text.utf8ByteSize) :
    LoneLiteral text kind (Reading.ofToken kind text).data
      ((Reading.ofToken kind text).faults text.utf8ByteSize) := by
  obtain ⟨p, _, _, _, hp, -, hrecords⟩ := parseWith_script text (scan_endsWithEof text)
  obtain ⟨root, s, hrun, -, rfl⟩ := parseScript_run hp
  rw [hscan] at hrun
  obtain ⟨rfl, rfl⟩ := script_of_literal hkind (Span.textIn_whole text) root s hrun
  refine ⟨hscan, _, hp, ?_⟩
  generalize Reading.ofToken kind text = reading at *
  exact {
    stated := rfl
    only := by
      intro id value hvalue
      -- The nodes one by one: only the first one may be a literal.
      match id with
      | 0 => exact Option.some.inj hvalue
      | 1 => cases hvalue
      | 2 => cases hvalue
      | 3 => cases hvalue
      | id + 4 => cases hvalue
    marked := by
      cases reading with
      | value v => rfl
      | tooLarge => rfl
    reported := by
      intro file
      obtain ⟨r, hr⟩ := hrecords.assemble_succeeds file
      refine ⟨r, hr, (Transcript.messages_of_assemble hr).trans ?_⟩
      cases reading with
      | value v => rfl
      | tooLarge => rfl }

theorem scan_written {quote : Char} (hquote : Scan.isQuote quote = true) (text : String) :
    scan (written quote text) = loneTokens .stringLiteral (written quote text).utf8ByteSize := by
  have hcut := Scan.cut_written hquote text.toList []
  exact scan_of_cut hcut

theorem scan_digits {digits suffix : List Char} (hne : digits ≠ [])
    (hdigits : ∀ d ∈ digits, d.isDigit = true) (hsuffix : suffix ∈ [[], ['l'], ['L']]) :
    scan (String.ofList (digits ++ suffix)) =
      loneTokens .intLiteral (String.ofList (digits ++ suffix)).utf8ByteSize := by
  cases digits with
  | nil => exact absurd rfl hne
  | cons d digits =>
    obtain ⟨hfirst, hdigits⟩ := List.forall_mem_cons.mp hdigits
    refine scan_of_cut ?_
    have hnumber : Scan.number (digits ++ (suffix ++ [])) = ⟨.intLiteral, digits ++ suffix, []⟩ :=
      Scan.number_digits hdigits hsuffix (by simp)
    rw [List.append_nil] at hnumber
    rw [Scan.cut_digit hfirst]
    exact hnumber

theorem Reading.ofToken_written {quote : Char} (hquote : Scan.isQuote quote = true)
    (text : String) :
    Reading.ofToken .stringLiteral (written quote text) = .value (.str text) := by
  rw [Reading.ofToken, stringValue_written hquote]

theorem Reading.ofToken_digits {digits suffix : List Char} (hne : digits ≠ [])
    (hdigits : ∀ d ∈ digits, d.isDigit = true) (hsuffix : suffix ∈ [[], ['l'], ['L']]) :
    Reading.ofToken .intLiteral (String.ofList (digits ++ suffix)) =
      if digitsNumber digits < 2 ^ 63 then .value (.int (digitsNumber digits)) else .tooLarge := by
  have hofInt : Reading.ofToken .intLiteral (String.ofList (digits ++ suffix)) =
      .ofInt (intValue? (String.ofList (digits ++ suffix))) := rfl
  have hbound : integerBound = 2 ^ 63 := rfl
  rw [hofInt, intValue?_digits hne hdigits hsuffix, hbound]
  split
  · rfl
  · rfl

/-- A string in quotes of either kind is parsed as this string.  Digits, with or without a suffix,
    are parsed as their number if it fits into 64 bits with a sign, and otherwise as nothing, with a
    fault at their place. -/
theorem literals_mean_what_is_written :
    (∀ (quote : Char) (text : String), quote = '"' ∨ quote = '\'' →
      LoneLiteral (written quote text) .stringLiteral (.literal (.str text)) []) ∧
    ∀ digits suffix : List Char, digits ≠ [] → (∀ d ∈ digits, d.isDigit = true) →
      suffix ∈ [[], ['l'], ['L']] →
        (digitsNumber digits < 2 ^ 63 →
          LoneLiteral (String.ofList (digits ++ suffix)) .intLiteral
            (.literal (.int (digitsNumber digits))) []) ∧
        (2 ^ 63 ≤ digitsNumber digits →
          LoneLiteral (String.ofList (digits ++ suffix)) .intLiteral .noop
            [.ofParse "Integer literal too large"
              ⟨0, (String.ofList (digits ++ suffix)).utf8ByteSize⟩]) := by
  refine ⟨fun quote text hquote => ?_, fun digits suffix hne hdigits hsuffix => ?_⟩
  · have hisQuote : Scan.isQuote quote = true := by
      rcases hquote with rfl | rfl
      · rfl
      · rfl
    have h := loneLiteral_of_scan (by decide) (scan_written hisQuote text)
    rw [Reading.ofToken_written hisQuote] at h
    exact h
  · have h := loneLiteral_of_scan (by decide) (scan_digits hne hdigits hsuffix)
    rw [Reading.ofToken_digits hne hdigits hsuffix] at h
    refine ⟨fun hfits => ?_, fun hlarge => ?_⟩
    · rw [if_pos hfits] at h
      exact h
    · rw [if_neg (Nat.not_lt.mpr hlarge)] at h
      exact h

/-- At the bound, with leading zeros. -/
theorem literals_mean_what_is_written_at_bound :
    LoneLiteral "'it\\'s \\\\ \\n\té'" .stringLiteral (.literal (.str "it's \\ \n\té")) [] ∧
    LoneLiteral "009223372036854775807l" .intLiteral (.literal (.int 9223372036854775807)) [] ∧
    LoneLiteral "09223372036854775808" .intLiteral .noop
      [.ofParse "Integer literal too large" ⟨0, 20⟩] := by
  obtain ⟨hstring, hint⟩ := literals_mean_what_is_written
  have hdigits : ∀ d ∈ "009223372036854775807".toList, d.isDigit = true :=
    List.all_eq_true.mp (by decide)
  have hdigits' : ∀ d ∈ "09223372036854775808".toList, d.isDigit = true :=
    List.all_eq_true.mp (by decide)
  have hfits := (hint _ ['l'] (by decide) hdigits (by decide)).1 (by decide +kernel)
  have hlarge := (hint _ [] (by decide) hdigits' (by decide)).2 (by decide +kernel)
  exact ⟨hstring '\'' "it's \\ \n\té" (.inr rfl), hfits, hlarge⟩

end ScriptAnalysis
