import ScriptAnalysis.Proofs.Grammar.Single
import ScriptAnalysis.Proofs.Printing.Operators
import ScriptAnalysis.Proofs.Printing.Unique
import ScriptAnalysis.Proofs.Respaced.Trivia
import ScriptAnalysis.Proofs.Scope.Places

/-!
# Printing an expression and reading it back

A script that declares a variable with a printed expression as its value is parsed without faults,
and the value of the variable is that expression (`printed_is_read_back`).

The parse succeeds whatever the text is (`parseWith_script`), so all that is shown here is what it
leaves: no marker that stands for a fault, and the nodes from the class of the script down to the
value.
-/

namespace ScriptAnalysis

open ParseState Production

/-! ### Declarations -/

/-- The node declares a variable with this name and this value. -/
def Expr.DeclaredAt (ast : Ast) (name : Identifier) (e : Expr) (stmt : NodeId) : Prop :=
  ∃ decl var value, ast.data? stmt = some (.varDecl decl) ∧
    ast.data? decl = some (.varDeclExpr var) ∧ var.name = name.text ∧ var.init = some value ∧
    e.At ast value

theorem Expr.DeclaredAt.extends {ast ast' : Ast} {name : Identifier} {e : Expr} {stmt : NodeId}
    (h : e.DeclaredAt ast name stmt) (hgrown : ast.Extends ast') : e.DeclaredAt ast' name stmt := by
  obtain ⟨decl, var, value, hstmt, hdecl, hname, hinit, hvalue⟩ := h
  exact ⟨decl, var, value, hgrown.same hstmt (by simp), hgrown.same hdecl (by simp), hname, hinit,
    hvalue.extends hgrown⟩

/-- The words of a declaration. -/
def declaration (name : Identifier) (words : List Word) : List Word :=
  mark .defKw :: name.word :: mark .equal :: words

variable {r : Rules} {s : ParseState} {rest : List Word} {w : Word} {name : Identifier} {e : Expr}

theorem name_reads (r : Rules) (nameKind : NameKind) (h : s.Facing r.source (name.word :: rest)) :
    (r.name nameKind).Ensures s fun declared s' =>
      declared.1 = name.text ∧ s.Reaches r.source rest s' := by
  unfold Rules.name
  have hkind : s.draft.current.kind = .ident := h.kind
  have htext : r.text s.draft.current = name.text := h.text
  refine ensures_bind.mpr (ensures_current.mpr ?_)
  rw [if_neg (not_not.mpr hkind)]
  refine ensures_bind.mpr ((openMarker_reaches h).mono fun m s₁ h₁ => ensures_bind.mpr ?_)
  refine (advance_reaches h₁.toFacing).mono fun _ s₂ h₂ => ensures_bind.mpr (ensures_alloc.mpr ?_)
  have h₃ := h₂.toFacing.allocated (.name (r.text s.draft.current) nameKind) s.draft.current.span
  refine ensures_bind.mpr ((close_reaches h₃.toFacing m _).mono fun _ s₄ h₄ => ensures_pure.mpr ?_)
  exact ⟨htext, h₁.trans (h₂.trans (h₃.trans h₄.1))⟩

/-- The words after the type of a variable are taken by its name and its value. -/
theorem varDecl_reads (hr : r.RereadAll) (role : VarRole) (hw : w.1 = .eof)
    (h : s.Facing r.source (declaration name e.words ++ [w])) :
    (r.varDecl role true).Ensures s fun n s' =>
      s.Reaches r.source [w] s' ∧ e.DeclaredAt s'.ast name n := by
  unfold Rules.varDecl
  refine ensures_bind.mpr ((openMarker_reaches h).mono fun m s₁ h₁ => ensures_bind.mpr ?_)
  refine ensures_here.mpr (ensures_bind.mpr ?_)
  have hany : s₁.Facing r.source
      ((ClassName.builtin .any rfl).words ++ name.word :: mark .equal :: (e.words ++ [w])) :=
    h₁.toFacing
  refine (type_reads r _ TokenKind.noConfusion hany).mono fun type s₂ h₂ => ensures_bind.mpr ?_
  refine (name_reads r _ h₂.2.toFacing).mono ?_
  rintro ⟨text, offset⟩ s₃ ⟨rfl, h₃⟩
  refine ensures_bind.mpr ((accept_hit h₃.toFacing rfl).mono ?_)
  rintro found s₄ ⟨rfl, h₄⟩
  extract_lets declare
  rw [if_pos rfl]
  refine ensures_bind.mpr (ensures_map.mpr (ensures_map.mpr ?_))
  have hstops : Stops 0 [w] := .of_closer (by rw [hw]; decide) 0 []
  refine (hr.expr e s₄ [w] h₄.toFacing hstops).mono fun value s₅ h₅ => ?_
  refine ensures_bind.mpr (ensures_spanFrom.mpr (ensures_bind.mpr (ensures_alloc.mpr ?_)))
  have h₆ := h₅.1.toFacing.allocated (.varDeclExpr ⟨name.text, offset, type, value.node, role⟩)
    ⟨s₁.draft.current.offset, max s₅.lastEnd s₁.draft.current.offset⟩
  refine ensures_bind.mpr (ensures_alloc.mpr (ensures_bind.mpr ?_))
  have h₇ := h₆.toFacing.allocated (.varDecl s₅.ast.size)
    ⟨s₁.draft.current.offset, max s₅.lastEnd s₁.draft.current.offset⟩
  refine (close_reaches h₇.toFacing m _).mono ?_
  rintro _ s₈ ⟨h₈, hast⟩
  refine ensures_pure.mpr
    ⟨h₁.trans (h₂.2.trans (h₃.trans (h₄.trans (h₅.1.trans (h₆.trans (h₇.trans h₈)))))),
      s₅.ast.size, ⟨name.text, offset, type, value.node, role⟩, value.node, ?_, ?_, rfl, rfl,
      h₅.2.extends (h₆.trans (h₇.trans h₈)).grown⟩
  · rw [hast]
    exact ParseState.data?_allocated _ _ _
  · exact (h₇.trans h₈).grown.same (s₅.data?_allocated _ _) (by simp)

/-! ### Scripts -/

/-- A declaration is told by its type and its name. -/
theorem declarationShape_of_declaration (words : List Word)
    (h : s.Facing r.source (declaration name words ++ [w])) :
    declarationShape? s.draft.ahead = some .variable := by
  have hkinds : (significant s.draft.ahead).map Token.kind =
      (declaration name words ++ [w]).map Prod.fst := by
    rw [← h.ahead, Draft.wordsAhead, List.map_map]
    rfl
  rw [declarationShape?_eq, hkinds]
  rfl

theorem aStatement_reads (hr : r.RereadAll) (hw : w.1 = .eof)
    (h : s.Facing r.source (declaration name e.words ++ [w])) :
    r.aStatement.Ensures s fun stmt s' =>
      ∃ n, stmt = some n ∧ s.Reaches r.source [w] s' ∧ e.DeclaredAt s'.ast name n := by
  unfold Rules.aStatement
  refine ensures_bind.mpr (ensures_kind.mpr ?_)
  have hkind : s.draft.current.kind = .defKw := h.kind
  rw [hkind]
  refine ensures_bind.mpr ?_
  unfold Rules.plainStatement Rules.declarationShape
  refine ensures_bind.mpr (ensures_bind.mpr (ensures_get.mpr (ensures_pure.mpr ?_)))
  rw [declarationShape_of_declaration _ h]
  refine ensures_map.mpr ((varDecl_reads hr .localVar hw h).mono ?_)
  rintro n s₁ ⟨h₁, hdeclared⟩
  dsimp only
  rw [if_pos Option.isSome_some]
  have hsemicolon : w.1 ≠ .semicolon := by rw [hw]; exact TokenKind.noConfusion
  refine ensures_bind.mpr ((accept_miss h₁.toFacing hsemicolon).mono ?_)
  rintro found s₂ ⟨-, rfl⟩
  exact ensures_pure.mpr ⟨n, rfl, h₁, hdeclared⟩

/-- The variable that is all that a script declares. -/
def Parse.declared? (p : Parse) : Option VarDecl := do
  let script ← p.ast.classDecl? p.root
  match p.ast.data? (← script.body) with
  | some (.block [stmt]) =>
    match p.ast.data? stmt with
    | some (.varDecl decl) => p.ast.varDecl? decl
    | _ => none
  | _ => none

theorem script_reads {source : String} {s : ParseState} (hw : w.1 = .eof)
    (h : s.Facing source (declaration name e.words ++ [w])) :
    (Script.script source).Ensures s fun root s' => s'.draft.Faultless ∧
      ∃ c body stmt, s'.ast.data? root = some (.classDecl c) ∧ c.body = some body ∧
        s'.ast.data? body = some (.block [stmt]) ∧ e.DeclaredAt s'.ast name stmt := by
  refine script_of_statement ((openMarker_reaches h).mono fun m s₁ h₁ => ⟨?_, ?_⟩)
  · have hkind : s₁.draft.current.kind = .defKw := h₁.toFacing.kind
    rw [hkind]
    decide
  have hr := Rules.upTo_rereadAll source none s₁.draft.ahead.length
  have hreads : s₁.Facing (Rules.upTo source none s₁.draft.ahead.length).source
      (declaration name e.words ++ [w]) → _ := aStatement_reads hr hw
  rw [Rules.upTo_source] at hreads
  refine (hreads h₁.toFacing).mono ?_
  rintro _ s₂ ⟨stmt, rfl, h₂, hdeclared⟩
  refine ⟨stmt, rfl, h₂.toFacing.kind.trans hw, ?_⟩
  unfold Script.closing
  refine ensures_bind.mpr (ensures_allocFrom.mpr ?_)
  have h₃ := h₂.toFacing.allocated (.block [stmt])
    ⟨s₁.draft.current.offset, max s₂.lastEnd s₁.draft.current.offset⟩
  refine ensures_bind.mpr ((advance_reaches h₃.toFacing).mono fun _ s₄ h₄ => ?_)
  refine ensures_bind.mpr (ensures_current.mpr (ensures_bind.mpr (ensures_alloc.mpr ?_)))
  have h₅ := h₄.toFacing.allocated (.classDecl { body := some s₂.ast.size, isScript := true })
    ⟨0, s₄.draft.current.span.stop⟩
  refine ensures_bind.mpr ((close_reaches h₅.toFacing m _).mono ?_)
  rintro _ s₆ ⟨h₆, hast⟩
  have hroot := s₄.data?_allocated (.classDecl { body := some s₂.ast.size, isScript := true })
    ⟨0, s₄.draft.current.span.stop⟩
  rw [← hast] at hroot
  refine ensures_pure.mpr ⟨h₆.faultless, _, s₂.ast.size, stmt, hroot, rfl, ?_,
    hdeclared.extends (h₃.trans (h₄.trans (h₅.trans h₆))).grown⟩
  exact (h₄.trans (h₅.trans h₆)).grown.same (s₂.data?_allocated _ _) (by simp)

/-! ### Printing and reading -/

/-- What is reported of a transcript without faults. -/
theorem Draft.Faultless.reported {d : Draft} (h : d.Faultless) (events : List Event) :
    Transcript.reported ⟨d.events, d.markers⟩ events = [] := by
  refine List.flatMap_eq_nil_iff.mpr fun id _ => ?_
  have hid : (Transcript.marker ⟨d.events, d.markers⟩ id).state ≠ .error := h id
  unfold Marker.reported
  split
  · next hstate _ => exact absurd hstate hid
  · rfl

/-- The text is a script without syntax errors that declares `v`, and this expression is the value
    of `v`, and no other one is. -/
def ReadsBack (text : String) (e : Expr) : Prop :=
  ∃ p decl value, parseScript text = .ok p ∧
    (∀ file, ∃ r, p.transcript.assemble file p.ast = .ok r ∧ r.diagnostics = []) ∧
    p.declared? = some decl ∧ decl.name = "v" ∧ decl.init = some value ∧
    ∀ e' : Expr, e'.At p.ast value ↔ e' = e

/-- The text of the declaration of `v` with some words as its value. -/
def declaring (words : List Word) : String := "def v = " ++ String.ofList (spaced words)

/-- The declared name. -/
def Identifier.v : Identifier := ⟨'v', [], rfl, rfl, by decide +kernel⟩

theorem declaring_eq (w : Word) (ws : List Word) :
    declaring (w :: ws) = String.ofList (spaced (declaration .v (w :: ws))) := by
  have hspaced : spaced (declaration .v (w :: ws)) = "def v = ".toList ++ spaced (w :: ws) := rfl
  rw [hspaced, String.ofList_append, String.ofList_toList]
  rfl

theorem words_declaring (e : Expr) :
    words (declaring e.words) = declaration .v e.words ++ [(.eof, "")] := by
  have hwhole : ∀ w ∈ declaration .v e.words, Whole w :=
    List.forall_mem_cons.mpr ⟨whole_mark (by decide), List.forall_mem_cons.mpr
      ⟨Identifier.v.whole, List.forall_mem_cons.mpr ⟨whole_mark (by decide), e.whole_wordsFor 9⟩⟩⟩
  obtain ⟨w, ws, heq, -⟩ := e.words_start
  rw [heq] at hwhole ⊢
  rw [declaring_eq, words_spaced hwhole]

theorem facing_ofTokens (text : String) :
    ParseState.Facing text (words text) { draft := Draft.ofTokens (scan text) none } :=
  ⟨rfl, by simp [Draft.Faultless, Draft.marker, Draft.ofTokens]⟩

/-- Printing an expression and parsing it again is the identity, on all expressions without
    closures. -/
theorem printed_is_read_back (e : Expr) : ReadsBack (declaring e.words) e := by
  have hfacing := facing_ofTokens (declaring e.words)
  rw [words_declaring] at hfacing
  obtain ⟨p, _, _, _, hp, -, hrecords⟩ :=
    parseWith_script (declaring e.words) (scan_endsWithEof (declaring e.words))
  obtain ⟨root, s, hrun, -, rfl⟩ := parseScript_run hp
  obtain ⟨hfaultless, c, body, stmt, hroot, hbody, hblock, decl, var, value, hstmt, hdecl, hname,
    hinit, hvalue⟩ := script_reads rfl hfacing root s hrun
  refine ⟨_, var, value, hp, fun file => ?_, ?_, hname, hinit, fun e' => ?_⟩
  · obtain ⟨r, hr⟩ := hrecords.assemble_succeeds file
    refine ⟨r, hr, ?_⟩
    have hmessages := Transcript.messages_of_assemble hr
    rw [hfaultless.reported] at hmessages
    exact List.map_eq_nil_iff.mp hmessages
  · simp only [Parse.declared?, Ast.classDecl?, hroot, hbody, hblock, hstmt, Option.bind_eq_bind,
      Option.bind_some]
    exact Ast.varDecl?_of_expr hdecl
  · exact ⟨fun h => h.unique hvalue, fun heq => heq ▸ hvalue⟩

/-- A field that is called without parentheses around it. -/
def Expr.calledField : Expr :=
  .call (.field (.identifier ⟨'a', [], rfl, rfl, by decide +kernel⟩)
    ⟨'b', [], rfl, rfl, by decide +kernel⟩) []

/-- Not every expression is read back if a field that is called stands without parentheses: a name
    after a dot takes the arguments behind it. -/
theorem called_field_is_read_as_method : ¬ ∀ e : Expr, ReadsBack (declaring (e.wordsFor 8)) e := by
  intro h
  obtain ⟨p, decl, value, hp, -, hdeclared, -, hinit, hvalue⟩ := h .calledField
  have htext : declaring (Expr.calledField.wordsFor 8) = "def v = a . b ( )" := by decide +kernel
  rw [htext] at hp
  have hdata : (parseScript "def v = a . b ( )").toOption.bind (fun p =>
    p.declared?.bind fun decl =>
      decl.init.bind p.ast.data?) = some (.methodCall 2 "b" (some [])) := by decide +kernel
  rw [hp] at hdata
  simp only [Except.toOption, hdeclared, hinit, Option.bind_some] at hdata
  obtain ⟨f, ids, hcall, -⟩ := (hvalue .calledField).mpr rfl
  rw [hdata] at hcall
  cases hcall

end ScriptAnalysis
