import ScriptAnalysis.Proofs.Grammar.Scripts
import ScriptAnalysis.Proofs.Respaced.Rules
import ScriptAnalysis.Proofs.Tree.Messages

/-!
# Scripts that differ in trivia

Statements, classes and whole scripts, and what two parses have in common whose texts have the same
words.
-/

namespace ScriptAnalysis

open Production

variable {text text' : String}

namespace Rules

variable {r r' : Rules}

/-! ### Statements -/

theorem respaced_block (hr : r.Respaced text text' r') :
    Production.Respaced text text' Eq r.block r'.block := by
  refine respaced_bind_eq respaced_openMarker fun m => ?_
  refine respaced_bind respaced_here fun start start' _ => ?_
  dsimp only
  rw [hr.source, hr.source']
  refine respaced_bind_eq (respaced_expect .leftBrace _) fun opened => respaced_ite ?_ ?_
  · refine respaced_bind_eq (respaced_statementsUntil hr .rightBrace) fun stmts => ?_
    refine respaced_bind_eq (respaced_expect .rightBrace _) fun _ => ?_
    exact respaced_finish m start start' rfl
  · exact respaced_finish m start start' rfl

theorem respaced_funDecl (hr : r.Respaced text text' r') (isMethod : Bool) :
    Production.Respaced text text' Eq (r.funDecl isMethod) (r'.funDecl isMethod) := by
  refine respaced_bind_eq respaced_openMarker fun m => ?_
  refine respaced_bind respaced_here fun start start' _ => ?_
  refine respaced_bind_eq (respaced_type hr) fun returnType => ?_
  refine respaced_bind (respaced_name hr _) ?_
  rintro ⟨declaredName, offset⟩ ⟨declaredName', offset'⟩ hname
  obtain rfl : declaredName = declaredName' := hname
  refine respaced_bind_eq (respaced_params hr) fun declared => ?_
  refine respaced_bind_eq (respaced_block hr) fun body => ?_
  refine respaced_bind (respaced_spanFrom start start') fun span span' _ => ?_
  refine respaced_bind_eq (respaced_alloc (by rfl) span span') fun decl => ?_
  refine respaced_bind_eq (respaced_alloc rfl span span') fun node => ?_
  exact respaced_bind_eq (respaced_close m node) fun _ => respaced_pure rfl

/-- Whether braces are a plain block is told by the arena. -/
theorem respaced_bracedStatement (hr : r.Respaced text text' r') :
    Production.Respaced text text' Eq r.bracedStatement r'.bracedStatement := by
  refine respaced_bind_eq (respaced_expression hr) fun braces => ?_
  refine respaced_bind_eq (respaced_openBefore _) fun m => ?_
  refine respaced_bind respaced_get fun s t hst => ?_
  extract_lets rest
  have hrest : ∀ result, Production.Respaced text text' Eq (rest result) (rest result) :=
    fun result => respaced_bind_eq (respaced_close m result) fun _ => respaced_pure rfl
  have hother : Production.Respaced text text' Eq
      (get >>= fun s => alloc (.exprStmt braces.node) (s.ast.span braces.node) >>= rest)
      (get >>= fun s => alloc (.exprStmt braces.node) (s.ast.span braces.node) >>= rest) :=
    respaced_bind respaced_get fun _ _ _ => respaced_bind_eq (respaced_alloc rfl _ _) hrest
  rcases hst.ast.cases braces.node with ⟨hs, ht⟩ | ⟨data, data', hs, ht, hsame⟩
  · rw [hs, ht]
    exact hother
  · rw [hs, ht]
    cases hsame with
    | same data =>
      split
      · refine respaced_bind_eq ?_ fun _ => respaced_bind_eq (respaced_pure rfl) hrest
        exact fun _ _ h => ensures_modify.mpr (ensures_modify.mpr
          ⟨rfl, h.draft, h.ast.setData _ _⟩)
      · exact hother
    | varDecl _ _ => exact hother
    | funDecl _ _ => exact hother

theorem respaced_branch (hr : r.Respaced text text' r') :
    Production.Respaced text text' Eq r.branch r'.branch := by
  refine respaced_bind_eq hr.statement fun stmt => ?_
  cases stmt with
  | some stmt => exact respaced_pure rfl
  | none => exact respaced_bind respaced_get fun s t _ => respaced_allocFrom _ _ rfl

theorem respaced_condition (hr : r.Respaced text text' r') :
    Production.Respaced text text' Eq r.condition r'.condition := by
  unfold condition
  rw [hr.source, hr.source']
  refine respaced_bind_eq (respaced_expect .leftParen _) fun _ => ?_
  refine respaced_bind_eq (respaced_expression hr) fun cond => ?_
  exact respaced_bind_eq (respaced_expect .rightParen _) fun _ => respaced_pure rfl

theorem respaced_ifStatement (hr : r.Respaced text text' r') :
    Production.Respaced text text' Eq r.ifStatement r'.ifStatement := by
  refine respaced_bind_eq respaced_openMarker fun m => ?_
  refine respaced_bind respaced_here fun start start' _ => ?_
  refine respaced_bind_eq respaced_advance fun _ => ?_
  refine respaced_bind_eq (respaced_condition hr) fun cond => ?_
  refine respaced_bind_eq (respaced_branch hr) fun thenBranch => ?_
  refine respaced_bind_eq (respaced_accept .elseKw) fun found => ?_
  extract_lets rest rest'
  have hrest : ∀ elseBranch, Production.Respaced text text' Eq (rest elseBranch)
      (rest' elseBranch) :=
    fun _ => respaced_finish m start start' rfl
  exact respaced_ite (respaced_bind_eq (respaced_map_eq _ (respaced_branch hr)) hrest)
    (respaced_bind_eq (respaced_pure rfl) hrest)

theorem respaced_whileStatement (hr : r.Respaced text text' r') :
    Production.Respaced text text' Eq r.whileStatement r'.whileStatement := by
  refine respaced_bind_eq respaced_openMarker fun m => ?_
  refine respaced_bind respaced_here fun start start' _ => ?_
  refine respaced_bind_eq respaced_advance fun _ => ?_
  refine respaced_bind_eq (respaced_condition hr) fun cond => ?_
  exact respaced_bind_eq (respaced_branch hr) fun body => respaced_finish m start start' rfl

theorem respaced_returnStatement (hr : r.Respaced text text' r') :
    Production.Respaced text text' Eq r.returnStatement r'.returnStatement := by
  refine respaced_bind_eq respaced_openMarker fun m => ?_
  refine respaced_bind respaced_here fun start start' _ => ?_
  refine respaced_bind_eq respaced_advance fun _ => respaced_bind_eq respaced_kind fun kind => ?_
  extract_lets rest rest'
  have hrest : ∀ value, Production.Respaced text text' Eq (rest value) (rest' value) :=
    fun _ => respaced_finish m start start' rfl
  exact respaced_ite (respaced_bind_eq (respaced_node (respaced_expression hr)) hrest)
    (respaced_bind_eq (respaced_pure rfl) hrest)

theorem respaced_expressionStatement (hr : r.Respaced text text' r') :
    Production.Respaced text text' Eq r.expressionStatement r'.expressionStatement := by
  refine respaced_bind_eq respaced_openMarker fun m => ?_
  refine respaced_bind respaced_here fun start start' _ => ?_
  exact respaced_bind_eq (respaced_expression hr) fun expr => respaced_finish m start start' rfl

theorem respaced_emptyStatement :
    Production.Respaced text text' Eq emptyStatement emptyStatement := by
  refine respaced_bind_eq respaced_openMarker fun m => ?_
  refine respaced_bind respaced_here fun start start' _ => ?_
  refine respaced_bind_eq respaced_advance fun _ => ?_
  exact respaced_bind_eq (respaced_finish m start start' rfl) fun _ => respaced_pure rfl

theorem respaced_strayToken (hr : r.Respaced text text' r') :
    Production.Respaced text text' Eq r.strayToken r'.strayToken := by
  refine respaced_bind_eq respaced_kind fun kind => ?_
  rw [hr.source, hr.source']
  split
  · exact respaced_bind_eq respaced_openMarker fun m => respaced_reportHere m _
  · exact respaced_bind_eq respaced_openMarker fun m => respaced_reportHere m _
  · exact respaced_skipUnexpected _

theorem respaced_plainStatement (hr : r.Respaced text text' r') :
    Production.Respaced text text' Eq r.plainStatement r'.plainStatement := by
  refine respaced_bind_eq respaced_declarationShape fun shape => ?_
  split
  · exact respaced_map_eq _ (respaced_funDecl hr false)
  · exact respaced_map_eq _ (respaced_varDecl hr .localVar true)
  · refine respaced_bind_eq respaced_kind fun kind => respaced_ite ?_ ?_
    · exact respaced_map_eq _ (respaced_expressionStatement hr)
    · exact respaced_bind_eq (respaced_strayToken hr) fun _ => respaced_pure rfl

theorem respaced_aStatement (hr : r.Respaced text text' r') :
    Production.Respaced text text' Eq r.aStatement r'.aStatement := by
  refine respaced_bind_eq respaced_kind fun kind => ?_
  extract_lets rest
  have hrest : ∀ stmt, Production.Respaced text text' Eq (rest stmt) (rest stmt) :=
    fun stmt => respaced_ite (respaced_bind_eq (respaced_accept .semicolon)
      fun _ => respaced_pure rfl)
      (respaced_pure rfl)
  split
  · exact respaced_bind_eq respaced_emptyStatement fun _ =>
      respaced_bind_eq (respaced_pure rfl) hrest
  · exact respaced_bind_eq (respaced_map_eq _ (respaced_bracedStatement hr)) hrest
  · exact respaced_bind_eq (respaced_map_eq _ (respaced_ifStatement hr)) hrest
  · exact respaced_bind_eq (respaced_map_eq _ (respaced_whileStatement hr)) hrest
  · exact respaced_bind_eq (respaced_map_eq _ (respaced_returnStatement hr)) hrest
  · exact respaced_bind_eq (respaced_plainStatement hr) hrest

/-! ### Classes -/

theorem respaced_classMember (hr : r.Respaced text text' r') (read : MembersRead) :
    Production.Respaced text text' Eq (r.classMember read) (r'.classMember read) := by
  refine respaced_bind_eq respaced_kind fun kind => ?_
  split
  · exact respaced_bind_eq hr.classDecl fun _ => respaced_pure rfl
  · exact respaced_bind_eq respaced_advance fun _ => respaced_pure rfl
  · refine respaced_bind_eq respaced_declarationShape fun shape => ?_
    split
    · exact respaced_bind_eq (respaced_funDecl hr true) fun _ => respaced_pure rfl
    · refine respaced_bind_eq (respaced_varDecl hr .field true) fun decl => ?_
      exact respaced_bind_eq (respaced_accept .semicolon) fun _ => respaced_pure rfl
    · rw [hr.source, hr.source']
      exact respaced_bind_eq (respaced_skipUnexpected _) fun _ => respaced_pure rfl

theorem respaced_classMembers (hr : r.Respaced text text' r') :
    Production.Respaced text text' Eq r.classMembers r'.classMembers := by
  refine respaced_repeat (fun read => ?_) _
  refine respaced_bind_eq (respaced_at? .rightBrace) fun stopped => ?_
  refine respaced_bind_eq respaced_atEnd fun ended => respaced_ite (respaced_pure rfl) ?_
  refine respaced_bind respaced_current fun before before' hbefore => ?_
  refine respaced_bind_eq (respaced_classMember hr read) fun read => ?_
  exact respaced_bind_eq (respaced_skipIfStuck hbefore) fun _ => respaced_pure rfl

theorem respaced_aClass (hr : r.Respaced text text' r') :
    Production.Respaced text text' Eq r.aClass r'.aClass := by
  refine respaced_bind_eq respaced_openMarker fun m => ?_
  refine respaced_bind respaced_here fun start start' _ => ?_
  refine respaced_bind_eq respaced_advance fun _ => ?_
  refine respaced_bind (respaced_name hr .ofClass) ?_
  rintro ⟨declaredName, offset⟩ ⟨declaredName', offset'⟩ hname
  obtain rfl : declaredName = declaredName' := hname
  refine respaced_bind_eq (respaced_accept .extendsKw) fun extended => ?_
  extract_lets read rest rest'
  have hrest : ∀ base, Production.Respaced text text' Eq (rest base) (rest' base) := by
    intro base
    dsimp only [rest, rest']
    rw [hr.source, hr.source', hr.package]
    refine respaced_bind_eq (respaced_expect .leftBrace _) fun opened => respaced_ite ?_ ?_
    · refine respaced_bind_eq (respaced_classMembers hr) fun read => ?_
      refine respaced_bind_eq (respaced_expect .rightBrace _) fun _ => ?_
      exact respaced_finish m start start' rfl
    · exact respaced_finish m start start' rfl
  exact respaced_ite
    (respaced_bind_eq (respaced_map_eq _ (respaced_map_eq _ (respaced_type hr))) hrest)
    (respaced_bind_eq (respaced_pure rfl) hrest)

/-- By induction on the one depth, for every other depth. -/
theorem respaced_upTo (package : Option String) (depth depth' : Nat) :
    (Rules.upTo text package depth).Respaced text text' (Rules.upTo text' package depth') := by
  induction depth generalizing depth' with
  | zero =>
    have hthrow : ∀ {α : Type} (q : Production α),
        Production.Respaced text text' Eq (throw .tooDeep : Production α) q :=
      fun _ _ _ _ => ensures_throw
    cases depth' with
    | zero => exact ⟨rfl, rfl, rfl, hthrow _, hthrow _, hthrow _, hthrow _⟩
    | succ depth' => exact ⟨rfl, rfl, rfl, hthrow _, hthrow _, hthrow _, hthrow _⟩
  | succ depth ih =>
    cases depth' with
    | zero =>
      have hthrow : ∀ {α : Type} (p : Production α),
          Production.Respaced text text' Eq p (throw .tooDeep : Production α) :=
        fun _ _ _ _ _ _ _ => ensures_throw
      exact ⟨rfl, rfl, rfl, hthrow _, hthrow _, hthrow _, hthrow _⟩
    | succ depth' =>
      exact ⟨rfl, rfl, rfl, respaced_expression (ih depth'), respaced_operand (ih depth'),
        respaced_aStatement (ih depth'), respaced_aClass (ih depth')⟩

end Rules

/-! ### Scripts -/

namespace Script

open Rules

variable {r r' : Rules}

theorem respaced_package :
    Production.Respaced text text' Eq (package text) (package text') := by
  refine respaced_bind_eq respaced_advance fun _ => ?_
  refine respaced_bind_eq respaced_openMarker fun m => ?_
  refine respaced_bind respaced_here fun start start' _ => ?_
  refine respaced_bind_eq respaced_dottedPath fun path => ?_
  cases path with
  | some path =>
    exact respaced_bind_eq (respaced_finish m start start' rfl) fun _ => respaced_pure rfl
  | none => exact respaced_bind_eq (respaced_reportHere m _) fun _ => respaced_pure rfl

theorem respaced_importDecl :
    Production.Respaced text text' Eq (importDecl text) (importDecl text') := by
  refine respaced_bind_eq respaced_openMarker fun m => ?_
  refine respaced_bind respaced_here fun start start' _ => ?_
  refine respaced_bind_eq respaced_advance fun _ => ?_
  refine respaced_bind_eq respaced_dottedPath fun path => ?_
  extract_lets rename rest rest'
  have hrest : ∀ path, Production.Respaced text text' Eq (rest path) (rest' path) := by
    intro path
    dsimp only [rest, rest']
    refine respaced_bind_eq (respaced_accept .asKw) fun found => ?_
    have hfinish : ∀ rename : Option String, Production.Respaced text text' Eq
        (finish m start (.importDecl path rename)) (finish m start' (.importDecl path rename)) :=
      fun _ => respaced_finish m start start' rfl
    refine respaced_ite (respaced_bind respaced_current fun t t' ht => ?_) (hfinish _)
    rw [ht.spelled]
    refine respaced_bind_eq (respaced_expect .ident _) fun named => ?_
    exact respaced_ite (hfinish _) (hfinish _)
  cases path with
  | some path => exact respaced_bind_eq (respaced_pure rfl) hrest
  | none =>
    exact respaced_bind_eq (respaced_expect .ident _) fun _ =>
      respaced_bind_eq (respaced_pure rfl) hrest

theorem respaced_part (hr : r.Respaced text text' r') (read : PartsRead) :
    Production.Respaced text text' Eq (part r read) (part r' read) := by
  refine respaced_bind_eq respaced_kind fun kind => ?_
  rw [hr.source, hr.source']
  split
  · refine respaced_bind_eq respaced_importDecl fun decl => ?_
    exact respaced_bind_eq (respaced_accept .semicolon) fun _ => respaced_pure rfl
  · exact respaced_bind_eq hr.classDecl fun _ => respaced_pure rfl
  · exact respaced_bind_eq hr.statement fun _ => respaced_pure rfl

theorem respaced_parts (hr : r.Respaced text text' r') :
    Production.Respaced text text' Eq (parts r) (parts r') := by
  refine respaced_repeat (fun read => ?_) _
  refine respaced_bind_eq respaced_atEnd fun ended => respaced_ite (respaced_pure rfl) ?_
  refine respaced_bind respaced_current fun before before' hbefore => ?_
  refine respaced_bind_eq (respaced_part hr read) fun read => ?_
  exact respaced_bind_eq (respaced_skipIfStuck hbefore) fun _ => respaced_pure rfl

theorem respaced_script : Production.Respaced text text' Eq (script text) (script text') := by
  refine respaced_bind_eq respaced_openMarker fun m => ?_
  refine respaced_bind respaced_here fun start start' _ => ?_
  extract_lets unnamed rest rest'
  refine respaced_bind_eq (respaced_at? .packageKw) fun packaged => ?_
  have hrest : ∀ declared, Production.Respaced text text' Eq (rest () declared)
      (rest' () declared) := by
    intro declared
    refine respaced_bind respaced_get fun s t _ => ?_
    refine respaced_bind_eq (respaced_parts (respaced_upTo declared _ _)) fun read => ?_
    refine respaced_bind_eq (respaced_allocFrom start start' rfl) fun body => ?_
    refine respaced_bind_eq respaced_advance fun _ => ?_
    refine respaced_bind respaced_current fun last last' _ => ?_
    refine respaced_bind_eq (respaced_alloc rfl _ _) fun node => ?_
    exact respaced_bind_eq (respaced_close m node) fun _ => respaced_pure rfl
  refine respaced_ite (respaced_bind_eq respaced_package fun declared => ?_) (hrest _)
  exact respaced_bind_eq (respaced_accept .semicolon) fun _ => hrest declared

end Script

/-! ### Parses -/

/-- What two parses have in common whose texts have the same words. -/
structure Parse.Respaced (p p' : Parse) : Prop where
  root : p.root = p'.root
  ast : p.ast.Respaced p'.ast
  /-- The markers are the same, as far as they do not tell places. -/
  size : p.transcript.markers.size = p'.transcript.markers.size
  state : ∀ id, (p.transcript.marker id).state = (p'.transcript.marker id).state
  kind : ∀ id, (p.transcript.marker id).kind = (p'.transcript.marker id).kind
  node : ∀ id, (p.transcript.marker id).node = (p'.transcript.marker id).node
  nameMarker : ∀ id, (p.transcript.marker id).nameMarker = (p'.transcript.marker id).nameMarker
  reported : ∀ id, (p.transcript.marker id).reported = (p'.transcript.marker id).reported
  /-- They start and end in the same order. -/
  brackets : brackets p.transcript.events = brackets p'.transcript.events

theorem Marker.Respaced.reported {m m' : Marker} (h : m.Respaced text text' m') :
    m.reported = m'.reported := by
  have hmessage := h.message
  unfold Marker.reported
  rw [h.state]
  cases hd : m.diagnostic with
  | none =>
    rw [hd, Option.map_none, eq_comm, Option.map_eq_none_iff] at hmessage
    rw [hmessage]
  | some d =>
    rw [hd, Option.map_some, eq_comm, Option.map_eq_some_iff] at hmessage
    obtain ⟨d', hd', heq⟩ := hmessage
    rw [hd']
    cases m'.state with
    | error => exact congrArg ([·]) heq.symm
    | _ => rfl

theorem Draft.respaced_ofTokens (hwords : words text = words text') :
    (Draft.ofTokens (scan text) none).Respaced text text' (Draft.ofTokens (scan text') none) where
  words := hwords
  ahead := .whole hwords
  textEnd := by
    obtain ⟨body, heq, -, -⟩ := scan_eq text
    simp [Draft.ofTokens, heq, Span.point]
  textEnd' := by
    obtain ⟨body, heq, -, -⟩ := scan_eq text'
    simp [Draft.ofTokens, heq, Span.point]
  brackets := rfl
  size := rfl
  marker _ := ⟨rfl, rfl, rfl, rfl, rfl, .nil⟩
  opened := rfl
  messages := rfl

/-- A script is parsed by its words. -/
theorem parseScript_respaced (hwords : words text = words text') {p p' : Parse}
    (hp : parseScript text = .ok p) (hp' : parseScript text' = .ok p') : p.Respaced p' := by
  obtain ⟨root, s, hs, -, rfl⟩ := parseScript_run hp
  obtain ⟨root', t, ht, -, rfl⟩ := parseScript_run hp'
  have hstart : ParseState.Respaced text text' { draft := Draft.ofTokens (scan text) none }
      { draft := Draft.ofTokens (scan text') none } :=
    ⟨Draft.respaced_ofTokens hwords, rfl, fun _ => rfl⟩
  obtain ⟨hroot, hdraft, hast⟩ := Script.respaced_script _ _ hstart root s hs root' t ht
  refine ⟨hroot, hast, hdraft.size, fun id => (hdraft.marker id).state,
    fun id => (hdraft.marker id).kind, fun id => (hdraft.marker id).node,
    fun id => (hdraft.marker id).nameMarker, fun id => (hdraft.marker id).reported, ?_⟩
  dsimp only [Draft.events]
  rw [brackets_reverse, brackets_reverse, hdraft.brackets]

end ScriptAnalysis
