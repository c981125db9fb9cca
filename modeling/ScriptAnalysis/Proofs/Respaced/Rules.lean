import ScriptAnalysis.Grammar.Script
import ScriptAnalysis.Proofs.Respaced.Production

/-!
# The grammar on texts that differ in trivia

Every production, with the rules for the one text and for the other, goes from states at the same
place to states at the same place.  The rules refer to each other in a circle, so the productions
are related under the assumption that the rules they use are (`Rules.Respaced`), and the rules of
each depth from those of the depth below; as a text with more trivia has more tokens, the depths of
the two runs need not be equal.
-/

namespace ScriptAnalysis

open Production

/-- Rules for two texts. -/
structure Rules.Respaced (text text' : String) (r r' : Rules) : Prop where
  source : r.source = text
  source' : r'.source = text'
  package : r.package = r'.package
  expr : Production.Respaced text text' Eq r.expr r'.expr
  unary : Production.Respaced text text' Eq r.unary r'.unary
  statement : Production.Respaced text text' Eq r.statement r'.statement
  classDecl : Production.Respaced text text' Eq r.classDecl r'.classDecl

variable {text text' : String}

namespace Rules

variable {r r' : Rules}

/-! ### Names, types and variables -/

theorem Respaced.spelled {t t' : Token} (hr : r.Respaced text text' r')
    (h : SameToken text text' t t') :
    r.text t = r'.text t' := by
  unfold Rules.text
  rw [hr.source, hr.source', h.spelled]

theorem respaced_declarationShape :
    Production.Respaced text text' Eq declarationShape declarationShape :=
  respaced_read fun _ _ h => h.draft.declarationShape?

theorem respaced_dottedPath :
    Production.Respaced text text' Eq (dottedPath text) (dottedPath text') := by
  refine respaced_bind respaced_current fun t t' ht => ?_
  rw [ht.kind]
  refine respaced_ite (respaced_pure rfl) (respaced_bind_eq respaced_advance fun _ => ?_)
  rw [ht.spelled]
  refine respaced_bind_eq (respaced_repeat (fun path => ?_) _) fun path => respaced_pure rfl
  refine respaced_bind_eq (respaced_at? .dot) fun dot => ?_
  refine respaced_bind_eq (respaced_kindAfter 1) fun next => ?_
  refine respaced_ite (respaced_bind_eq respaced_advance fun _ => ?_) (respaced_pure rfl)
  refine respaced_bind respaced_current fun u u' hu => ?_
  rw [hu.spelled]
  exact respaced_bind_eq respaced_advance fun _ => respaced_pure rfl

/-- The name is the same, its place may differ. -/
theorem respaced_name (hr : r.Respaced text text' r') (kind : NameKind) :
    Production.Respaced text text' (fun a b => a.1 = b.1) (r.name kind) (r'.name kind) := by
  refine respaced_bind respaced_current fun t t' ht => ?_
  rw [ht.kind, hr.spelled ht, hr.source, hr.source']
  split
  · exact respaced_bind_eq (respaced_expect .ident "name") fun _ => respaced_pure rfl
  · refine respaced_bind_eq respaced_openMarker fun m => ?_
    refine respaced_bind_eq respaced_advance fun _ => ?_
    refine respaced_bind_eq (respaced_alloc rfl _ _) fun node => ?_
    exact respaced_bind_eq (respaced_close m node) fun _ => respaced_pure rfl

theorem respaced_type (hr : r.Respaced text text' r') :
    Production.Respaced text text' Eq r.type r'.type := by
  refine respaced_bind_eq respaced_openMarker fun m => ?_
  refine respaced_bind respaced_here fun start start' _ => ?_
  refine respaced_bind_eq respaced_kind fun kind => ?_
  cases keywordType? kind with
  | some declared =>
    refine respaced_bind_eq respaced_advance fun _ => ?_
    exact respaced_bind_eq (respaced_finish m start start' rfl) fun _ => respaced_pure rfl
  | none =>
    rw [hr.source, hr.source']
    refine respaced_bind_eq respaced_dottedPath fun path => ?_
    cases path with
    | some path =>
      exact respaced_bind_eq (respaced_finish m start start' rfl) fun _ => respaced_pure rfl
    | none => exact respaced_bind_eq (respaced_reportHere m "type") fun _ => respaced_pure rfl

theorem respaced_node {p p' : Production Parsed} (h : Production.Respaced text text' Eq p p') :
    Production.Respaced text text' Eq (some <$> Parsed.node <$> p) (some <$> Parsed.node <$> p') :=
  respaced_map_eq _ (respaced_map_eq _ h)

theorem respaced_varDecl (hr : r.Respaced text text' r') (role : VarRole) (typed : Bool) :
    Production.Respaced text text' Eq (r.varDecl role typed) (r'.varDecl role typed) := by
  refine respaced_bind_eq respaced_openMarker fun m => ?_
  refine respaced_bind respaced_here fun start start' _ => ?_
  extract_lets rest rest'
  have hrest : ∀ declared, Production.Respaced text text' Eq (rest declared) (rest' declared) := by
    intro declared
    refine respaced_bind (respaced_name hr role.nameKind) ?_
    rintro ⟨declaredName, offset⟩ ⟨declaredName', offset'⟩ hname
    obtain rfl : declaredName = declaredName' := hname
    refine respaced_bind_eq (respaced_accept .equal) fun found => ?_
    extract_lets whole whole'
    have hwhole : ∀ init, Production.Respaced text text' Eq (whole init) (whole' init) := by
      intro init
      refine respaced_bind (respaced_spanFrom start start') fun span span' _ => ?_
      refine respaced_bind_eq (respaced_alloc (by rfl) span span') fun decl => ?_
      refine respaced_bind_eq (respaced_alloc rfl span span') fun node => ?_
      exact respaced_bind_eq (respaced_close m node) fun _ => respaced_pure rfl
    exact respaced_ite (respaced_bind_eq (respaced_node hr.expr) hwhole)
      (respaced_bind_eq (respaced_pure rfl) hwhole)
  exact respaced_ite (respaced_bind_eq (respaced_type hr) hrest)
    (respaced_bind_eq (respaced_pure rfl) hrest)

theorem respaced_param (hr : r.Respaced text text' r') :
    Production.Respaced text text' Eq r.param r'.param := by
  refine respaced_bind_eq (respaced_kindAfter 1) fun next => ?_
  exact respaced_bind_eq (respaced_at? .ident) fun ident => respaced_varDecl hr _ _

theorem respaced_params (hr : r.Respaced text text' r') :
    Production.Respaced text text' Eq r.params r'.params := by
  refine respaced_bind_eq respaced_openMarker fun m => ?_
  dsimp only
  rw [hr.source, hr.source']
  refine respaced_bind_eq (respaced_expect .leftParen "'('") fun opened => ?_
  have hrest : ∀ declared : List NodeId, Production.Respaced text text' Eq
      (closeGroup m >>= fun _ => pure declared) (closeGroup m >>= fun _ => pure declared) :=
    fun declared => respaced_bind_eq (respaced_closeGroup m) fun _ => respaced_pure rfl
  refine respaced_ite (respaced_bind_eq (respaced_at? .rightParen) fun none => ?_) (hrest _)
  have hclosing : ∀ declared : List NodeId, Production.Respaced text text' Eq
      (expect text .rightParen "')'" >>= fun _ => closeGroup m >>= fun _ => pure declared)
      (expect text' .rightParen "')'" >>= fun _ => closeGroup m >>= fun _ => pure declared) :=
    fun declared => respaced_bind_eq (respaced_expect .rightParen "')'") fun _ => hrest declared
  exact respaced_ite (respaced_bind_eq (respaced_separated (respaced_param hr)) hclosing)
    (hclosing _)

/-! ### Expressions -/

theorem respaced_args (hr : r.Respaced text text' r') (closing : TokenKind) (what : String) :
    Production.Respaced text text' Eq (r.args closing what) (r'.args closing what) := by
  refine respaced_bind_eq respaced_advance fun _ => ?_
  refine respaced_bind_eq (respaced_at? closing) fun none => ?_
  rw [hr.source, hr.source']
  have hclosing : ∀ read : List NodeId, Production.Respaced text text' Eq
      (expect text closing what >>= fun _ => pure read)
      (expect text' closing what >>= fun _ => pure read) :=
    fun read => respaced_bind_eq (respaced_expect closing what) fun _ => respaced_pure rfl
  have hitem := respaced_map_eq Parsed.node hr.expr
  exact respaced_ite (respaced_bind_eq (respaced_separated hitem) hclosing) (hclosing _)

theorem respaced_statementsUntil (hr : r.Respaced text text' r') (stop : TokenKind) :
    Production.Respaced text text' Eq (r.statementsUntil stop) (r'.statementsUntil stop) := by
  refine respaced_repeat (fun read => ?_) []
  refine respaced_bind_eq (respaced_at? stop) fun stopped => ?_
  refine respaced_bind_eq respaced_atEnd fun ended => respaced_ite (respaced_pure rfl) ?_
  refine respaced_bind respaced_current fun before before' hbefore => ?_
  refine respaced_bind_eq hr.statement fun stmt => ?_
  exact respaced_bind_eq (respaced_skipIfStuck hbefore) fun _ => respaced_pure rfl

theorem respaced_closureParams (hr : r.Respaced text text' r') :
    Production.Respaced text text' Eq r.closureParams r'.closureParams := by
  refine respaced_bind_eq respaced_kind fun next => respaced_ite (respaced_pure rfl) ?_
  refine respaced_bind_eq respaced_openMarker fun m => ?_
  refine respaced_bind respaced_get fun s t _ => ?_
  refine respaced_bind_eq (respaced_separated (respaced_param hr)) fun declared => ?_
  refine respaced_bind_eq (respaced_accept .arrow) fun found => respaced_ite ?_ ?_
  · exact respaced_bind_eq (respaced_closeGroup m) fun _ => respaced_pure rfl
  · exact respaced_bind_eq (respaced_undo m s.lastEnd t.lastEnd) fun _ => respaced_pure rfl

theorem respaced_closure (hr : r.Respaced text text' r') (m : MarkerId) :
    Production.Respaced text text' Eq (r.closure m) (r'.closure m) := by
  refine respaced_bind respaced_here fun start start' _ => ?_
  refine respaced_bind_eq respaced_advance fun _ => ?_
  refine respaced_bind_eq (respaced_closureParams hr) fun declared => ?_
  refine respaced_bind_eq (respaced_statementsUntil hr .rightBrace) fun stmts => ?_
  rw [hr.source, hr.source']
  refine respaced_bind_eq (respaced_expect .rightBrace _) fun _ => ?_
  refine respaced_bind (respaced_spanFrom start start') fun span span' _ => ?_
  refine respaced_bind_eq (respaced_alloc rfl span span') fun body => ?_
  refine respaced_bind_eq (respaced_alloc rfl span span') fun node => ?_
  exact respaced_bind_eq (respaced_close m node) fun _ => respaced_pure rfl

theorem respaced_invokeNew (hr : r.Respaced text text' r') :
    Production.Respaced text text' Eq r.invokeNew r'.invokeNew := by
  refine respaced_bind_eq respaced_advance fun _ => ?_
  refine respaced_bind_eq (respaced_type hr) fun type => ?_
  refine respaced_bind_eq (respaced_at? .leftParen) fun opened => respaced_ite ?_ ?_
  · exact respaced_bind_eq (respaced_args hr .rightParen _) fun _ => respaced_pure rfl
  · rw [hr.source, hr.source']
    exact respaced_bind_eq (respaced_expect .leftParen _) fun _ => respaced_pure rfl

theorem respaced_missingExpression (hr : r.Respaced text text' r') (m : MarkerId) {t t' : Token}
    (ht : SameToken text text' t t') : Production.Respaced text text' Eq
      (r.missingExpression m t) (r'.missingExpression m t') := by
  unfold missingExpression
  rw [ht.kind, hr.source, hr.source', unexpected_eq ht]
  have hrest : Production.Respaced text text' Eq
      (report m (unexpected text' t' "expression") t.span >>= fun _ =>
        (Parsed.mk m) <$> alloc .noop t.span)
      (report m (unexpected text' t' "expression") t'.span >>= fun _ =>
        (Parsed.mk m) <$> alloc .noop t'.span) :=
    respaced_bind_eq (respaced_report _ _ _ _) fun _ => respaced_map_eq _ (respaced_alloc rfl _ _)
  exact respaced_ite (respaced_bind_eq respaced_advance fun _ => hrest) hrest

theorem respaced_intLiteral (hr : r.Respaced text text' r') (m : MarkerId) {t t' : Token}
    (ht : SameToken text text' t t') :
    Production.Respaced text text' Eq (r.intLiteral m t) (r'.intLiteral m t') := by
  refine respaced_bind_eq respaced_advance fun _ => ?_
  rw [hr.spelled ht]
  cases intValue? (r'.text t') with
  | some value =>
    exact respaced_bind_eq (respaced_finish m _ _ rfl) fun _ => respaced_pure rfl
  | none =>
    refine respaced_bind_eq (respaced_report m _ _ _) fun _ => ?_
    exact respaced_bind_eq (respaced_alloc rfl _ _) fun _ => respaced_pure rfl

theorem respaced_simple (m : MarkerId) (t t' : Token) (data : NodeData) :
    Production.Respaced text text' Eq (simple m t data) (simple m t' data) :=
  respaced_bind_eq respaced_advance fun _ =>
    respaced_bind_eq (respaced_finish m _ _ rfl) fun _ => respaced_pure rfl

theorem respaced_primary (hr : r.Respaced text text' r') :
    Production.Respaced text text' Eq r.primary r'.primary := by
  refine respaced_bind respaced_current fun t t' ht => ?_
  refine respaced_bind_eq respaced_openMarker fun m => ?_
  rw [ht.kind, hr.spelled ht]
  generalize t'.kind = kind
  split
  · exact respaced_intLiteral hr m ht
  · exact respaced_simple m t t' _
  · exact respaced_simple m t t' _
  · exact respaced_simple m t t' _
  · exact respaced_simple m t t' _
  · exact respaced_simple m t t' _
  · exact respaced_simple m t t' _
  · refine respaced_bind_eq respaced_advance fun _ => respaced_bind_eq hr.expr fun inner => ?_
    rw [hr.source, hr.source']
    refine respaced_bind_eq (respaced_expect .rightParen _) fun _ => ?_
    exact respaced_bind_eq (respaced_dissolve m) fun _ => respaced_pure rfl
  · refine respaced_bind_eq (respaced_args hr .rightSquare _) fun items => ?_
    exact respaced_bind_eq (respaced_finish m _ _ rfl) fun _ => respaced_pure rfl
  · exact respaced_closure hr m
  · refine respaced_bind_eq (respaced_invokeNew hr) fun data => ?_
    exact respaced_bind_eq (respaced_finish m _ _ rfl) fun _ => respaced_pure rfl
  · exact respaced_missingExpression hr m ht

theorem respaced_member (hr : r.Respaced text text' r') (target : NodeId) :
    Production.Respaced text text' Eq (r.member target) (r'.member target) := by
  refine respaced_bind_eq respaced_advance fun _ => ?_
  refine respaced_bind respaced_current fun t t' ht => ?_
  rw [hr.source, hr.source', hr.spelled ht]
  refine respaced_bind_eq (respaced_expect .ident _) fun found => ?_
  extract_lets rest rest'
  have hrest : ∀ name, Production.Respaced text text' Eq (rest name) (rest' name) := by
    intro name
    refine respaced_bind_eq (respaced_at? .leftParen) fun opened =>
      respaced_ite ?_ (respaced_pure rfl)
    exact respaced_bind_eq (respaced_args hr .rightParen _) fun _ => respaced_pure rfl
  exact respaced_ite (respaced_bind_eq (respaced_pure rfl) hrest)
    (respaced_bind_eq (respaced_pure rfl) hrest)

theorem respaced_suffixed (hr : r.Respaced text text' r') :
    Production.Respaced text text' Eq r.suffixed r'.suffixed := by
  refine respaced_bind respaced_here fun start start' _ => ?_
  refine respaced_bind_eq (respaced_primary hr) (respaced_repeat fun target => ?_)
  refine respaced_bind_eq respaced_kind fun kind => ?_
  split
  · refine respaced_bind_eq (respaced_openBefore _) fun m => ?_
    refine respaced_bind_eq (respaced_args hr .rightParen _) fun read => ?_
    exact respaced_bind_eq (respaced_finish m start start' rfl) fun _ => respaced_pure rfl
  · refine respaced_bind_eq (respaced_openBefore _) fun m => ?_
    refine respaced_bind_eq (respaced_member hr _) fun data => ?_
    exact respaced_bind_eq (respaced_finish m start start' rfl) fun _ => respaced_pure rfl
  · exact respaced_pure rfl

theorem respaced_operand (hr : r.Respaced text text' r') :
    Production.Respaced text text' Eq r.operand r'.operand := by
  refine respaced_bind_eq respaced_kind fun kind => ?_
  cases unaryOp? kind with
  | none => exact respaced_suffixed hr
  | some op =>
    refine respaced_bind_eq respaced_openMarker fun m => ?_
    refine respaced_bind respaced_here fun start start' _ => ?_
    refine respaced_bind_eq respaced_advance fun _ => respaced_bind_eq hr.unary fun inner => ?_
    exact respaced_bind_eq (respaced_finish m start start' rfl) fun _ => respaced_pure rfl

/-- By induction on the levels. -/
theorem respaced_binary (hr : r.Respaced text text' r')
    (levels : List (List (TokenKind × BinaryOp))) :
    Production.Respaced text text' Eq (r.binary levels) (r'.binary levels) := by
  induction levels with
  | nil => exact respaced_operand hr
  | cons operators tighter ih =>
    refine respaced_bind respaced_here fun start start' _ => ?_
    refine respaced_bind_eq ih (respaced_repeat fun left => ?_)
    refine respaced_bind_eq respaced_kind fun kind => ?_
    cases operators.lookup kind with
    | none => exact respaced_pure rfl
    | some op =>
      refine respaced_bind_eq (respaced_openBefore _) fun m => ?_
      refine respaced_bind_eq respaced_advance fun _ => respaced_bind_eq ih fun right => ?_
      exact respaced_bind_eq (respaced_finish m start start' rfl) fun _ => respaced_pure rfl

theorem respaced_expression (hr : r.Respaced text text' r') :
    Production.Respaced text text' Eq r.expression r'.expression := by
  refine respaced_bind_eq (respaced_at? .ident) fun ident => ?_
  refine respaced_bind_eq (respaced_kindAfter 1) fun next => ?_
  refine respaced_ite ?_ (respaced_binary hr binaryLevels)
  refine respaced_bind_eq respaced_openMarker fun m => ?_
  refine respaced_bind respaced_current fun t t' ht => ?_
  rw [hr.spelled ht]
  refine respaced_bind_eq respaced_advance fun _ => respaced_bind_eq respaced_advance fun _ => ?_
  refine respaced_bind_eq hr.expr fun value => ?_
  exact respaced_bind_eq (respaced_finish m _ _ rfl) fun _ => respaced_pure rfl

end Rules

end ScriptAnalysis
