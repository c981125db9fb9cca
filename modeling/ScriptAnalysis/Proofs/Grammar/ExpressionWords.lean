import ScriptAnalysis.Proofs.Grammar.ExpressionNodes
import ScriptAnalysis.Proofs.Grammar.Takes

/-!
# Expressions take words of the grammar

One lemma for each production: unless a fault is on record, the tokens it consumed are a word of
the form that the grammar has for its construct.  The productions that refer to each other in a
circle are assumed to do so (`Rules.Words`).
-/

namespace ScriptAnalysis

open ParseState Production Computability

/-- What the productions that refer to each other in a circle take. -/
structure Rules.Words (r : Rules) : Prop where
  expr : ∀ s : ParseState, s.Told → r.expr.Ensures s fun _ s' =>
    Takes s s' (Form.ref .expr).language
  unary : ∀ s : ParseState, s.Told → r.unary.Ensures s fun _ s' =>
    Takes s s' Form.operand.language
  statement : ∀ s : ParseState, s.Told → r.statement.Ensures s fun _ s' =>
    Takes s s' (Form.ref .stmt).language
  classDecl : ∀ s : ParseState, s.Told → s.draft.current.kind = .classKw →
    r.classDecl.Ensures s fun _ s' => Takes s s' (Form.ref .aClass).language

namespace Rules

variable {r : Rules} {s₀ s : ParseState} {L : Language TokenKind}

theorem Words.expr_takes (hr : r.Words) (h : Takes s₀ s L) :
    r.expr.Ensures s fun _ s' => Takes s₀ s' (L * (Form.ref .expr).language) :=
  (hr.expr s h.told).mono fun _ _ hs' => h.trans hs'

/-! ### Names and types -/

theorem language_path : (Form.ref .path).language = (Form.token .ident).language *
    ((Form.token .dot).language * (Form.token .ident).language)∗ := by
  rw [Form.language_ref]
  simp only [Symbol.form, Form.language_sequence_cons, Form.language_sequence_singleton,
    Form.language_many]

theorem dottedPath_takes (h : Takes s₀ s L) (source : String) :
    (dottedPath source).Ensures s fun path s' =>
      (path ≠ none ∧ Takes s₀ s' (L * (Form.ref .path).language)) ∨
        (path = none ∧ s' = s ∧ s.draft.current.kind ≠ .ident) := by
  unfold dottedPath
  simp only [ensures_bind, ensures_current]
  split
  · next hident => exact ensures_pure.mpr (.inr ⟨rfl, rfl, hident⟩)
  · next hident =>
    rw [ensures_bind]
    refine (advance_token h (not_not.mp hident) (by decide)).mono fun _ s₁ h₁ => ?_
    simp only [ensures_bind]
    refine repeatFrom_ensures (fun _ s' => Takes s₀ s' (L * (Form.ref .path).language))
      (h₁.mono ?_) fun path s₂ h₂ => ?_
    · rw [language_path]
      exact mul_le_mul_right (Form.le_mul_kstar _ _) L
    simp only [ensures_bind, ensures_at?, ensures_kindAfter]
    split
    · next hdot =>
      rw [Bool.and_eq_true] at hdot
      have hcur : s₂.draft.current.kind = .dot := by simpa [Draft.at?] using hdot.1
      have hnext : (s₂.draft.lookahead 1).kind = .ident := by simpa using hdot.2
      simp only [ensures_bind]
      refine ((advance_token h₂ hcur (by decide)).and (advance_current s₂)).mono
        fun _ s₃ h₃ => ?_
      simp only [ensures_current]
      refine (advance_token h₃.1 (by rw [h₃.2, hnext]) (by decide)).mono fun _ s₄ h₄ => ?_
      refine ensures_pure.mpr (h₄.mono ?_)
      rw [language_path, mul_assoc, mul_assoc]
      exact mul_le_mul_right (Form.mul_kstar_mul_le _ _) L
    · exact ensures_pure.mpr (ensures_pure.mpr (.inl ⟨by simp, h₂⟩))

theorem name_takes (h : Takes s₀ s L) (nameKind : NameKind) :
    (r.name nameKind).Ensures s fun _ s' => Takes s₀ s' (L * (Form.token .ident).language) := by
  unfold name
  simp only [ensures_bind, ensures_current]
  split
  · rw [ensures_bind]
    exact (expect_token h (by decide) _ _).mono fun _ s₁ h₁ => ensures_pure.mpr h₁
  · next hident =>
    simp only [ensures_bind]
    refine (openMarker_takes h).mono fun m s₁ h₁ => ?_
    have hcur : s₁.draft.current.kind = .ident := h₁.2 ▸ not_not.mp hident
    refine (advance_token h₁.1 hcur (by decide)).mono fun _ s₂ h₂ => ?_
    rw [ensures_alloc]
    exact (close_takes (alloc_takes h₂)).mono fun _ s₃ h₃ => ensures_pure.mpr h₃

theorem mem_typeKinds {kind : TokenKind} {type : TypeRef} (h : keywordType? kind = some type) :
    kind ∈ typeKinds := by
  cases kind <;> cases h <;> decide

theorem type_takes (h : Takes s₀ s L) :
    r.type.Ensures s fun _ s' => Takes s₀ s' (L * (Form.ref .type).language) := by
  unfold type
  simp only [ensures_bind, ensures_here, ensures_kind]
  refine (openMarker_takes h).mono fun m s₁ h₁ => ?_
  split
  · next declared hdeclared =>
    simp only [ensures_bind, ensures_pure]
    refine (advance_oneOf h₁.1 (mem_typeKinds hdeclared) (by decide)).mono fun _ s₂ h₂ => ?_
    exact finish_takes (h₂.alternative rfl (by simp))
  · simp only [ensures_bind]
    refine (dottedPath_takes h₁.1 _).mono fun path s₂ h₂ => ?_
    rcases h₂ with ⟨hpath, h₂⟩ | ⟨rfl, rfl, -⟩
    · obtain ⟨path, rfl⟩ := Option.ne_none_iff_exists'.mp hpath
      simp only [ensures_bind, ensures_pure]
      exact finish_takes (h₂.alternative rfl (by simp))
    · simp only [ensures_bind, ensures_pure]
      exact (reportHere_takes h₁.1 _ _).mono fun _ s₃ h₃ => h₃.any

/-! ### Variables -/

theorem varDecl_takes (hr : r.Words) (h : Takes s₀ s L) (role : VarRole) (typed : Bool) :
    (r.varDecl role typed).Ensures s fun _ s' => Takes s₀ s'
      (L * (if typed then (Form.ref .type).language else 1) * Form.declared.language) := by
  unfold varDecl
  simp only [ite_bind, ensures_bind, ensures_here]
  refine (openMarker_takes h).mono fun m s₁ h₁ => ?_
  have htype : (if typed = true then r.type else pure .any : Production TypeRef).Ensures s₁
      fun _ s₂ => Takes s₀ s₂ (L * if typed then (Form.ref .type).language else 1) := by
    split
    · exact type_takes h₁.1
    · exact ensures_pure.mpr (h₁.1.mono (mul_one L).ge)
  refine htype.mono fun declared s₂ h₂ => ?_
  refine (name_takes h₂ _).mono fun found s₃ h₃ => ?_
  refine (accept_takes h₃ (by decide)).mono fun equal s₄ h₄ => ?_
  have hinit : (if equal = true then some <$> Parsed.node <$> r.expr else pure none :
      Production (Option NodeId)).Ensures s₄ fun _ s₅ => Takes s₀ s₅
        (L * (if typed then (Form.ref .type).language else 1) * Form.declared.language) := by
    simp only [Form.declared, Form.language_sequence_cons, Form.language_sequence_singleton,
      Form.language_optional]
    rcases h₄ with ⟨rfl, h₄⟩ | ⟨rfl, rfl⟩
    · simp only [if_true, ensures_map]
      refine (hr.expr_takes h₄).mono fun e s₅ h₅ => h₅.mono ?_
      simp only [mul_assoc]
      exact mul_le_mul_right (mul_le_mul_right (mul_le_mul_right (le_add_left le_rfl) _) _) L
    · simp only [Bool.false_eq_true, if_false, ensures_pure]
      refine h₃.mono (mul_le_mul_right ?_ _)
      exact (mul_one _).ge.trans (mul_le_mul_right (le_add_right le_rfl) _)
  refine hinit.mono fun init s₅ h₅ => ?_
  simp only [ensures_spanFrom, ensures_alloc, ensures_pure]
  exact close_takes (alloc_takes (alloc_takes h₅))

theorem typed_takes (hr : r.Words) (h : Takes s₀ s L) (role : VarRole) :
    (r.varDecl role true).Ensures s fun _ s' => Takes s₀ s' (L * (Form.ref .varDecl).language) := by
  refine (varDecl_takes hr h role true).mono fun _ s' hs' => hs'.mono (le_of_eq ?_)
  rw [Form.language_ref .varDecl, if_pos rfl, mul_assoc]
  simp only [Symbol.form, Form.language_sequence_cons, Form.language_sequence_singleton]

theorem param_takes (hr : r.Words) (h : Takes s₀ s L) :
    r.param.Ensures s fun _ s' => Takes s₀ s' (L * (Form.ref .param).language) := by
  unfold param
  simp only [ensures_bind, ensures_kindAfter, ensures_at?]
  refine (varDecl_takes hr h _ _).mono fun _ s' hs' => hs'.mono ?_
  rw [Form.language_ref .param, mul_assoc]
  simp only [Symbol.form, Form.language_sequence_cons, Form.language_sequence_singleton,
    Form.language_optional]
  refine mul_le_mul_right (mul_le_mul_left ?_ _) L
  split
  · exact le_add_left le_rfl
  · exact le_add_right le_rfl

theorem separated_param_takes (hr : r.Words) (h : Takes s₀ s L) :
    (separated r.param).Ensures s fun _ s' =>
      Takes s₀ s' (L * (Form.separated (Form.ref .param)).language) :=
  separated_takes h fun _ hs' =>
    (param_takes hr (.refl hs')).mono fun _ _ k => k.mono (one_mul _).le

theorem separated_expr_takes (hr : r.Words) (h : Takes s₀ s L) :
    (separated (Parsed.node <$> r.expr)).Ensures s fun _ s' =>
      Takes s₀ s' (L * (Form.separated (Form.ref .expr)).language) := by
  refine separated_takes h fun s' hs' => ?_
  rw [ensures_map]
  exact hr.expr s' hs'

/-! ### Brackets -/

theorem args_takes (hr : r.Words) (h : Takes s₀ s L) {opening closing : TokenKind}
    (hcur : s.draft.current.kind = opening) (hopening : opening ≠ .eof) (hclosing : closing ≠ .eof)
    (what : String) : (r.args closing what).Ensures s fun _ s' =>
      Takes s₀ s' (L * (Form.arguments opening closing).language) := by
  simp only [Form.arguments, Form.language_sequence_cons, Form.language_sequence_singleton,
    ← mul_assoc]
  unfold args
  simp only [ensures_bind]
  refine (advance_token h hcur hopening).mono fun _ s₁ h₁ => ?_
  rw [ensures_at?]
  split
  · simp only [ensures_bind, ensures_pure]
    refine (separated_expr_takes hr h₁).mono fun read s₂ h₂ => ?_
    exact expect_token h₂.optional_some hclosing _ _
  · simp only [ensures_bind, ensures_pure]
    exact expect_token (h₁.optional_none _) hclosing _ _

theorem params_takes (hr : r.Words) (h : Takes s₀ s L) :
    r.params.Ensures s fun _ s' => Takes s₀ s' (L * (Form.token .leftParen).language *
      (Form.optional (.separated (.ref .param))).language * (Form.token .rightParen).language) := by
  unfold params
  simp only [ensures_bind]
  refine (openMarker_takes h).mono fun m s₁ h₁ => ?_
  refine (expect_takes h₁.1 (by decide) _ _).mono fun found s₂ h₂ => ?_
  rcases h₂ with ⟨rfl, h₂⟩ | ⟨rfl, h₂⟩
  · simp only [if_true, ensures_bind, ensures_at?]
    split
    · simp only [ensures_bind, ensures_pure]
      refine (separated_param_takes hr h₂).mono fun read s₃ h₃ => ?_
      refine (expect_token h₃.optional_some (by decide) _ _).mono fun _ s₄ h₄ => ?_
      exact closeGroup_takes h₄
    · simp only [ensures_bind, ensures_pure]
      refine (expect_token (h₂.optional_none (.separated (.ref .param))) (by decide) _ _).mono
        fun _ s₃ h₃ => ?_
      exact closeGroup_takes h₃
  · simp only [Bool.false_eq_true, if_false, ensures_bind, ensures_pure]
    exact (closeGroup_takes h₂).mono fun _ s₃ h₃ => h₃.any

theorem statementsUntil_takes (hr : r.Words) (h : Takes s₀ s L) (stop : TokenKind) :
    (r.statementsUntil stop).Ensures s fun _ s' =>
      Takes s₀ s' (L * (Form.many (.ref .stmt)).language) := by
  rw [Form.language_many]
  unfold statementsUntil
  refine repeatFrom_ensures (fun _ s' => Takes s₀ s' (L * (Form.ref .stmt).language∗))
    (h.mono (Form.le_mul_kstar L _)) fun read s₁ h₁ => ?_
  simp only [ensures_bind, ensures_at?, ensures_atEnd]
  split
  · exact ensures_pure.mpr h₁
  · next hgo =>
    have hk : s₁.draft.current.kind ≠ .eof := by
      intro heof
      simp [Draft.atEnd, Draft.at?, heof] at hgo
    simp only [ensures_bind, ensures_current, ensures_pure]
    refine (hr.statement s₁ h₁.told).mono fun stmt s₂ h₂ => ?_
    refine (skipIfStuck_takes h₁.told.toFit h₂ (Form.nil_not_mem_language rfl) hk).mono
      fun _ s₃ h₃ => ?_
    exact (h₁.trans h₃).mono (Form.mul_kstar_mul_le L _)

/-- Taking back the attempt to read parameters takes back the faults that were found in it. -/
theorem closureParams_takes (hr : r.Words) (hrecords : r.Records) (h : Takes s₀ s L) :
    r.closureParams.Ensures s fun _ s' =>
      Takes s₀ s' (L * (Form.optional Form.closureParams).language) := by
  unfold closureParams
  simp only [ensures_bind, ensures_kind]
  split
  · exact ensures_pure.mpr (h.optional_none _)
  · next hnext =>
    have hstarts : StartsVar s.draft.ahead := startsVar_iff.mpr (by
      rw [Bool.and_eq_true, not_and_or] at hnext
      simpa using hnext)
    simp only [ensures_bind]
    refine ((openMarker_takes (.refl h.told)).and (openMarker_ensures h.told.toFit)).mono
      fun m s₁ hs₁ => ?_
    obtain ⟨⟨h₁, -⟩, hin, -, hlast⟩ := hs₁
    have hahead : s.draft.ahead = s₁.draft.ahead := hin.ahead
    simp only [ensures_get]
    refine ((separated_param_takes hr h₁).and (separated_param_ensures hrecords hin.fit
      (.inl (hahead ▸ hstarts)))).mono fun declared s₂ hs₂ => ?_
    obtain ⟨h₂, hread⟩ := hs₂
    refine (accept_takes h₂ (by decide)).mono fun found s₃ h₃ => ?_
    rcases h₃ with ⟨rfl, h₃⟩ | ⟨rfl, rfl⟩
    · simp only [if_true, ensures_bind, ensures_pure]
      refine (closeGroup_takes h₃).mono fun _ s₄ h₄ => ?_
      have hword : Takes s₀ s₄ (L * Form.closureParams.language) := by
        simpa only [Form.closureParams, Form.language_sequence_cons,
          Form.language_sequence_singleton, one_mul] using h.trans h₄
      exact hword.optional_some
    · simp only [Bool.false_eq_true, if_false, ensures_bind, ensures_pure]
      rw [hlast]
      obtain ⟨q, hq⟩ := hin.reads hread.reads
      exact (undo_takes h.told hq h₂).mono fun _ s₄ h₄ => (h.pass h₄).optional_none _

/-! ### Primary expressions -/

variable {m : MarkerId}

theorem closure_takes (hr : r.Words) (hrecords : r.Records) (h : Takes s₀ s L)
    (hcur : s.draft.current.kind = .leftBrace) : (r.closure m).Ensures s fun _ s' =>
      Takes s₀ s' (L * (Form.ref .primary).language) := by
  unfold closure
  simp only [ensures_bind, ensures_here]
  refine (advance_token h hcur (by decide)).mono fun _ s₁ h₁ => ?_
  refine (closureParams_takes hr hrecords h₁).mono fun declared s₂ h₂ => ?_
  refine (statementsUntil_takes hr h₂ _).mono fun stmts s₃ h₃ => ?_
  refine (expect_token h₃ (by decide) _ _).mono fun _ s₄ h₄ => ?_
  simp only [ensures_spanFrom, ensures_alloc, ensures_pure]
  have hword : Takes s₀ s₄ (L * (Form.sequence [.token .leftBrace, .optional .closureParams,
      .many (.ref .stmt), .token .rightBrace]).language) := by
    simpa only [Form.language_sequence_cons, Form.language_sequence_singleton, mul_assoc] using h₄
  exact close_takes (alloc_takes (alloc_takes (hword.alternative rfl (by simp))))

theorem invokeNew_takes (hr : r.Words) (h : Takes s₀ s L) (hcur : s.draft.current.kind = .newKw) :
    r.invokeNew.Ensures s fun _ s' => Takes s₀ s' (L * (Form.ref .primary).language) := by
  unfold invokeNew
  simp only [ensures_bind]
  refine (advance_token h hcur (by decide)).mono fun _ s₁ h₁ => ?_
  refine (type_takes h₁).mono fun className s₂ h₂ => ?_
  rw [ensures_at?]
  split
  · next hat =>
    simp only [ensures_bind, ensures_pure]
    refine (args_takes hr h₂ (by simpa [Draft.at?] using hat) (by decide) (by decide) _).mono
      fun read s₃ h₃ => ?_
    have hword : Takes s₀ s₃ (L * (Form.sequence [.token .newKw, .ref .type,
        .arguments .leftParen .rightParen]).language) := by
      simpa only [Form.language_sequence_cons, Form.language_sequence_singleton, mul_assoc] using h₃
    exact hword.alternative rfl (by simp)
  · next hat =>
    simp only [ensures_bind, ensures_pure]
    exact (expect_fault h₂ (by simpa using hat) _ _).mono fun _ s₃ h₃ => h₃.any

theorem missingExpression_takes (h : Takes s₀ s L) (t : Token) :
    (r.missingExpression m t).Ensures s fun _ s' => Takes s₀ s' 0 := by
  have hreport {M : Language TokenKind} {s₁ : ParseState} (h₁ : Takes s₀ s₁ M) :
      (do
        report m (unexpected r.source t "expression") t.span
        return ⟨m, ← alloc .noop t.span⟩ : Production Parsed).Ensures s₁
        fun _ s' => Takes s₀ s' 0 := by
    simp only [ensures_bind, ensures_alloc, ensures_pure]
    exact (report_takes h₁ _ _).mono fun _ s₂ h₂ => alloc_takes h₂
  unfold missingExpression
  dsimp only
  split
  · rw [ensures_bind]
    refine (advance_takes h).mono fun _ s₁ h₁ => ?_
    obtain ⟨ts, hts, -⟩ := h₁
    exact hreport hts
  · exact hreport h

theorem intLiteral_takes (h : Takes s₀ s L) (t : Token)
    (hcur : s.draft.current.kind = .intLiteral) : (r.intLiteral m t).Ensures s fun _ s' =>
      Takes s₀ s' (L * (Form.ref .primary).language) := by
  unfold intLiteral
  rw [ensures_bind]
  have hk : s.draft.current.kind ∈ literalKinds := by
    rw [hcur]
    decide
  refine (advance_oneOf h hk (by decide)).mono fun _ s₁ h₁ => ?_
  have h₁ : Takes s₀ s₁ (L * (Form.ref .primary).language) := h₁.alternative rfl (by simp)
  split
  · simp only [ensures_bind, ensures_pure]
    exact finish_takes h₁
  · simp only [ensures_bind, ensures_alloc, ensures_pure]
    exact (report_takes h₁ _ _).mono fun _ s₂ h₂ => alloc_takes h₂.any

theorem simple_takes {kinds : List TokenKind} (h : Takes s₀ s L) (t : Token) (data : NodeData)
    (hcur : s.draft.current.kind ∈ kinds) (hkinds : .eof ∉ kinds)
    (hprimary : (Form.oneOf kinds).language ≤ (Form.ref .primary).language) :
    (simple m t data).Ensures s fun _ s' => Takes s₀ s' (L * (Form.ref .primary).language) := by
  unfold simple
  simp only [ensures_bind, ensures_pure]
  exact (advance_oneOf h hcur hkinds).mono fun _ s₁ h₁ =>
    finish_takes (h₁.mono (mul_le_mul_right hprimary L))

theorem parentheses_takes (hr : r.Words) (h : Takes s₀ s L)
    (hcur : s.draft.current.kind = .leftParen) : (do
      advance
      let inner ← r.expr
      let _ ← expect r.source .rightParen "')'"
      dissolve m
      return ⟨m, inner.node⟩ : Production Parsed).Ensures s fun _ s' =>
        Takes s₀ s' (L * (Form.ref .primary).language) := by
  simp only [ensures_bind, ensures_pure]
  refine (advance_token h hcur (by decide)).mono fun _ s₁ h₁ => ?_
  refine (hr.expr_takes h₁).mono fun inner s₂ h₂ => ?_
  refine (expect_token h₂ (by decide) _ _).mono fun _ s₃ h₃ => ?_
  have hword : Takes s₀ s₃ (L * (Form.sequence [.token .leftParen, .ref .expr,
      .token .rightParen]).language) := by
    simpa only [Form.language_sequence_cons, Form.language_sequence_singleton, mul_assoc] using h₃
  exact dissolve_takes (hword.alternative rfl (by simp))

theorem primary_takes (hr : r.Words) (hrecords : r.Records) (h : Takes s₀ s L) :
    r.primary.Ensures s fun _ s' => Takes s₀ s' (L * (Form.ref .primary).language) := by
  unfold primary
  simp only [ensures_bind, ensures_current]
  refine (openMarker_takes h).mono fun m s₁ hs₁ => ?_
  obtain ⟨h₁, hcur⟩ := hs₁
  have hliteral {kind : TokenKind} (hk : s.draft.current.kind = kind) (hkind : kind ∈ literalKinds)
      (literal : Literal) : (simple m s.draft.current (.literal literal)).Ensures s₁
        fun _ s' => Takes s₀ s' (L * (Form.ref .primary).language) :=
    simple_takes h₁ _ _ (by rw [hcur, hk]; exact hkind) (by decide)
      (Form.language_le_ref rfl (by simp))
  split
  · next hk => exact intLiteral_takes h₁ _ (hcur ▸ hk)
  · next hk => exact hliteral hk (by decide) _
  · next hk => exact hliteral hk (by decide) _
  · next hk => exact hliteral hk (by decide) _
  · next hk => exact hliteral hk (by decide) _
  · next hk => exact hliteral hk (by decide) _
  · next hk =>
    have hident : s₁.draft.current.kind ∈ [TokenKind.ident] := by simp [hcur, hk]
    exact simple_takes h₁ _ _ hident (by decide)
      (Form.language_le_ref (f := .token .ident) rfl (by simp))
  · next hk => exact parentheses_takes hr h₁ (hcur ▸ hk)
  · next hk =>
    simp only [ensures_bind, ensures_pure]
    refine (args_takes hr h₁ (hcur ▸ hk) (by decide) (by decide) _).mono fun items s₂ h₂ => ?_
    exact finish_takes (h₂.alternative rfl (by simp))
  · next hk => exact closure_takes hr hrecords h₁ (hcur ▸ hk)
  · next hk =>
    simp only [ensures_bind, ensures_pure]
    exact (invokeNew_takes hr h₁ (hcur ▸ hk)).mono fun data s₂ h₂ => finish_takes h₂
  · exact (missingExpression_takes h₁ _).mono fun _ s₂ h₂ => h₂.any

/-! ### Calls and operators -/

theorem member_takes (hr : r.Words) (h : Takes s₀ s L) (hcur : s.draft.current.kind = .dot)
    (target : NodeId) :
    (r.member target).Ensures s fun _ s' => Takes s₀ s' (L * Form.suffix.language) := by
  unfold member
  simp only [ensures_bind, ensures_current]
  refine (advance_token h hcur (by decide)).mono fun _ s₁ h₁ => ?_
  refine (expect_token h₁ (by decide) _ _).mono fun found s₂ h₂ => ?_
  have hrest (name : String) : (do
      if ← at? .leftParen then
        return .methodCall target name (some (← r.args .rightParen "')'"))
      return .methodCall target name none : Production NodeData).Ensures s₂ fun _ s' =>
        Takes s₀ s' (L * Form.suffix.language) := by
    simp only [ensures_bind, ensures_at?]
    split
    · next hat =>
      simp only [ensures_bind, ensures_pure]
      refine (args_takes hr h₂ (by simpa [Draft.at?] using hat) (by decide) (by decide) _).mono
        fun read s₃ h₃ => h₃.mono ?_
      refine le_trans (le_of_eq ?_) (mul_le_mul_right (Form.language_le_choice (f := .sequence
        [.token .dot, .token .ident, .arguments .leftParen .rightParen]) (by simp)) L)
      simp only [Form.language_sequence_cons, Form.language_sequence_singleton, mul_assoc]
    · refine ensures_pure.mpr (h₂.mono ?_)
      refine le_trans (le_of_eq ?_) (mul_le_mul_right (Form.language_le_choice (f := .sequence
        [.token .dot, .token .ident]) (by simp)) L)
      simp only [Form.language_sequence_cons, Form.language_sequence_singleton, mul_assoc]
  split
  · rw [pure_bind]
    exact hrest _
  · rw [pure_bind]
    exact hrest _

theorem mem_of_unaryOp {kind : TokenKind} {op : UnaryOp} (h : unaryOp? kind = some op) :
    kind ∈ [TokenKind.bang, .minus] := by
  cases kind <;> cases h <;> decide

theorem suffixed_takes (hr : r.Words) (hrecords : r.Records) (h : Takes s₀ s L) :
    r.suffixed.Ensures s fun _ s' => Takes s₀ s' (L * (Form.ref .postfixed).language) := by
  have hword : L * (Form.ref .postfixed).language =
      L * (Form.ref .primary).language * Form.suffix.language∗ := by
    rw [Form.language_ref .postfixed, mul_assoc]
    simp only [Symbol.form, Form.language_sequence_cons, Form.language_sequence_singleton,
      Form.language_many]
  rw [hword]
  unfold suffixed
  simp only [ensures_bind, ensures_here]
  refine (primary_takes hr hrecords h).mono fun e s₁ h₁ => ?_
  refine repeatFrom_ensures
    (fun _ s' => Takes s₀ s' (L * (Form.ref .primary).language * Form.suffix.language∗))
    (h₁.mono (Form.le_mul_kstar _ _)) fun target s₂ h₂ => ?_
  simp only [ensures_bind, ensures_kind]
  split
  · next hk =>
    simp only [ensures_bind, ensures_pure]
    refine (openBefore_takes h₂).mono fun m s₃ h₃ => ?_
    refine (args_takes hr h₃.1 (h₃.2 ▸ hk) (by decide) (by decide) _).mono fun read s₄ h₄ => ?_
    refine finish_takes ((h₄.mono (mul_le_mul_right ?_ _)).mono (Form.mul_kstar_mul_le _ _))
    exact Form.language_le_choice (by simp)
  · next hk =>
    simp only [ensures_bind, ensures_pure]
    refine (openBefore_takes h₂).mono fun m s₃ h₃ => ?_
    refine (member_takes hr h₃.1 (h₃.2 ▸ hk) _).mono fun data s₄ h₄ => ?_
    exact finish_takes (h₄.mono (Form.mul_kstar_mul_le _ _))
  · exact ensures_pure.mpr h₂

theorem operand_takes (hr : r.Words) (hrecords : r.Records) (h : Takes s₀ s L) :
    r.operand.Ensures s fun _ s' => Takes s₀ s' (L * Form.operand.language) := by
  have hword : Form.operand.language =
      (Form.oneOf [.bang, .minus]).language∗ * (Form.ref .postfixed).language := by
    simp only [Form.operand, Form.language_sequence_cons, Form.language_sequence_singleton,
      Form.language_many]
  unfold operand
  simp only [ensures_bind, ensures_kind]
  split
  · refine (suffixed_takes hr hrecords h).mono fun e s₁ h₁ => h₁.mono (mul_le_mul_right ?_ L)
    rw [hword]
    calc (Form.ref .postfixed).language = 1 * (Form.ref .postfixed).language := (one_mul _).symm
      _ ≤ _ := mul_le_mul_left one_le_kstar _
  · next op hop =>
    simp only [ensures_bind, ensures_here, ensures_pure]
    refine (openMarker_takes h).mono fun m s₁ hs₁ => ?_
    obtain ⟨h₁, hcur⟩ := hs₁
    have hk : s₁.draft.current.kind ∈ [TokenKind.bang, .minus] := by
      rw [hcur]
      exact mem_of_unaryOp hop
    refine (advance_oneOf h₁ hk (by decide)).mono fun _ s₂ h₂ => ?_
    refine (hr.unary s₂ h₂.told).mono fun inner s₃ h₃ => ?_
    refine finish_takes ((h₂.trans h₃).mono ?_)
    rw [hword, mul_assoc, ← mul_assoc (Form.oneOf _).language]
    exact mul_le_mul_right (mul_le_mul_left mul_kstar_le_kstar _) L

theorem mem_of_lookup {operators : List (TokenKind × BinaryOp)} {kind : TokenKind} {op : BinaryOp}
    (h : operators.lookup kind = some op) : kind ∈ operators.map Prod.fst := by
  induction operators with
  | nil => cases h
  | cons entry operators ih =>
    obtain ⟨k, o⟩ := entry
    rw [List.lookup_cons] at h
    split at h
    · next heq => simp [eq_of_beq heq]
    · exact List.mem_cons_of_mem _ (ih h)

/-- Operands joined by the operators of some levels, by induction on the levels. -/
theorem binary_takes (hr : r.Words) (hrecords : r.Records)
    (levels : List (List (TokenKind × BinaryOp)))
    (hlevels : ∀ operators ∈ levels, ∀ kind ∈ operators.map Prod.fst, kind ∈ binaryKinds)
    (h : Takes s₀ s L) : (r.binary levels).Ensures s fun _ s' => Takes s₀ s' (L *
      Form.operand.language * ((Form.oneOf binaryKinds).language * Form.operand.language)∗) := by
  induction levels generalizing s L with
  | nil =>
    exact (operand_takes hr hrecords h).mono fun e s₁ h₁ => h₁.mono (Form.le_mul_kstar _ _)
  | cons operators tighter ih =>
    obtain ⟨hoperators, htighter⟩ := List.forall_mem_cons.mp hlevels
    unfold binary
    simp only [ensures_bind, ensures_here]
    refine (ih htighter h).mono fun first s₁ h₁ => ?_
    refine repeatFrom_ensures (fun _ s' => Takes s₀ s' (L * Form.operand.language *
      ((Form.oneOf binaryKinds).language * Form.operand.language)∗)) h₁ fun left s₂ h₂ => ?_
    simp only [ensures_bind, ensures_kind]
    split
    · exact ensures_pure.mpr h₂
    · next op hop =>
      simp only [ensures_bind, ensures_pure]
      refine (openBefore_takes h₂).mono fun m s₃ h₃ => ?_
      have hkind : s₃.draft.current.kind ∈ binaryKinds :=
        hoperators _ (by rw [h₃.2]; exact mem_of_lookup hop)
      refine (advance_oneOf h₃.1 hkind (by decide)).mono fun _ s₄ h₄ => ?_
      refine (ih htighter h₄).mono fun right s₅ h₅ => finish_takes (h₅.mono ?_)
      -- What was read before, an operator, and what was read behind it are one word.
      rw [mul_assoc _ (Form.oneOf binaryKinds).language]
      refine (mul_le_mul_left (Form.mul_kstar_mul_le _ _) _).trans (le_of_eq ?_)
      rw [mul_assoc, kstar_mul_kstar]

theorem expression_takes (hr : r.Words) (hrecords : r.Records) (h : Takes s₀ s L) :
    r.expression.Ensures s fun _ s' => Takes s₀ s' (L * (Form.ref .expr).language) := by
  unfold expression
  simp only [ensures_bind, ensures_at?, ensures_kindAfter]
  split
  · next hat =>
    rw [Bool.and_eq_true] at hat
    have hident : s.draft.current.kind = .ident := by simpa [Draft.at?] using hat.1
    have hequal : (s.draft.lookahead 1).kind = .equal := by simpa using hat.2
    simp only [ensures_bind, ensures_current, ensures_pure]
    refine ((openMarker_takes h).and (openMarker_lookahead s 1)).mono fun m s₁ hs₁ => ?_
    obtain ⟨⟨h₁, hcur⟩, hnext⟩ := hs₁
    refine ((advance_token h₁ (hcur ▸ hident) (by decide)).and (advance_current s₁)).mono
      fun _ s₂ h₂ => ?_
    have hcur₂ : s₂.draft.current.kind = .equal := by rw [h₂.2, hnext, hequal]
    refine (advance_token h₂.1 hcur₂ (by decide)).mono fun _ s₃ h₃ => ?_
    refine (hr.expr_takes h₃).mono fun value s₄ h₄ => ?_
    have hword : Takes s₀ s₄
        (L * (Form.sequence [.token .ident, .token .equal, .ref .expr]).language) := by
      simpa only [Form.language_sequence_cons, Form.language_sequence_singleton, mul_assoc] using h₄
    exact finish_takes (hword.alternative rfl (by simp))
  · refine (binary_takes hr hrecords binaryLevels (by decide) h).mono fun e s₁ h₁ => ?_
    have hword : Takes s₀ s₁ (L * (Form.sequence [.operand,
        .many (.sequence [.oneOf binaryKinds, .operand])]).language) := by
      simpa only [Form.language_sequence_cons, Form.language_sequence_singleton,
        Form.language_many, mul_assoc] using h₁
    exact hword.alternative rfl (by simp)

end Rules

end ScriptAnalysis
