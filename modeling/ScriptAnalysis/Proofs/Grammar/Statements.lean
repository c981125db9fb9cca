import ScriptAnalysis.Grammar.Script
import ScriptAnalysis.Proofs.Grammar.Expressions

/-!
# Statements, classes and the circle of productions

A statement may read nothing at all: a closing brace or an `else` is reported and left ahead.  A
declaration or an expression is only tried where its first token stands, so every node it makes has
a token, and every production of the circle is safe with as many tokens ahead as it has rounds
left (`upTo_safeBelow`).
-/

namespace ScriptAnalysis

open Production

/-- A declaration is only seen where a type stands. -/
theorem startsType_of_declarationShape? {d : Draft} {shape : DeclarationShape}
    (h : declarationShape? d.ahead = some shape) : startsType d.current.kind = true := by
  have htype : ∀ ts : List Token, (afterType? ts).isSome → ∃ t, nthSignificant ts 0 = some t ∧
      startsType t.kind = true := by
    intro ts
    induction ts with
    | nil => simp [afterType?]
    | cons t ts ih =>
      unfold afterType? nthSignificant
      by_cases ht : t.isTrivia = true
      · simpa [ht] using ih
      · intro hsome
        refine ⟨t, by simp [ht], ?_⟩
        by_contra hno
        simp only [startsType, Bool.or_eq_true, beq_iff_eq, not_or] at hno
        simp [ht, hno] at hsome
  unfold declarationShape? at h
  obtain ⟨rest, hrest, -⟩ := Option.bind_eq_some_iff.mp h
  obtain ⟨t, ht, hk⟩ := htype d.ahead (by simp [hrest])
  simpa [Draft.current, Draft.lookahead, ht] using hk

/-- What starts an expression closes nothing. -/
theorem not_isCloser_of_startsExpression {kind : TokenKind} (h : startsExpression kind = true) :
    isCloser kind = false := by
  revert h
  cases kind <;> decide

namespace Rules

variable {r : Rules} {n : Nat} {s : ParseState} {d : Draft} {m : MarkerId}

@[simp] theorem yields_declarationShape {Q : Option DeclarationShape → ParseState → Prop} :
    declarationShape.Yields s Q ↔ Q (declarationShape? s.draft.ahead) s := by
  simp [declarationShape]

/-! ### Blocks and functions -/

theorem block_yields (hr : r.SafeBelow n) (h : s.draft.Ready) (hn : s.draft.ahead.length ≤ n)
    (hs : s.draft.Started) : r.block.Yields s fun _ s' => s.draft.Grows s'.draft := by
  unfold block
  simp only [yields_bind]
  refine (openMarker_yields h).mono ?_
  rintro m s₁ ⟨hw, -, -⟩
  rw [yields_here]
  apply (expect_yields hw.ready (by decide) _ _).mono
  intro found s₂ h₂
  have finished : ∀ (stmts : List NodeId) s', s₁.draft.Grows s'.draft →
      (finish m s₁.draft.current.offset (.block stmts)).Yields s' fun _ s'' =>
        s.draft.Grows s''.draft := by
    intro stmts s' hg
    apply (finish_yields (hw.trans hg) (hg.started (hw.started hs)) _ _).mono
    intro _ _ h'
    exact h'.wraps.grows
  split
  · next hf =>
    have hn₂ := Nat.lt_of_lt_of_le (h₂.2 hf).length_lt (Nat.le_trans hw.length_le hn)
    simp only [yields_bind]
    apply (statementsUntil_yields hr h₂.1.ready hn₂ _).mono
    intro stmts s₃ h₃
    apply (expect_yields h₃.ready (by decide) _ _).mono
    intro _ s₄ h₄
    exact finished stmts s₄ (h₂.1.trans (h₃.trans h₄.1))
  · exact finished [] s₂ h₂.1

theorem funDecl_yields (hr : r.SafeBelow n) (h : s.draft.Ready) (hn : s.draft.ahead.length ≤ n)
    (isMethod : Bool) (hs : startsType s.draft.current.kind = true) :
    (r.funDecl isMethod).Yields s fun _ s' => s.draft.Grows s'.draft := by
  unfold funDecl
  simp only [yields_bind]
  refine (openMarker_yields h).mono ?_
  rintro m s₁ ⟨hw, -, hcur⟩
  rw [yields_here]
  apply (type_yields hw.ready).mono
  intro returnType s₂ h₂
  have h₂ := h₂.2 (hcur ▸ hs)
  apply (name_yields h₂.grows.ready _).mono
  intro declaredName s₃ h₃
  have hn₁ := Nat.le_trans hw.length_le hn
  have h₃ := h₂.trans_grows h₃
  apply (params_yields hr h₃.grows.ready (Nat.le_trans h₃.grows.length_le hn₁) h₃.started).mono
  intro declared s₄ h₄
  have h₄ := h₃.trans_grows h₄
  apply (block_yields hr h₄.grows.ready (Nat.le_trans h₄.grows.length_le hn₁) h₄.started).mono
  intro body s₅ h₅
  have hc := h₄.trans_grows h₅
  rw [yields_spanFrom]
  apply (alloc_yields _ _).mono
  intro decl s₆ h₆
  apply (alloc_yields _ _).mono
  intro node s₇ h₇
  rw [← h₆.1, ← h₇.1] at hc
  apply (close_yields (hw.trans hc.grows) hc.started node).mono
  intro _ s₈ h₈
  exact yields_pure.mpr h₈.wraps.grows

/-! ### Statements -/

theorem bracedStatement_yields (hr : r.SafeBelow n) (h : s.draft.Ready)
    (hn : s.draft.ahead.length ≤ n) (hk : s.draft.current.kind = .leftBrace) :
    r.bracedStatement.Yields s fun _ s' => s.draft.Grows s'.draft := by
  unfold bracedStatement
  simp only [yields_bind]
  apply (expression_yields hr h hn).mono
  intro braces s₁ h₁
  have hc := h₁.2 (by simp [hk, isCloser])
  refine (openBefore_yields h h₁.1).mono ?_
  rintro m s₂ ⟨hw, ha, -⟩
  have hs : s₂.draft.Started := hw.started_of_length_lt (ha ▸ hc.length_lt)
  have closed : ∀ (result : NodeId) (s' : ParseState), s'.draft = s₂.draft →
      (do close m result; pure result : Production NodeId).Yields s' fun _ s'' =>
        s.draft.Grows s''.draft := by
    intro result s' he
    rw [← he] at hw hs
    rw [yields_bind]
    apply (close_yields hw hs result).mono
    intro _ s'' h''
    exact yields_pure.mpr h''.wraps.grows
  rw [yields_get]
  split
  · rw [yields_bind, yields_modify]
    exact closed _ _ rfl
  · rw [yields_bind, yields_get, yields_bind]
    exact (alloc_yields _ _).mono fun result s₃ h₃ => closed result s₃ h₃.1

/-- Where no statement stands, a branch is an empty block. -/
theorem branch_yields (hr : r.SafeBelow n) (h : s.draft.Ready) (hn : s.draft.ahead.length < n) :
    r.branch.Yields s fun _ s' => s.draft.Grows s'.draft := by
  unfold branch allocFrom
  rw [yields_bind]
  apply (hr.statement s h hn).mono
  intro stmt s₁ h₁
  split
  · exact yields_pure.mpr h₁
  · simp only [yields_bind, yields_get, yields_spanFrom]
    apply (alloc_yields _ _).mono
    intro node s₂ h₂
    rw [h₂.1]
    exact h₁

theorem condition_yields (hr : r.SafeBelow n) (h : s.draft.Ready)
    (hn : s.draft.ahead.length ≤ n) :
    r.condition.Yields s fun _ s' => s.draft.Grows s'.draft := by
  unfold condition
  simp only [yields_bind]
  apply (expect_yields h (by decide) _ _).mono
  intro _ s₁ h₁
  apply (expression_yields hr h₁.1.ready (Nat.le_trans h₁.1.length_le hn)).mono
  intro cond s₂ h₂
  apply (expect_yields h₂.1.ready (by decide) _ _).mono
  intro _ s₃ h₃
  exact yields_pure.mpr (h₁.1.trans (h₂.1.grows.trans h₃.1))

/-- A keyword, a condition and a branch. -/
theorem conditional_yields (hr : r.SafeBelow n) (h : s.draft.Ready)
    (hn : s.draft.ahead.length ≤ n) (hk : s.draft.current.kind ≠ .eof) {α : Type}
    {f : NodeId → NodeId → Production α} {Q : α → ParseState → Prop}
    (hf : ∀ cond branch s', s.draft.Consumes s'.draft → (f cond branch).Yields s' Q) :
    (do advance; let cond ← r.condition; f cond (← r.branch)).Yields s Q := by
  simp only [yields_bind]
  apply (advance_yields h hk).mono
  intro _ s₁ h₁
  have hn₁ := Nat.lt_of_lt_of_le h₁.length_lt hn
  apply (condition_yields hr h₁.grows.ready (Nat.le_of_lt hn₁)).mono
  intro cond s₂ h₂
  apply (branch_yields hr h₂.ready (Nat.lt_of_le_of_lt h₂.length_le hn₁)).mono
  intro branch s₃ h₃
  exact hf cond branch s₃ (h₁.trans_grows (h₂.trans h₃))

theorem ifStatement_yields (hr : r.SafeBelow n) (h : s.draft.Ready)
    (hn : s.draft.ahead.length ≤ n) (hk : s.draft.current.kind ≠ .eof) :
    r.ifStatement.Yields s fun _ s' => s.draft.Grows s'.draft := by
  unfold ifStatement
  rw [yields_bind]
  refine (openMarker_yields h).mono ?_
  rintro m s₁ ⟨hw, -, hcur⟩
  have hn₁ := Nat.le_trans hw.length_le hn
  rw [yields_bind, yields_here]
  apply conditional_yields hr hw.ready hn₁ (hcur ▸ hk)
  intro cond thenBranch s₂ h₂
  have hfinish : ∀ elseBranch s', s₂.draft.Grows s'.draft →
      (finish m s₁.draft.current.offset (.ifStmt cond thenBranch elseBranch)).Yields s'
        fun _ s'' => s.draft.Grows s''.draft := by
    intro elseBranch s' hg
    have hc := h₂.trans_grows hg
    exact (finish_yields (hw.trans hc.grows) hc.started _ _).mono fun _ _ h' => h'.wraps.grows
  simp only [yields_bind]
  apply (accept_yields h₂.grows.ready (by decide)).mono
  intro found s₃ h₃
  split
  · rw [yields_bind, yields_map]
    have hn₃ := Nat.lt_of_lt_of_le (h₂.trans_grows h₃.1).length_lt hn₁
    apply (branch_yields hr h₃.1.ready hn₃).mono
    intro elseBranch s₄ h₄
    exact hfinish _ s₄ (h₃.1.trans h₄)
  · exact hfinish _ s₃ h₃.1

theorem whileStatement_yields (hr : r.SafeBelow n) (h : s.draft.Ready)
    (hn : s.draft.ahead.length ≤ n) (hk : s.draft.current.kind ≠ .eof) :
    r.whileStatement.Yields s fun _ s' => s.draft.Grows s'.draft := by
  unfold whileStatement
  rw [yields_bind]
  refine (openMarker_yields h).mono ?_
  rintro m s₁ ⟨hw, -, hcur⟩
  have hn₁ := Nat.le_trans hw.length_le hn
  rw [yields_bind, yields_here]
  apply conditional_yields hr hw.ready hn₁ (hcur ▸ hk)
  intro cond body s₂ h₂
  exact (finish_yields (hw.trans h₂.grows) h₂.started _ _).mono fun _ _ h' => h'.wraps.grows

theorem returnStatement_yields (hr : r.SafeBelow n) (h : s.draft.Ready)
    (hn : s.draft.ahead.length ≤ n) (hk : s.draft.current.kind ≠ .eof) :
    r.returnStatement.Yields s fun _ s' => s.draft.Grows s'.draft := by
  unfold returnStatement
  simp only [yields_bind]
  refine (openMarker_yields h).mono ?_
  rintro m s₁ ⟨hw, -, hcur⟩
  rw [yields_here]
  apply (advance_yields hw.ready (hcur ▸ hk)).mono
  intro _ s₂ h₂
  have hfinish : ∀ value s', s₂.draft.Grows s'.draft →
      (finish m s₁.draft.current.offset (.returnStmt value)).Yields s'
        fun _ s'' => s.draft.Grows s''.draft := by
    intro value s' hg
    have hc := h₂.trans_grows hg
    exact (finish_yields (hw.trans hc.grows) hc.started _ _).mono fun _ _ h' => h'.wraps.grows
  rw [yields_kind]
  split
  · simp only [yields_bind, yields_map]
    have hn₂ := Nat.le_trans h₂.grows.length_le (Nat.le_trans hw.length_le hn)
    apply (expression_yields hr h₂.grows.ready hn₂).mono
    intro value s₃ h₃
    exact hfinish _ s₃ h₃.1.grows
  · exact hfinish _ s₂ (Draft.Grows.refl h₂.grows.ready)

theorem expressionStatement_yields (hr : r.SafeBelow n) (h : s.draft.Ready)
    (hn : s.draft.ahead.length ≤ n) (hk : startsExpression s.draft.current.kind = true) :
    r.expressionStatement.Yields s fun _ s' => s.draft.Grows s'.draft := by
  unfold expressionStatement
  simp only [yields_bind]
  refine (openMarker_yields h).mono ?_
  rintro m s₁ ⟨hw, -, hcur⟩
  rw [yields_here]
  apply (expression_yields hr hw.ready (Nat.le_trans hw.length_le hn)).mono
  intro e s₂ h₂
  have hc := h₂.2 (hcur ▸ not_isCloser_of_startsExpression hk)
  exact (finish_yields (hw.trans hc.grows) hc.started _ _).mono fun _ _ h' => h'.wraps.grows

theorem emptyStatement_yields (h : s.draft.Ready) (hk : s.draft.current.kind ≠ .eof) :
    emptyStatement.Yields s fun _ s' => s.draft.Grows s'.draft := by
  unfold emptyStatement
  simp only [yields_bind]
  refine (openMarker_yields h).mono ?_
  rintro m s₁ ⟨hw, -, hcur⟩
  rw [yields_here]
  apply (advance_yields hw.ready (hcur ▸ hk)).mono
  intro _ s₂ h₂
  apply (finish_yields (hw.trans h₂.grows) h₂.started _ _).mono
  intro _ _ h'
  exact yields_pure.mpr h'.wraps.grows

theorem strayToken_yields (h : s.draft.Ready) :
    r.strayToken.Yields s fun _ s' => s.draft.Grows s'.draft := by
  have reported : (do let m ← openMarker; reportHere r.source m "expression").Yields s
      fun _ s' => s.draft.Grows s'.draft := by
    rw [yields_bind]
    refine (openMarker_yields h).mono ?_
    rintro m s₁ ⟨hw, -, -⟩
    exact (reportHere_yields hw _ _).mono fun _ _ h' => h'.wraps.grows
  unfold strayToken
  rw [yields_bind, yields_kind]
  split
  · exact reported
  · exact reported
  · exact skipUnexpected_yields h _ _

theorem plainStatement_yields (hr : r.SafeBelow n) (h : s.draft.Ready)
    (hn : s.draft.ahead.length ≤ n) :
    r.plainStatement.Yields s fun _ s' => s.draft.Grows s'.draft := by
  unfold plainStatement
  rw [yields_bind, yields_declarationShape]
  split
  · next hshape =>
    rw [yields_map]
    exact funDecl_yields hr h hn false (startsType_of_declarationShape? hshape)
  · next hshape =>
    rw [yields_map]
    exact varDecl_yields hr h hn .localVar true
      (Or.inr ⟨rfl, startsType_of_declarationShape? hshape⟩)
  · rw [yields_bind, yields_kind]
    split
    · next hk =>
      rw [yields_map]
      exact expressionStatement_yields hr h hn hk
    · rw [yields_bind]
      exact (strayToken_yields h).mono fun _ _ h' => yields_pure.mpr h'

theorem aStatement_yields (hr : r.SafeBelow n) (h : s.draft.Ready)
    (hn : s.draft.ahead.length ≤ n) :
    r.aStatement.Yields s fun _ s' => s.draft.Grows s'.draft := by
  unfold aStatement
  rw [yields_bind, yields_kind]
  extract_lets ended
  have hended : ∀ stmt s', s.draft.Grows s'.draft →
      (ended stmt).Yields s' fun _ s'' => s.draft.Grows s''.draft := by
    intro stmt s' hg
    simp only [ended]
    split
    · rw [yields_bind]
      apply (accept_yields hg.ready (by decide)).mono
      intro _ s'' h''
      exact yields_pure.mpr (hg.trans h''.1)
    · exact yields_pure.mpr hg
  have hsome : ∀ {p : Production NodeId}, (p.Yields s fun _ s' => s.draft.Grows s'.draft) →
      (some <$> p >>= ended).Yields s fun _ s' => s.draft.Grows s'.draft := by
    intro p hp
    rw [yields_bind, yields_map]
    exact hp.mono fun stmt s' hg => hended _ s' hg
  split
  · next hk =>
    rw [yields_bind]
    apply (emptyStatement_yields h (by simp [hk])).mono
    intro _ s' hg
    exact hended none s' hg
  · next hk => exact hsome (bracedStatement_yields hr h hn hk)
  · next hk => exact hsome (ifStatement_yields hr h hn (by simp [hk]))
  · next hk => exact hsome (whileStatement_yields hr h hn (by simp [hk]))
  · next hk => exact hsome (returnStatement_yields hr h hn (by simp [hk]))
  · rw [yields_bind]
    exact (plainStatement_yields hr h hn).mono fun stmt s' hg => hended stmt s' hg

/-! ### Classes -/

theorem classMember_yields (hr : r.SafeBelow n) (h : s.draft.Ready) (hs : s.draft.Started)
    (hn : s.draft.ahead.length < n) (read : MembersRead) :
    (r.classMember read).Yields s fun _ s' => s.draft.Grows s'.draft := by
  unfold classMember
  rw [yields_bind, yields_kind]
  split
  · next hk =>
    rw [yields_bind]
    apply (hr.classDecl s h (by simp [hk]) hn).mono
    intro _ s' hg
    exact yields_pure.mpr hg
  · next hk =>
    rw [yields_bind]
    apply (advance_yields h (by simp [hk])).mono
    intro _ s' h'
    exact yields_pure.mpr h'.grows
  · rw [yields_bind, yields_declarationShape]
    split
    · next hshape =>
      rw [yields_bind]
      apply (funDecl_yields hr h (Nat.le_of_lt hn) true
        (startsType_of_declarationShape? hshape)).mono
      intro _ s' hg
      exact yields_pure.mpr hg
    · simp only [yields_bind]
      apply (varDecl_yields hr h (Nat.le_of_lt hn) .field true (Or.inl hs)).mono
      intro decl s₁ h₁
      apply (accept_yields h₁.ready (by decide)).mono
      intro _ s₂ h₂
      exact yields_pure.mpr (h₁.trans h₂.1)
    · rw [yields_bind]
      exact (skipUnexpected_yields h _ _).mono fun _ s' hg => yields_pure.mpr hg

theorem classMembers_yields (hr : r.SafeBelow n) (h : s.draft.Ready) (hs : s.draft.Started)
    (hn : s.draft.ahead.length < n) :
    r.classMembers.Yields s fun _ s' => s.draft.Grows s'.draft := by
  unfold classMembers
  refine repeatFrom_yields (fun _ s' => s.draft.Grows s'.draft) (Draft.Grows.refl h) ?_
  intro read s' hg
  simp only [yields_bind, yields_at?, yields_atEnd]
  split
  · exact yields_pure.mpr hg
  · next hend =>
    have hk : s'.draft.current.kind ≠ .eof := by
      intro he
      simp [Draft.atEnd, Draft.at?, he] at hend
    simp only [yields_bind, yields_current]
    apply (classMember_yields hr hg.ready (hg.started hs) (Nat.lt_of_le_of_lt hg.length_le hn)
      read).mono
    intro read s₁ h₁
    apply (skipIfStuck_yields hg.ready h₁ hk).mono
    intro _ s₂ h₂
    exact yields_pure.mpr ⟨hg.trans h₂.1, h₂.2⟩

theorem aClass_yields (hr : r.SafeBelow n) (h : s.draft.Ready) (hn : s.draft.ahead.length ≤ n)
    (hk : s.draft.current.kind ≠ .eof) :
    r.aClass.Yields s fun _ s' => s.draft.Grows s'.draft := by
  unfold aClass
  simp only [ite_bind, yields_bind]
  refine (openMarker_yields h).mono ?_
  rintro m s₁ ⟨hw, -, hcur⟩
  rw [yields_here]
  apply (advance_yields hw.ready (hcur ▸ hk)).mono
  intro _ s₂ h₂
  apply (name_yields h₂.grows.ready _).mono
  intro declaredName s₃ h₃
  apply (accept_yields h₃.ready (by decide)).mono
  intro extended s₄ h₄
  have hbase : (if extended = true then some <$> TypeRef.name <$> r.type else pure none :
      Production (Option String)).Yields s₄ fun _ s₅ => s₄.draft.Grows s₅.draft := by
    split
    · simp only [yields_map]
      exact (type_yields h₄.1.ready).mono fun _ _ h₅ => h₅.1
    · exact yields_pure.mpr (Draft.Grows.refl h₄.1.ready)
  apply hbase.mono
  intro base s₅ h₅
  have hg := h₃.trans (h₄.1.trans h₅)
  have finished : ∀ data s', s₅.draft.Grows s'.draft →
      (finish m s₁.draft.current.offset data).Yields s' fun _ s'' => s.draft.Grows s''.draft := by
    intro data s' hg'
    have hc := h₂.trans_grows (hg.trans hg')
    exact (finish_yields (hw.trans hc.grows) hc.started _ _).mono fun _ _ h' => h'.wraps.grows
  apply (expect_yields h₅.ready (by decide) _ _).mono
  intro found s₆ h₆
  split
  · have hc := h₂.trans_grows (hg.trans h₆.1)
    have hn₆ := Nat.lt_of_lt_of_le hc.length_lt (Nat.le_trans hw.length_le hn)
    simp only [yields_bind]
    apply (classMembers_yields hr h₆.1.ready hc.started hn₆).mono
    intro read s₇ h₇
    apply (expect_yields h₇.ready (by decide) _ _).mono
    intro _ s₈ h₈
    exact finished _ s₈ (h₆.1.trans (h₇.trans h₈.1))
  · exact finished _ s₆ h₆.1

/-! ### The circle -/

/-- By induction on the rounds: the productions of a round consume a token before they refer to
    those of the round below. -/
theorem upTo_safeBelow (source : String) (package : Option String) (depth : Nat) :
    (upTo source package depth).SafeBelow depth := by
  induction depth with
  | zero =>
    exact ⟨fun _ _ hn => absurd hn (Nat.not_lt_zero _), fun _ _ hn => absurd hn (Nat.not_lt_zero _),
      fun _ _ hn => absurd hn (Nat.not_lt_zero _), fun _ _ _ hn => absurd hn (Nat.not_lt_zero _)⟩
  | succ depth ih =>
    constructor
    · intro s h hn
      exact expression_yields ih h (Nat.le_of_lt_succ hn)
    · intro s h hn
      exact operand_yields ih h (Nat.le_of_lt_succ hn)
    · intro s h hn
      exact aStatement_yields ih h (Nat.le_of_lt_succ hn)
    · intro s h hk hn
      exact aClass_yields ih h (Nat.le_of_lt_succ hn) hk

end Rules

end ScriptAnalysis
