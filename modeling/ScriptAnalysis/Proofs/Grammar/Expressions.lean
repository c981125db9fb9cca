import ScriptAnalysis.Proofs.Grammar.Declarations

/-!
# Expressions always succeed

Every production of expressions leaves one marker around what it read, so that an operator or a call
may still be put around it.  Unless a closing token stands in place of the expression, it consumes
a token; a loop over operators or calls keeps both facts, whatever it starts with.
-/

namespace ScriptAnalysis

open Production

/-- The draft was extended by one marker that holds a token at least. -/
def Draft.ReadsMarker (d : Draft) (e : Parsed) (s' : ParseState) : Prop :=
  d.Wraps e.marker s'.draft ∧ d.Consumes s'.draft

/-- A marker around a token is read. -/
theorem Draft.Ends.readsMarker {m : MarkerId} {d d₁ d₂ : Draft} {s' : ParseState}
    (h : d.Ends m d₂ s'.draft) (hw : d.Within m d₁) (hc : d₁.Consumes d₂) (node : NodeId) :
    d.ReadsMarker ⟨m, node⟩ s' :=
  ⟨h.wraps, h.consumes hw hc⟩

theorem ReadsExpression.of_readsMarker {s s' : ParseState} {e : Parsed}
    (h : s.draft.ReadsMarker e s') : ReadsExpression s e s' := ⟨h.1, fun _ => h.2⟩

/-- The end of the text is no operator. -/
theorem binaryLevels_lookup_eof : ∀ operators ∈ binaryLevels, operators.lookup .eof = none := by
  decide

namespace Rules

variable {r : Rules} {n : Nat} {s : ParseState} {d : Draft} {m : MarkerId}

/-! ### Lists in brackets -/

theorem args_yields (hr : r.SafeBelow n) (h : s.draft.Ready) (hn : s.draft.ahead.length ≤ n)
    (hk : s.draft.current.kind ≠ .eof) {closing : TokenKind} (hc : closing ≠ .eof)
    (what : String) :
    (r.args closing what).Yields s fun _ s' => s.draft.Consumes s'.draft := by
  unfold args
  rw [yields_bind]
  apply (advance_yields h hk).mono
  intro _ s₁ h₁
  have ended : ∀ (read : List NodeId) s', s₁.draft.Grows s'.draft →
      (do let _ ← expect r.source closing what; pure read : Production (List NodeId)).Yields s'
        fun _ s'' => s.draft.Consumes s''.draft := by
    intro read s' hg
    rw [yields_bind]
    apply (expect_yields hg.ready hc _ _).mono
    intro _ s'' h''
    exact yields_pure.mpr (h₁.trans_grows (hg.trans h''.1))
  simp only [yields_bind, yields_at?]
  split
  · rw [yields_bind]
    refine (separated_yields h₁.grows.ready ?_).mono fun read s₂ h₂ => ended read s₂ h₂
    intro s' hg
    rw [yields_map]
    refine (hr.expr s' hg.ready ?_).mono fun _ _ h₃ => h₃.1.grows
    exact Nat.lt_of_lt_of_le (h₁.trans_grows hg).length_lt hn
  · exact ended [] s₁ (Draft.Grows.refl h₁.grows.ready)

theorem statementsUntil_yields (hr : r.SafeBelow n) (h : s.draft.Ready)
    (hn : s.draft.ahead.length < n) (stop : TokenKind) :
    (r.statementsUntil stop).Yields s fun _ s' => s.draft.Grows s'.draft := by
  unfold statementsUntil
  refine repeatFrom_yields (fun _ s' => s.draft.Grows s'.draft) (Draft.Grows.refl h) ?_
  intro read s' hg
  simp only [yields_bind, yields_at?, yields_atEnd]
  split
  · exact yields_pure.mpr hg
  · next hend =>
    have hk : s'.draft.current.kind ≠ .eof := by
      intro he
      simp [Draft.atEnd, Draft.at?, he] at hend
    simp only [yields_bind, yields_current]
    apply (hr.statement s' hg.ready (Nat.lt_of_le_of_lt hg.length_le hn)).mono
    intro stmt s₁ h₁
    apply (skipIfStuck_yields hg.ready h₁ hk).mono
    intro _ s₂ h₂
    exact yields_pure.mpr ⟨hg.trans h₂.1, h₂.2⟩

/-! ### Closures -/

/-- Whether the attempt to read parameters is kept or taken back, the recording has grown. -/
theorem closureParams_yields (hr : r.SafeBelow n) (h : s.draft.Ready)
    (hn : s.draft.ahead.length ≤ n) (hs : s.draft.Started) :
    r.closureParams.Yields s fun _ s' => s.draft.Grows s'.draft := by
  unfold closureParams
  simp only [yields_bind, yields_kind]
  split
  · exact yields_pure.mpr (Draft.Grows.refl h)
  · rw [yields_bind]
    apply (openMarker_yields h).mono
    intro m s₁ h₁
    simp only [yields_bind, yields_get]
    have hn₁ := Nat.le_trans h₁.1.length_le hn
    have hs₁ := h₁.1.started hs
    apply (separated_param_yields hr h₁.1.ready hn₁ hs₁).mono
    intro declared s₂ h₂
    apply (accept_yields h₂.ready (by decide)).mono
    intro found s₃ h₃
    have hg := h₂.trans h₃.1
    have hw := h₁.1.trans hg
    split
    · rw [yields_bind]
      apply (closeGroup_yields hw (hg.started hs₁)).mono
      intro _ s₄ h₄
      exact yields_pure.mpr h₄.wraps.grows
    · rw [yields_bind]
      apply (undo_yields h hw _).mono
      intro _ s₄ h₄
      exact yields_pure.mpr h₄

theorem closure_yields (hr : r.SafeBelow n) (hw : d.Within m s.draft)
    (hn : s.draft.ahead.length ≤ n) (hk : s.draft.current.kind ≠ .eof) :
    (r.closure m).Yields s d.ReadsMarker := by
  unfold closure
  simp only [yields_bind, yields_here]
  apply (advance_yields hw.ready hk).mono
  intro _ s₁ h₁
  have hn₁ := Nat.lt_of_lt_of_le h₁.length_lt hn
  apply (closureParams_yields hr h₁.grows.ready (Nat.le_of_lt hn₁) h₁.started).mono
  intro declared s₂ h₂
  apply (statementsUntil_yields hr h₂.ready (Nat.lt_of_le_of_lt h₂.length_le hn₁) _).mono
  intro stmts s₃ h₃
  apply (expect_yields h₃.ready (by decide) _ _).mono
  intro _ s₄ h₄
  have hc := h₁.trans_grows (h₂.trans (h₃.trans h₄.1))
  simp only [yields_spanFrom]
  apply (alloc_yields _ _).mono
  intro body s₅ h₅
  apply (alloc_yields _ _).mono
  intro node s₆ h₆
  rw [← h₅.1, ← h₆.1] at hc
  apply (close_yields (hw.trans hc.grows) hc.started node).mono
  intro _ s₇ h₇
  exact yields_pure.mpr (h₇.readsMarker hw hc _)

/-! ### Primary expressions -/

theorem invokeNew_yields (hr : r.SafeBelow n) (h : s.draft.Ready) (hn : s.draft.ahead.length ≤ n)
    (hk : s.draft.current.kind ≠ .eof) :
    r.invokeNew.Yields s fun _ s' => s.draft.Consumes s'.draft := by
  unfold invokeNew
  simp only [yields_bind]
  apply (advance_yields h hk).mono
  intro _ s₁ h₁
  apply (type_yields h₁.grows.ready).mono
  intro className s₂ h₂
  have hc := h₁.trans_grows h₂.1
  rw [yields_at?]
  split
  · next hat =>
    have hparen : s₂.draft.current.kind = .leftParen := by simpa [Draft.at?] using hat
    rw [yields_bind]
    apply (args_yields hr h₂.1.ready (Nat.le_trans hc.grows.length_le hn) (by simp [hparen])
      (by decide) _).mono
    intro read s₃ h₃
    exact yields_pure.mpr (hc.trans_grows h₃.grows)
  · rw [yields_bind]
    apply (expect_yields h₂.1.ready (by decide) _ _).mono
    intro _ s₃ h₃
    exact yields_pure.mpr (hc.trans_grows h₃.1)

/-- A closing token is left ahead, any other one is skipped. -/
theorem missingExpression_yields (hw : d.Within m s.draft) :
    (r.missingExpression m s.draft.current).Yields s fun e s' => d.Wraps e.marker s'.draft ∧
      (isCloser s.draft.current.kind = false → d.Consumes s'.draft) := by
  unfold missingExpression
  dsimp only
  split
  · next hcloser =>
    have hk : s.draft.current.kind ≠ .eof := by
      intro he
      simp [he, isCloser] at hcloser
    rw [yields_bind]
    apply (advance_yields hw.ready hk).mono
    intro _ s₁ h₁
    rw [yields_bind]
    apply (report_yields (hw.trans h₁.grows) _ _).mono
    intro _ s₂ h₂
    rw [yields_bind]
    apply (alloc_yields _ _).mono
    intro node s₃ h₃
    rw [yields_pure, h₃.1]
    exact ⟨h₂.wraps, fun _ => h₂.consumes hw h₁⟩
  · next hcloser =>
    simp only [yields_bind]
    apply (report_yields hw _ _).mono
    intro _ s₁ h₁
    apply (alloc_yields _ _).mono
    intro node s₂ h₂
    rw [yields_pure, h₂.1]
    refine ⟨h₁.wraps, fun hno => ?_⟩
    simp [hno] at hcloser

theorem intLiteral_yields (hw : d.Within m s.draft) (hk : s.draft.current.kind ≠ .eof)
    (t : Token) : (r.intLiteral m t).Yields s d.ReadsMarker := by
  unfold intLiteral
  rw [yields_bind]
  apply (advance_yields hw.ready hk).mono
  intro _ s₁ h₁
  have hw₁ := hw.trans h₁.grows
  split
  · rw [yields_bind]
    apply (finish_yields hw₁ h₁.started _ _).mono
    intro node s₂ h₂
    exact yields_pure.mpr (h₂.readsMarker hw h₁ _)
  · simp only [yields_bind]
    apply (report_yields hw₁ _ _).mono
    intro _ s₂ h₂
    apply (alloc_yields _ _).mono
    intro node s₃ h₃
    rw [yields_pure, Draft.ReadsMarker, h₃.1]
    exact ⟨h₂.wraps, h₂.consumes hw h₁⟩

theorem simple_yields (hw : d.Within m s.draft) (hk : s.draft.current.kind ≠ .eof)
    (t : Token) (data : NodeData) : (simple m t data).Yields s d.ReadsMarker := by
  unfold simple
  simp only [yields_bind]
  apply (advance_yields hw.ready hk).mono
  intro _ s₁ h₁
  apply (finish_yields (hw.trans h₁.grows) h₁.started _ _).mono
  intro node s₂ h₂
  exact yields_pure.mpr (h₂.readsMarker hw h₁ _)

theorem primary_yields (hr : r.SafeBelow n) (h : s.draft.Ready) (hn : s.draft.ahead.length ≤ n) :
    r.primary.Yields s (ReadsExpression s) := by
  unfold primary
  simp only [yields_bind, yields_current]
  apply (openMarker_yields h).mono
  intro m s₁ h₁
  obtain ⟨hw, -, hcur⟩ := h₁
  have hn₁ := Nat.le_trans hw.length_le hn
  -- the token is still ahead after its marker is opened
  have hk : ∀ k, s.draft.current.kind = k → k ≠ .eof → s₁.draft.current.kind ≠ .eof := by
    intro k hk hne
    rw [hcur, hk]
    exact hne
  have reads : ∀ {p : Production Parsed}, p.Yields s₁ s.draft.ReadsMarker →
      p.Yields s₁ (ReadsExpression s) := fun hp =>
    hp.mono fun _ _ => ReadsExpression.of_readsMarker
  split
  · next hkind => exact reads (intLiteral_yields hw (hk _ hkind (by decide)) _)
  · next hkind => exact reads (simple_yields hw (hk _ hkind (by decide)) _ _)
  · next hkind => exact reads (simple_yields hw (hk _ hkind (by decide)) _ _)
  · next hkind => exact reads (simple_yields hw (hk _ hkind (by decide)) _ _)
  · next hkind => exact reads (simple_yields hw (hk _ hkind (by decide)) _ _)
  · next hkind => exact reads (simple_yields hw (hk _ hkind (by decide)) _ _)
  · next hkind => exact reads (simple_yields hw (hk _ hkind (by decide)) _ _)
  · next hkind =>
    refine reads ?_
    simp only [yields_bind]
    apply (advance_yields hw.ready (hk _ hkind (by decide))).mono
    intro _ s₂ h₂
    apply (hr.expr s₂ h₂.grows.ready (Nat.lt_of_lt_of_le h₂.length_lt hn₁)).mono
    intro inner s₃ h₃
    apply (expect_yields h₃.1.ready (by decide) _ _).mono
    intro _ s₄ h₄
    have hc := h₂.trans_grows (h₃.1.grows.trans h₄.1)
    apply (dissolve_yields (hw.trans hc.grows)).mono
    intro _ s₅ h₅
    exact yields_pure.mpr (h₅.readsMarker hw hc _)
  · next hkind =>
    refine reads ?_
    simp only [yields_bind]
    apply (args_yields hr hw.ready hn₁ (hk _ hkind (by decide)) (by decide) _).mono
    intro items s₂ h₂
    apply (finish_yields (hw.trans h₂.grows) h₂.started _ _).mono
    intro node s₃ h₃
    exact yields_pure.mpr (h₃.readsMarker hw h₂ _)
  · next hkind => exact reads (closure_yields hr hw hn₁ (hk _ hkind (by decide)))
  · next hkind =>
    refine reads ?_
    simp only [yields_bind]
    apply (invokeNew_yields hr hw.ready hn₁ (hk _ hkind (by decide))).mono
    intro data s₂ h₂
    apply (finish_yields (hw.trans h₂.grows) h₂.started _ _).mono
    intro node s₃ h₃
    exact yields_pure.mpr (h₃.readsMarker hw h₂ _)
  · rw [← hcur]
    refine (missingExpression_yields hw).mono fun e s₂ h₂ => ⟨h₂.1, ?_⟩
    rw [← hcur]
    exact h₂.2

/-! ### Calls, accesses and operators -/

theorem member_yields (hr : r.SafeBelow n) (h : s.draft.Ready) (hn : s.draft.ahead.length ≤ n)
    (hk : s.draft.current.kind ≠ .eof) (target : NodeId) :
    (r.member target).Yields s fun _ s' => s.draft.Consumes s'.draft := by
  unfold member
  simp only [ite_bind, yields_bind, yields_current]
  apply (advance_yields h hk).mono
  intro _ s₁ h₁
  apply (expect_yields h₁.grows.ready (by decide) _ _).mono
  intro found s₂ h₂
  have hc := h₁.trans_grows h₂.1
  have hname : ∀ {Q : String → ParseState → Prop}, (∀ name, Q name s₂) →
      (if found = true then pure (r.text s₁.draft.current) else pure "" :
        Production String).Yields s₂ Q := by
    intro Q hQ
    split
    · exact yields_pure.mpr (hQ _)
    · exact yields_pure.mpr (hQ _)
  apply hname
  intro name
  rw [yields_at?]
  split
  · next hat =>
    have hparen : s₂.draft.current.kind = .leftParen := by simpa [Draft.at?] using hat
    rw [yields_bind]
    apply (args_yields hr h₂.1.ready (Nat.le_trans hc.grows.length_le hn) (by simp [hparen])
      (by decide) _).mono
    intro read s₃ h₃
    exact yields_pure.mpr (hc.trans_grows h₃.grows)
  · exact yields_pure.mpr hc

/-- An operator or a call that was put around an expression makes an expression of both, and the
    loop over operators or calls goes on with it. -/
theorem extended_yields {s' s₁ s₂ : ParseState} (hw : s.draft.Within m s₁.draft)
    (ha : s₁.draft.ahead = s'.draft.ahead) (hc : s₁.draft.Consumes s₂.draft) (start : Nat)
    (data : NodeData) :
    (do let node ← finish m start data; pure (.inl ⟨m, node⟩) :
      Production (Parsed ⊕ Parsed)).Yields s₂
        (Continues (ReadsExpression s) (ReadsExpression s) s') := by
  rw [yields_bind]
  apply (finish_yields (hw.trans hc.grows) hc.started _ _).mono
  intro node s₃ h₃
  refine yields_pure.mpr ⟨ReadsExpression.of_readsMarker (h₃.readsMarker hw hc _), ?_⟩
  rw [h₃.ahead, ← ha]
  exact hc.length_lt

theorem suffixed_yields (hr : r.SafeBelow n) (h : s.draft.Ready) (hn : s.draft.ahead.length ≤ n) :
    r.suffixed.Yields s (ReadsExpression s) := by
  unfold suffixed
  simp only [yields_bind, yields_here]
  apply (primary_yields hr h hn).mono
  intro e s₁ h₁
  refine repeatFrom_yields (ReadsExpression s) h₁ ?_
  intro target s' ht
  rw [yields_bind, yields_kind]
  split
  · next hkind =>
    rw [yields_bind]
    refine (openBefore_yields h ht.1).mono ?_
    rintro m s₂ ⟨hw, ha, hcur⟩
    rw [yields_bind]
    apply (args_yields hr hw.ready (Nat.le_trans hw.length_le hn) (by simp [hcur, hkind])
      (by decide) _).mono
    intro read s₃ h₃
    exact extended_yields hw ha h₃ _ _
  · next hkind =>
    rw [yields_bind]
    refine (openBefore_yields h ht.1).mono ?_
    rintro m s₂ ⟨hw, ha, hcur⟩
    rw [yields_bind]
    apply (member_yields hr hw.ready (Nat.le_trans hw.length_le hn) (by simp [hcur, hkind])
      _).mono
    intro data s₃ h₃
    exact extended_yields hw ha h₃ _ _
  · exact yields_pure.mpr ht

theorem operand_yields (hr : r.SafeBelow n) (h : s.draft.Ready) (hn : s.draft.ahead.length ≤ n) :
    r.operand.Yields s (ReadsExpression s) := by
  unfold operand
  rw [yields_bind, yields_kind]
  split
  · exact suffixed_yields hr h hn
  · next op hop =>
    have hk : s.draft.current.kind ≠ .eof := by
      intro he
      simp [he, unaryOp?] at hop
    rw [yields_bind]
    refine (openMarker_yields h).mono ?_
    rintro m s₁ ⟨hw, -, hcur⟩
    simp only [yields_bind, yields_here]
    apply (advance_yields hw.ready (hcur ▸ hk)).mono
    intro _ s₂ h₂
    have hn₂ := Nat.lt_of_lt_of_le h₂.length_lt (Nat.le_trans hw.length_le hn)
    apply (hr.unary s₂ h₂.grows.ready hn₂).mono
    intro inner s₃ h₃
    have hc := h₂.trans_grows h₃.1.grows
    apply (finish_yields (hw.trans hc.grows) hc.started _ _).mono
    intro node s₄ h₄
    exact yields_pure.mpr (ReadsExpression.of_readsMarker (h₄.readsMarker hw hc _))

/-- By induction on the levels: the operands of a level are expressions of the tighter ones. -/
theorem binary_yields (hr : r.SafeBelow n) {levels : List (List (TokenKind × BinaryOp))}
    (heof : ∀ operators ∈ levels, operators.lookup .eof = none) (h : s.draft.Ready)
    (hn : s.draft.ahead.length ≤ n) : (r.binary levels).Yields s (ReadsExpression s) := by
  induction levels generalizing s with
  | nil => exact operand_yields hr h hn
  | cons operators tighter ih =>
    have ih := fun {s} => @ih s fun ops hops => heof ops (List.mem_cons_of_mem _ hops)
    unfold binary
    simp only [yields_bind, yields_here]
    apply (ih h hn).mono
    intro e s₁ h₁
    refine repeatFrom_yields (ReadsExpression s) h₁ ?_
    intro left s' hl
    rw [yields_bind, yields_kind]
    split
    · exact yields_pure.mpr hl
    · next op hop =>
      have hk : s'.draft.current.kind ≠ .eof := by
        intro he
        rw [he, heof operators (by simp)] at hop
        cases hop
      rw [yields_bind]
      refine (openBefore_yields h hl.1).mono ?_
      rintro m s₂ ⟨hw, ha, hcur⟩
      rw [yields_bind]
      apply (advance_yields hw.ready (hcur ▸ hk)).mono
      intro _ s₃ h₃
      have hn₃ := Nat.lt_of_lt_of_le h₃.length_lt (Nat.le_trans hw.length_le hn)
      rw [yields_bind]
      apply (ih h₃.grows.ready (Nat.le_of_lt hn₃)).mono
      intro right s₄ h₄
      exact extended_yields hw ha (h₃.trans_grows h₄.1.grows) _ _

theorem expression_yields (hr : r.SafeBelow n) (h : s.draft.Ready)
    (hn : s.draft.ahead.length ≤ n) : r.expression.Yields s (ReadsExpression s) := by
  unfold expression
  simp only [yields_bind, yields_at?, yields_kindAfter]
  split
  · next hassign =>
    obtain ⟨hat, hafter⟩ : s.draft.current.kind = .ident ∧
        (s.draft.lookahead 1).kind = .equal := by
      simpa [Draft.at?] using hassign
    rw [yields_bind]
    refine (openMarker_yields h).mono ?_
    rintro m s₁ ⟨hw, ha, hcur⟩
    simp only [yields_bind, yields_current]
    apply (advance_yields_lookahead hw.ready (by simp [hcur, hat])).mono
    intro _ s₂ h₂
    have hequal : s₂.draft.current.kind = .equal := by
      rw [h₂.2, Draft.lookahead_kind_congr ha, hafter]
    apply (advance_yields h₂.1.grows.ready (by simp [hequal])).mono
    intro _ s₃ h₃
    have h₂₃ := h₂.1.trans_grows h₃.grows
    have hn₃ := Nat.lt_of_lt_of_le h₂₃.length_lt (Nat.le_trans hw.length_le hn)
    apply (hr.expr s₃ h₃.grows.ready hn₃).mono
    intro value s₄ h₄
    have hc := h₂₃.trans_grows h₄.1.grows
    apply (finish_yields (hw.trans hc.grows) hc.started _ _).mono
    intro node s₅ h₅
    exact yields_pure.mpr (ReadsExpression.of_readsMarker (h₅.readsMarker hw hc _))
  · exact binary_yields hr binaryLevels_lookup_eof h hn

end Rules

end ScriptAnalysis
