import ScriptAnalysis.Proofs.Grammar.ExpressionRuns
import ScriptAnalysis.Proofs.Grammar.Statements

/-!
# Functions and statements step by step

Each production is a run, as for expressions.  Statements allocate no classes.
-/

namespace ScriptAnalysis

open ParseState Production

variable {S : Token → Prop} {s₀ s s' s₁ s₂ s₃ : ParseState} {m : MarkerId}

namespace Rules

variable {r : Rules}

/-! ### Functions -/

/-- Without a brace the block is empty. -/
theorem block_runs (hr : r.Runs S) (hs : s.Sound S) :
    r.block.Ensures s fun _ s' => Run r.source (Placed r.source S) (.steps true) s s' := by
  unfold block
  simp only [ensures_bind, ensures_here]
  refine (openMarker_runs r.source (Placed r.source S)).mono fun m s₁ hs₁ => ?_
  obtain ⟨hin, hcur, -⟩ := hs₁
  have hfinish {s₂ : ParseState} (stmts : List NodeId)
      (hs₂ : Run r.source (Placed r.source S) (.inside m) s s₂) :
      (finish m s₁.draft.current.offset (.block stmts)).Ensures s₂
        fun _ s' => Run r.source (Placed r.source S) (.steps true) s s' :=
    (finish_runs true hs₂ (congrArg Token.offset hcur) (fun _ => by exact trivial) (.inl rfl)).mono
      fun _ _ h => .ended h.1
  refine (expect_runs (Placed r.source S) false (by decide) _ _).mono fun found s₂ hs₂ => ?_
  have hin₂ := hin.extend hs₂.1
  split
  · simp only [ensures_bind]
    refine (statementsUntil_runs hr (hin₂.sound hs) _).mono fun stmts s₃ hs₃ => ?_
    refine (expect_runs (Placed r.source S) false (by decide) _ _).mono fun _ s₄ hs₄ => ?_
    exact hfinish _ ((hin₂.extend hs₃).extend hs₄.1)
  · exact hfinish _ hin₂

theorem funDecl_runs (hr : r.Runs S) (hs : s.Sound S) (isMethod : Bool)
    (hstarts : startsType s.draft.current.kind = true) :
    (r.funDecl isMethod).Ensures s
      fun _ s' => Run r.source (Placed r.source S) (.steps false) s s' := by
  unfold funDecl
  simp only [ensures_bind, ensures_here]
  refine (openMarker_runs r.source (Placed r.source S)).mono fun m s₁ hs₁ => ?_
  obtain ⟨hin, hcur, -⟩ := hs₁
  have hsound := hin.sound hs
  refine (type_runs hsound).mono fun returnType s₂ hs₂ => ?_
  obtain ⟨htypeRun, htypeMoved, hnamed⟩ := hs₂
  refine (name_runs (htypeRun.sound hsound) _).mono fun found s₃ hs₃ => ?_
  obtain ⟨hnameRun, -, hfound⟩ := hs₃
  have hin₃ := (hin.extend htypeRun).extend hnameRun
  have hmoved : s.Moved s₃ := hin.moved hs
    (hnameRun.keeps_moved (htypeRun.sound hsound) (htypeMoved (hcur ▸ hstarts)))
  refine (params_runs hr (hin₃.sound hs)).mono fun declared s₄ hs₄ => ?_
  have hin₄ := hin₃.more hs₄ fun _ => hmoved
  have hmoved₄ := hs₄.keeps_moved (hin₃.sound hs) hmoved
  refine (block_runs hr (hin₄.sound hs)).mono fun body s₅ hs₅ => ?_
  have hin₅ := hin₄.more hs₅ fun _ => hmoved₄
  simp only [ensures_spanFrom, ensures_alloc, ensures_pure]
  have hdecl : Placed r.source S
      (.funDeclExpr ⟨found.1, found.2, returnType, declared, body, isMethod⟩)
      ⟨s₁.draft.current.offset, max s₅.lastEnd s₁.draft.current.offset⟩ := by
    refine ⟨fun hbuiltin => hsound.plainAt ?_, fun hname => ?_⟩
    · rw [hnamed hbuiltin]
      decide
    · exact (hfound hname).wider (htypeRun.forth hsound).here
        (Nat.le_trans (hs₄.forth (hin₃.sound hs)).lastEnd
          (Nat.le_trans (hs₅.forth (hin₄.sound hs)).lastEnd (Nat.le_max_left ..)))
  exact (close_runs false ((hin₅.extend (.alloc s₅ hdecl)).extend (.alloc _ (by exact trivial)))
    (hcur ▸ startsAt_allocated _ _ _) (.inr (hs₅.keeps_moved (hin₄.sound hs) hmoved₄))).mono
      fun _ s₆ hs₆ => .ended hs₆.1

/-! ### Statements -/

theorem bracedStatement_runs (hr : r.Runs S) (hs : s.Sound S)
    (hk : s.draft.current.kind = .leftBrace) :
    r.bracedStatement.Ensures s fun _ s' =>
      Run r.source (Placed r.source S) (.steps false) s s' := by
  unfold bracedStatement
  simp only [ensures_bind]
  refine (expression_runs hr hs).mono fun braces s₁ hbraces => ?_
  have hmoved : s.Moved s₁ := hbraces.moved (by rw [hk]; rfl)
  refine (openBefore_runs hbraces.run).mono fun m s₂ hs₂ => ?_
  obtain ⟨hin, -, hmoved₂, hast⟩ := hs₂
  have hmoved₂ := hmoved₂ hmoved
  obtain ⟨hbrace, hbody⟩ := hbraces.braces hk
  rw [← hast] at hbrace hbody
  simp only [ensures_get]
  split
  · next body isBlock hclosure =>
    simp only [ensures_bind, ensures_modify, ensures_pure]
    exact (close_runs false (hin.extend (.unbrace s₂ hclosure))
      ((hbody _ _ _ hclosure).later (extends_plainBlock hclosure)) (.inr hmoved₂)).mono
        fun _ s₃ hs₃ => .ended hs₃.1
  · simp only [ensures_bind, ensures_get, ensures_alloc, ensures_pure]
    exact (close_runs false (hin.extend (.alloc s₂ (by exact trivial)))
      (hbrace.2 ▸ startsAt_allocated _ _ _) (.inr hmoved₂)).mono fun _ s₃ hs₃ => .ended hs₃.1

theorem branch_runs (hr : r.Runs S) (hs : s.Sound S) :
    r.branch.Ensures s fun _ s' => Run r.source (Placed r.source S) (.steps false) s s' := by
  unfold branch
  simp only [ensures_bind]
  refine (hr.statement s hs).mono fun stmt s₁ hs₁ => ?_
  cases stmt with
  | some stmt => exact ensures_pure.mpr hs₁
  | none =>
    simp only [ensures_bind, ensures_get, ensures_allocFrom]
    exact hs₁.append (.alloc s₁ (by exact trivial))

theorem condition_runs (hr : r.Runs S) (hs : s.Sound S) :
    r.condition.Ensures s fun _ s' => Run r.source (Placed r.source S) (.steps false) s s' := by
  unfold condition
  simp only [ensures_bind, ensures_pure]
  refine (expect_runs (Placed r.source S) false (by decide) _ _).mono fun _ s₁ hs₁ => ?_
  refine (expression_runs hr (hs₁.1.sound hs)).mono fun cond s₂ hcond => ?_
  exact (expect_runs (Placed r.source S) false (by decide) _ _).mono fun _ s₃ hs₃ =>
    (hs₁.1.append (.ended hcond.run)).append hs₃.1

/-- A statement that starts with the next token ends with its marker. -/
theorem finish_stmt_runs {start : Nat} {data : NodeData} (hs : s₀.Sound S)
    (hin : Run r.source (Placed r.source S) (.inside m) s₀ s₁)
    (hstart : start = s₀.draft.current.offset)
    (hk : s₁.draft.current.kind ≠ .eof)
    (hrun : Run r.source (Placed r.source S) (.steps false) s₁.advanced s)
    (hdata : ∀ span, Placed r.source S data span) : (finish m start data).Ensures s
      fun _ s' => Run r.source (Placed r.source S) (.steps false) s₀ s' := by
  have hadv := hin.extend (.advance s₁)
  have hmoved := hrun.keeps_moved (hadv.sound hs) (moved_advanced_inside hs hin hk)
  exact (finish_runs false (hadv.extend hrun) hstart (fun _ => hdata _) (.inr hmoved)).mono
    fun _ _ hs' => .ended hs'.1

theorem ifStatement_runs (hr : r.Runs S) (hs : s.Sound S) (hk : s.draft.current.kind ≠ .eof) :
    r.ifStatement.Ensures s fun _ s' => Run r.source (Placed r.source S) (.steps false) s s' := by
  unfold ifStatement
  simp only [ensures_bind, ensures_here, ensures_advance]
  refine (openMarker_runs r.source (Placed r.source S)).mono fun m s₁ hs₁ => ?_
  obtain ⟨hin, hcur, -⟩ := hs₁
  have hk₁ : s₁.draft.current.kind ≠ .eof := hcur ▸ hk
  have hsound := (hin.extend (.advance s₁)).sound hs
  refine (condition_runs hr hsound).mono fun cond s₂ hs₂ => ?_
  refine (branch_runs hr (hs₂.sound hsound)).mono fun thenBranch s₃ hs₃ => ?_
  refine (accept_runs r.source (Placed r.source S) false (by decide)).mono fun found s₄ hs₄ => ?_
  have hrun := (hs₂.append hs₃).append hs₄.1
  split
  · simp only [ensures_map, ensures_bind]
    refine (branch_runs hr (hrun.sound hsound)).mono fun elseBranch s₅ hs₅ => ?_
    exact finish_stmt_runs hs hin (congrArg Token.offset hcur) hk₁ (hrun.append hs₅)
      fun _ => trivial
  · simp only [ensures_bind, ensures_pure]
    exact finish_stmt_runs hs hin (congrArg Token.offset hcur) hk₁ hrun fun _ => trivial

theorem whileStatement_runs (hr : r.Runs S) (hs : s.Sound S) (hk : s.draft.current.kind ≠ .eof) :
    r.whileStatement.Ensures s fun _ s' =>
      Run r.source (Placed r.source S) (.steps false) s s' := by
  unfold whileStatement
  simp only [ensures_bind, ensures_here, ensures_advance]
  refine (openMarker_runs r.source (Placed r.source S)).mono fun m s₁ hs₁ => ?_
  obtain ⟨hin, hcur, -⟩ := hs₁
  have hsound := (hin.extend (.advance s₁)).sound hs
  refine (condition_runs hr hsound).mono fun cond s₂ hs₂ => ?_
  refine (branch_runs hr (hs₂.sound hsound)).mono fun body s₃ hs₃ => ?_
  exact finish_stmt_runs hs hin (congrArg Token.offset hcur) (hcur ▸ hk) (hs₂.append hs₃)
    fun _ => trivial

theorem returnStatement_runs (hr : r.Runs S) (hs : s.Sound S)
    (hk : s.draft.current.kind ≠ .eof) :
    r.returnStatement.Ensures s fun _ s' =>
      Run r.source (Placed r.source S) (.steps false) s s' := by
  unfold returnStatement
  simp only [ensures_bind, ensures_here, ensures_advance, ensures_kind]
  refine (openMarker_runs r.source (Placed r.source S)).mono fun m s₁ hs₁ => ?_
  obtain ⟨hin, hcur, -⟩ := hs₁
  have hk₁ : s₁.draft.current.kind ≠ .eof := hcur ▸ hk
  split
  · simp only [ensures_map, ensures_bind]
    refine (expression_runs hr ((hin.extend (.advance s₁)).sound hs)).mono fun value s₂ hs₂ => ?_
    exact finish_stmt_runs hs hin (congrArg Token.offset hcur) hk₁ (.ended hs₂.run) fun _ => trivial
  · simp only [ensures_bind, ensures_pure]
    exact finish_stmt_runs hs hin (congrArg Token.offset hcur) hk₁ (.refl _) fun _ => trivial

theorem expressionStatement_runs (hr : r.Runs S) (hs : s.Sound S)
    (hk : startsExpression s.draft.current.kind = true) :
    r.expressionStatement.Ensures s
      fun _ s' => Run r.source (Placed r.source S) (.steps false) s s' := by
  unfold expressionStatement
  simp only [ensures_bind, ensures_here]
  refine (openMarker_runs r.source (Placed r.source S)).mono fun m s₁ hs₁ => ?_
  obtain ⟨hin, hcur, -⟩ := hs₁
  refine (expression_runs hr (hin.sound hs)).mono fun expr s₂ hexpr => ?_
  have hmoved := hin.moved hs (hexpr.moved (hcur ▸ not_isCloser_of_startsExpression hk))
  exact (finish_runs false (hin.extend (.ended hexpr.run)) (congrArg Token.offset hcur)
    (fun _ => by exact trivial) (.inr hmoved)).mono fun _ _ hs' => .ended hs'.1

theorem emptyStatement_runs (hs : s.Sound S) (hk : s.draft.current.kind ≠ .eof) :
    emptyStatement.Ensures s fun _ s' => Run r.source (Placed r.source S) (.steps false) s s' := by
  unfold emptyStatement
  simp only [ensures_bind, ensures_here, ensures_advance, ensures_pure]
  refine (openMarker_runs r.source (Placed r.source S)).mono fun m s₁ hs₁ => ?_
  obtain ⟨hin, hcur, -⟩ := hs₁
  exact finish_stmt_runs hs hin (congrArg Token.offset hcur) (hcur ▸ hk) (.refl _) fun _ => trivial

theorem strayToken_runs : r.strayToken.Ensures s
    fun _ s' => Run r.source (Placed r.source S) (.steps false) s s' := by
  unfold strayToken
  simp only [ensures_bind, ensures_kind]
  have hreport : (do let m ← openMarker; reportHere r.source m "expression").Ensures s
      fun _ s' => Run r.source (Placed r.source S) (.steps false) s s' := by
    rw [ensures_bind]
    exact (openMarker_runs r.source (Placed r.source S)).mono fun m s₁ hs₁ =>
      (reportHere_runs false hs₁.1 hs₁.2.1 _).mono fun _ _ hs₂ => .ended hs₂
  split
  · exact hreport
  · exact hreport
  · exact skipUnexpected_runs (Placed r.source S) false _ _

@[simp] theorem ensures_declarationShape {Q : Option DeclarationShape → ParseState → Prop} :
    declarationShape.Ensures s Q ↔ Q (declarationShape? s.draft.ahead) s := by
  simp [declarationShape]

theorem plainStatement_runs (hr : r.Runs S) (hs : s.Sound S) :
    r.plainStatement.Ensures s fun _ s' =>
      Run r.source (Placed r.source S) (.steps false) s s' := by
  unfold plainStatement
  simp only [ensures_bind, ensures_declarationShape]
  split
  · next hshape =>
    rw [ensures_map]
    exact funDecl_runs hr hs _ (startsType_of_declarationShape? hshape)
  · next hshape =>
    rw [ensures_map]
    exact varDecl_runs hr hs _ _ false
      (.inr ⟨startsType_of_declarationShape? hshape, by simp⟩)
  · simp only [ensures_bind, ensures_kind]
    split
    · next hk =>
      rw [ensures_map]
      exact expressionStatement_runs hr hs hk
    · simp only [ensures_bind, ensures_pure]
      exact strayToken_runs

theorem aStatement_runs (hr : r.Runs S) (hs : s.Sound S) :
    r.aStatement.Ensures s fun _ s' => Run r.source (Placed r.source S) (.steps false) s s' := by
  have hsemicolon {stmt : Option NodeId} {s₁ : ParseState}
      (hstmt : Run r.source (Placed r.source S) (.steps false) s s₁) :
      (do
        if stmt.isSome then
          let _ ← accept .semicolon
        return stmt : Production (Option NodeId)).Ensures s₁
        fun _ s' => Run r.source (Placed r.source S) (.steps false) s s' := by
    split
    · simp only [ensures_bind, ensures_pure]
      exact (accept_runs r.source (Placed r.source S) false (by decide)).mono
        fun _ s₂ hs₂ => hstmt.append hs₂.1
    · exact ensures_pure.mpr hstmt
  unfold aStatement
  simp only [ensures_bind, ensures_kind]
  split
  · next hk =>
    simp only [ensures_bind, ensures_pure]
    exact (emptyStatement_runs hs (by rw [hk]; decide)).mono fun _ s₁ hs₁ => hsemicolon hs₁
  · next hk =>
    simp only [ensures_bind, ensures_map]
    exact (bracedStatement_runs hr hs hk).mono fun _ s₁ hs₁ => hsemicolon hs₁
  · next hk =>
    simp only [ensures_bind, ensures_map]
    exact (ifStatement_runs hr hs (by rw [hk]; decide)).mono fun _ s₁ hs₁ => hsemicolon hs₁
  · next hk =>
    simp only [ensures_bind, ensures_map]
    exact (whileStatement_runs hr hs (by rw [hk]; decide)).mono fun _ s₁ hs₁ => hsemicolon hs₁
  · next hk =>
    simp only [ensures_bind, ensures_map]
    exact (returnStatement_runs hr hs (by rw [hk]; decide)).mono fun _ s₁ hs₁ => hsemicolon hs₁
  · simp only [ensures_bind]
    exact (plainStatement_runs hr hs).mono fun _ s₁ hs₁ => hsemicolon hs₁

end Rules

end ScriptAnalysis
