import ScriptAnalysis.Proofs.Grammar.ExpressionWords
import ScriptAnalysis.Proofs.Grammar.ScriptNodes

/-!
# Scripts take words of the grammar

Statements, classes and whole scripts.  The loops over statements, members and parts pass over a
token that nothing consumed; by then it has been reported, since no word of what they look for is
empty.
-/

namespace ScriptAnalysis

open ParseState Production Computability

namespace Rules

variable {r : Rules} {s₀ s : ParseState} {L : Language TokenKind}

/-! ### Functions -/

theorem block_takes (hr : r.Words) (h : Takes s₀ s L) :
    r.block.Ensures s fun _ s' => Takes s₀ s' (L * (Form.token .leftBrace).language *
      (Form.many (.ref .stmt)).language * (Form.token .rightBrace).language) := by
  unfold block
  simp only [ensures_bind, ensures_here]
  refine (openMarker_takes h).mono fun m s₁ h₁ => ?_
  refine (expect_takes h₁.1 (by decide) _ _).mono fun found s₂ h₂ => ?_
  rcases h₂ with ⟨rfl, h₂⟩ | ⟨rfl, h₂⟩
  · simp only [if_true, ensures_bind]
    refine (statementsUntil_takes hr h₂ _).mono fun stmts s₃ h₃ => ?_
    exact (expect_token h₃ (by decide) _ _).mono fun _ s₄ h₄ => finish_takes h₄
  · simp only [Bool.false_eq_true, if_false]
    exact (finish_takes h₂).mono fun _ s₃ h₃ => h₃.any

theorem funDecl_takes (hr : r.Words) (h : Takes s₀ s L) (isMethod : Bool) :
    (r.funDecl isMethod).Ensures s fun _ s' => Takes s₀ s' (L * (Form.ref .funDecl).language) := by
  unfold funDecl
  simp only [ensures_bind, ensures_here]
  refine (openMarker_takes h).mono fun m s₁ h₁ => ?_
  refine (type_takes h₁.1).mono fun returnType s₂ h₂ => ?_
  refine (name_takes h₂ _).mono fun found s₃ h₃ => ?_
  refine (params_takes hr h₃).mono fun declared s₄ h₄ => ?_
  refine (block_takes hr h₄).mono fun body s₅ h₅ => ?_
  simp only [ensures_spanFrom, ensures_alloc, ensures_pure]
  refine close_takes (alloc_takes (alloc_takes (h₅.mono (le_of_eq ?_))))
  rw [Form.language_ref .funDecl]
  simp only [Symbol.form, Form.language_sequence_cons, Form.language_sequence_singleton, mul_assoc]

/-! ### Statements -/

theorem withAst_takes {ast : Ast} (h : Takes s₀ s L) : Takes s₀ { s with ast } L where
  told := ⟨⟨h.told.tiles, h.told.solid, h.told.known⟩, h.told.started, h.told.told⟩
  reported := h.reported
  diagnosed := h.diagnosed
  taken := h.taken

theorem bracedStatement_takes (hr : r.Words) (hrecords : r.Records) (h : Takes s₀ s L) :
    r.bracedStatement.Ensures s fun _ s' => Takes s₀ s' (L * (Form.ref .expr).language) := by
  unfold bracedStatement
  simp only [ensures_bind]
  refine (expression_takes hr hrecords h).mono fun braces s₁ h₁ => ?_
  refine (openBefore_takes h₁).mono fun m s₂ h₂ => ?_
  simp only [ensures_get]
  split
  · simp only [ensures_bind, ensures_modify, ensures_pure]
    exact close_takes (withAst_takes h₂.1)
  · simp only [ensures_bind, ensures_get, ensures_alloc, ensures_pure]
    exact close_takes (alloc_takes h₂.1)

theorem branch_takes (hr : r.Words) (h : Takes s₀ s L) :
    r.branch.Ensures s fun _ s' => Takes s₀ s' (L * (Form.ref .stmt).language) := by
  unfold branch
  simp only [ensures_bind]
  refine (hr.statement s h.told).mono fun stmt s₁ h₁ => ?_
  have h₁ := h.trans h₁
  cases stmt with
  | some stmt => exact ensures_pure.mpr h₁
  | none =>
    simp only [ensures_bind, ensures_get, ensures_allocFrom]
    exact alloc_takes h₁

theorem condition_takes (hr : r.Words) (hrecords : r.Records) (h : Takes s₀ s L) :
    r.condition.Ensures s fun _ s' => Takes s₀ s' (L * (Form.token .leftParen).language *
      (Form.ref .expr).language * (Form.token .rightParen).language) := by
  unfold condition
  simp only [ensures_bind, ensures_pure]
  refine (expect_token h (by decide) _ _).mono fun _ s₁ h₁ => ?_
  refine (expression_takes hr hrecords h₁).mono fun cond s₂ h₂ => ?_
  exact expect_token h₂ (by decide) _ _

theorem ifStatement_takes (hr : r.Words) (hrecords : r.Records) (h : Takes s₀ s L)
    (hk : s.draft.current.kind = .ifKw) :
    r.ifStatement.Ensures s fun _ s' => Takes s₀ s' (L * Form.ifStmt.language) := by
  simp only [Form.ifStmt, Form.language_sequence_cons, Form.language_sequence_singleton,
    ← mul_assoc]
  unfold ifStatement
  simp only [ensures_bind, ensures_here]
  refine (openMarker_takes h).mono fun m s₁ h₁ => ?_
  refine (advance_token h₁.1 (h₁.2 ▸ hk) (by decide)).mono fun _ s₂ h₂ => ?_
  refine (condition_takes hr hrecords h₂).mono fun cond s₃ h₃ => ?_
  refine (branch_takes hr h₃).mono fun thenBranch s₄ h₄ => ?_
  refine (accept_takes h₄ (by decide)).mono fun found s₅ h₅ => ?_
  rcases h₅ with ⟨rfl, h₅⟩ | ⟨rfl, rfl⟩
  · simp only [if_true, ensures_bind, ensures_map]
    refine (branch_takes hr h₅).mono fun elseBranch s₆ h₆ => ?_
    refine finish_takes (Takes.optional_some ?_)
    simpa only [Form.language_sequence_cons, Form.language_sequence_singleton, mul_assoc] using h₆
  · simp only [Bool.false_eq_true, if_false, ensures_bind, ensures_pure]
    exact finish_takes (h₄.optional_none _)

theorem whileStatement_takes (hr : r.Words) (hrecords : r.Records) (h : Takes s₀ s L)
    (hk : s.draft.current.kind = .whileKw) :
    r.whileStatement.Ensures s fun _ s' => Takes s₀ s' (L * Form.whileStmt.language) := by
  simp only [Form.whileStmt, Form.language_sequence_cons, Form.language_sequence_singleton,
    ← mul_assoc]
  unfold whileStatement
  simp only [ensures_bind, ensures_here]
  refine (openMarker_takes h).mono fun m s₁ h₁ => ?_
  refine (advance_token h₁.1 (h₁.2 ▸ hk) (by decide)).mono fun _ s₂ h₂ => ?_
  refine (condition_takes hr hrecords h₂).mono fun cond s₃ h₃ => ?_
  exact (branch_takes hr h₃).mono fun body s₄ h₄ => finish_takes h₄

theorem returnStatement_takes (hr : r.Words) (hrecords : r.Records) (h : Takes s₀ s L)
    (hk : s.draft.current.kind = .returnKw) :
    r.returnStatement.Ensures s fun _ s' => Takes s₀ s' (L * Form.returnStmt.language) := by
  simp only [Form.returnStmt, Form.language_sequence_cons, Form.language_sequence_singleton,
    ← mul_assoc]
  unfold returnStatement
  simp only [ensures_bind, ensures_here]
  refine (openMarker_takes h).mono fun m s₁ h₁ => ?_
  refine (advance_token h₁.1 (h₁.2 ▸ hk) (by decide)).mono fun _ s₂ h₂ => ?_
  rw [ensures_kind]
  split
  · simp only [ensures_bind, ensures_map]
    refine (expression_takes hr hrecords h₂).mono fun value s₃ h₃ => ?_
    exact finish_takes h₃.optional_some
  · simp only [ensures_bind, ensures_pure]
    exact finish_takes (h₂.optional_none _)

theorem expressionStatement_takes (hr : r.Words) (hrecords : r.Records) (h : Takes s₀ s L) :
    r.expressionStatement.Ensures s fun _ s' => Takes s₀ s' (L * (Form.ref .expr).language) := by
  unfold expressionStatement
  simp only [ensures_bind, ensures_here]
  refine (openMarker_takes h).mono fun m s₁ h₁ => ?_
  exact (expression_takes hr hrecords h₁.1).mono fun expr s₂ h₂ => finish_takes h₂

theorem emptyStatement_takes (h : Takes s₀ s L) (hk : s.draft.current.kind = .semicolon) :
    emptyStatement.Ensures s fun _ s' => Takes s₀ s' (L * (Form.ref .stmt).language) := by
  unfold emptyStatement
  simp only [ensures_bind, ensures_here, ensures_pure]
  refine (openMarker_takes h).mono fun m s₁ h₁ => ?_
  refine (advance_token h₁.1 (h₁.2 ▸ hk) (by decide)).mono fun _ s₂ h₂ => ?_
  exact finish_takes (h₂.alternative rfl (by simp))

theorem strayToken_takes (h : Takes s₀ s L) :
    r.strayToken.Ensures s fun _ s' => Takes s₀ s' 0 := by
  have hreport : (do let m ← openMarker; reportHere r.source m "expression").Ensures s
      fun _ s' => Takes s₀ s' 0 := by
    rw [ensures_bind]
    exact (openMarker_takes h).mono fun m s₁ h₁ => reportHere_takes h₁.1 _ _
  unfold strayToken
  simp only [ensures_bind, ensures_kind]
  split
  · exact hreport
  · exact hreport
  · exact skipUnexpected_takes h _ _

/-- A statement was read that a semicolon may end, or its absence was reported. -/
theorem plainStatement_takes (hr : r.Words) (hrecords : r.Records) (h : Takes s₀ s L) :
    r.plainStatement.Ensures s fun stmt s' => Takes s₀ s' (L * Form.endable.language) ∧
      (stmt = none → Takes s₀ s' 0) := by
  unfold plainStatement declarationShape
  simp only [ensures_bind, ensures_get, ensures_pure]
  split
  · rw [ensures_map]
    exact (funDecl_takes hr h _).mono fun n s₁ h₁ => ⟨h₁.choice (by simp), by simp⟩
  · rw [ensures_map]
    exact (typed_takes hr h _).mono fun n s₁ h₁ => ⟨h₁.choice (by simp), by simp⟩
  · simp only [ensures_bind, ensures_kind]
    split
    · rw [ensures_map]
      exact (expressionStatement_takes hr hrecords h).mono fun n s₁ h₁ =>
        ⟨h₁.choice (by simp), by simp⟩
    · simp only [ensures_bind, ensures_pure]
      exact (strayToken_takes h).mono fun _ s₁ h₁ => ⟨h₁.any, fun _ => h₁⟩

theorem aStatement_takes (hr : r.Words) (hrecords : r.Records) (h : Takes s₀ s L) :
    r.aStatement.Ensures s fun _ s' => Takes s₀ s' (L * (Form.ref .stmt).language) := by
  have hsemicolon {stmt : Option NodeId} {s₁ : ParseState}
      (hsome : stmt ≠ none → Takes s₀ s₁ (L * Form.endable.language))
      (hnone : stmt = none → Takes s₀ s₁ (L * (Form.ref .stmt).language)) :
      (do
        if stmt.isSome then
          let _ ← accept .semicolon
        return stmt : Production (Option NodeId)).Ensures s₁
        fun _ s' => Takes s₀ s' (L * (Form.ref .stmt).language) := by
    split
    · next hstmt =>
      have h₁ := hsome (Option.isSome_iff_ne_none.mp hstmt)
      simp only [ensures_bind, ensures_pure]
      refine (accept_optional h₁ (by decide)).mono fun found s₂ h₂ => ?_
      have hword : Takes s₀ s₂
          (L * (Form.sequence [.endable, .optional (.token .semicolon)]).language) := by
        simpa only [Form.language_sequence_cons, Form.language_sequence_singleton, mul_assoc]
          using h₂
      exact hword.alternative rfl (by simp)
    · next hstmt => exact ensures_pure.mpr (hnone (by simpa using hstmt))
  unfold aStatement
  simp only [ensures_bind, ensures_kind]
  split
  · next hk =>
    simp only [ensures_bind, ensures_pure]
    exact (emptyStatement_takes h hk).mono fun _ s₁ h₁ => hsemicolon (by simp) fun _ => h₁
  · next hk =>
    simp only [ensures_bind, ensures_map]
    exact (bracedStatement_takes hr hrecords h).mono fun _ s₁ h₁ =>
      hsemicolon (fun _ => h₁.choice (by simp)) (by simp)
  · next hk =>
    simp only [ensures_bind, ensures_map]
    exact (ifStatement_takes hr hrecords h hk).mono fun _ s₁ h₁ =>
      hsemicolon (fun _ => h₁.choice (by simp)) (by simp)
  · next hk =>
    simp only [ensures_bind, ensures_map]
    exact (whileStatement_takes hr hrecords h hk).mono fun _ s₁ h₁ =>
      hsemicolon (fun _ => h₁.choice (by simp)) (by simp)
  · next hk =>
    simp only [ensures_bind, ensures_map]
    exact (returnStatement_takes hr hrecords h hk).mono fun _ s₁ h₁ =>
      hsemicolon (fun _ => h₁.choice (by simp)) (by simp)
  · simp only [ensures_bind]
    exact (plainStatement_takes hr hrecords h).mono fun _ s₁ h₁ =>
      hsemicolon (fun _ => h₁.1) fun hnone => (h₁.2 hnone).any

/-! ### Classes -/

theorem classMember_takes {read : MembersRead} (hr : r.Words) (h : Takes s₀ s L) :
    (r.classMember read).Ensures s fun _ s' => Takes s₀ s' (L * Form.member.language) := by
  unfold classMember declarationShape
  simp only [ensures_bind, ensures_kind]
  split
  · next hk =>
    simp only [ensures_bind, ensures_pure]
    exact (hr.classDecl s h.told hk).mono fun n s₁ h₁ => (h.trans h₁).choice (by simp)
  · next hk =>
    simp only [ensures_bind, ensures_pure]
    exact (advance_token h hk (by decide)).mono fun _ s₁ h₁ => h₁.choice (by simp)
  · simp only [ensures_bind, ensures_get, ensures_pure]
    split
    · simp only [ensures_bind, ensures_pure]
      exact (funDecl_takes hr h _).mono fun n s₁ h₁ => h₁.choice (by simp)
    · simp only [ensures_bind, ensures_pure]
      refine (typed_takes hr h _).mono fun n s₁ h₁ => ?_
      refine (accept_optional h₁ (by decide)).mono fun found s₂ h₂ => ?_
      have hword : Takes s₀ s₂
          (L * (Form.sequence [.ref .varDecl, .optional (.token .semicolon)]).language) := by
        simpa only [Form.language_sequence_cons, Form.language_sequence_singleton, mul_assoc]
          using h₂
      exact hword.choice (by simp)
    · simp only [ensures_bind, ensures_pure]
      exact (skipUnexpected_takes h _ _).mono fun _ s₁ h₁ => h₁.any

theorem classMembers_takes (hr : r.Words) (h : Takes s₀ s L) :
    r.classMembers.Ensures s fun _ s' => Takes s₀ s' (L * (Form.many .member).language) := by
  rw [Form.language_many]
  unfold classMembers
  refine repeatFrom_ensures (fun _ s' => Takes s₀ s' (L * Form.member.language∗))
    (h.mono (Form.le_mul_kstar L _)) fun read s₁ h₁ => ?_
  simp only [ensures_bind, ensures_at?, ensures_atEnd]
  split
  · exact ensures_pure.mpr h₁
  · next hgo =>
    have hk : s₁.draft.current.kind ≠ .eof := by
      intro heof
      simp [Draft.atEnd, Draft.at?, heof] at hgo
    simp only [ensures_bind, ensures_current, ensures_pure]
    refine (classMember_takes hr (.refl h₁.told)).mono fun read s₂ h₂ => ?_
    rw [one_mul] at h₂
    refine (skipIfStuck_takes h₁.told.toFit h₂ (Form.nil_not_mem_language rfl) hk).mono
      fun _ s₃ h₃ => ?_
    exact (h₁.trans h₃).mono (Form.mul_kstar_mul_le L _)

theorem aClass_takes (hr : r.Words) (h : Takes s₀ s L) (hk : s.draft.current.kind = .classKw) :
    r.aClass.Ensures s fun _ s' => Takes s₀ s' (L * (Form.ref .aClass).language) := by
  rw [Form.language_ref .aClass]
  simp only [Symbol.form, Form.language_sequence_cons, Form.language_sequence_singleton,
    ← mul_assoc]
  unfold aClass
  simp only [ite_bind, ensures_bind, ensures_here]
  refine (openMarker_takes h).mono fun m s₁ h₁ => ?_
  refine (advance_token h₁.1 (h₁.2 ▸ hk) (by decide)).mono fun _ s₂ h₂ => ?_
  refine (name_takes h₂ _).mono fun found s₃ h₃ => ?_
  refine (accept_takes h₃ (by decide)).mono fun extended s₄ h₄ => ?_
  have hbase : (if extended = true then some <$> TypeRef.name <$> r.type else pure none :
      Production (Option String)).Ensures s₄ fun _ s' => Takes s₀ s'
        (L * (Form.token .classKw).language * (Form.token .ident).language *
          (Form.optional (.sequence [.token .extendsKw, .ref .type])).language) := by
    rcases h₄ with ⟨rfl, h₄⟩ | ⟨rfl, rfl⟩
    · simp only [if_true, ensures_map]
      refine (type_takes h₄).mono fun base s₅ h₅ => Takes.optional_some ?_
      simpa only [Form.language_sequence_cons, Form.language_sequence_singleton, mul_assoc] using h₅
    · simp only [Bool.false_eq_true, if_false, ensures_pure]
      exact h₃.optional_none _
  refine hbase.mono fun base s₅ h₅ => ?_
  refine (expect_takes h₅ (by decide) _ _).mono fun found s₆ h₆ => ?_
  rcases h₆ with ⟨rfl, h₆⟩ | ⟨rfl, h₆⟩
  · simp only [if_true, ensures_bind]
    refine (classMembers_takes hr h₆).mono fun read s₇ h₇ => ?_
    exact (expect_token h₇ (by decide) _ _).mono fun _ s₈ h₈ => finish_takes h₈
  · simp only [Bool.false_eq_true, if_false]
    exact (finish_takes h₆).mono fun _ s₇ h₇ => h₇.any

/-! ### The circle of the productions -/

/-- By induction on the depth: constructs nested deeper are taken by the productions within. -/
theorem upTo_words (source : String) (package : Option String) (depth : Nat) :
    (upTo source package depth).Words := by
  induction depth with
  | zero =>
    exact ⟨fun _ _ => ensures_throw, fun _ _ => ensures_throw, fun _ _ => ensures_throw,
      fun _ _ _ => ensures_throw⟩
  | succ depth ih =>
    have hrecords := upTo_records source package depth
    have hdrop {s s' : ParseState} {L : Language TokenKind} (h : Takes s s' (1 * L)) :
        Takes s s' L := h.mono (one_mul L).le
    exact ⟨fun _ h => (expression_takes ih hrecords (.refl h)).mono fun _ _ => hdrop,
      fun _ h => (operand_takes ih hrecords (.refl h)).mono fun _ _ => hdrop,
      fun _ h => (aStatement_takes ih hrecords (.refl h)).mono fun _ _ => hdrop,
      fun _ h hk => (aClass_takes ih (.refl h) hk).mono fun _ _ => hdrop⟩

end Rules

/-! ### Scripts -/

namespace Script

variable {r : Rules} {s₀ s : ParseState} {L : Language TokenKind}

theorem package_takes (h : Takes s₀ s L) (hk : s.draft.current.kind = .packageKw)
    (source : String) : (package source).Ensures s fun _ s' =>
      Takes s₀ s' (L * (Form.token .packageKw).language * (Form.ref .path).language) := by
  unfold package
  simp only [ensures_bind, ensures_here]
  refine (advance_token h hk (by decide)).mono fun _ s₁ h₁ => ?_
  refine (openMarker_takes h₁).mono fun m s₂ h₂ => ?_
  refine (Rules.dottedPath_takes h₂.1 _).mono fun path s₃ h₃ => ?_
  rcases h₃ with ⟨hpath, h₃⟩ | ⟨rfl, rfl, -⟩
  · obtain ⟨path, rfl⟩ := Option.ne_none_iff_exists'.mp hpath
    simp only [ensures_bind, ensures_pure]
    exact finish_takes h₃
  · simp only [ensures_bind, ensures_pure]
    exact (reportHere_takes h₂.1 _ _).mono fun _ s₄ h₄ => h₄.any

theorem importDecl_takes (h : Takes s₀ s L) (hk : s.draft.current.kind = .importKw)
    (source : String) : (importDecl source).Ensures s fun _ s' =>
      Takes s₀ s' (L * (Form.token .importKw).language * (Form.ref .path).language *
        (Form.optional (.sequence [.token .asKw, .token .ident])).language) := by
  unfold importDecl
  simp only [ensures_bind, ensures_here]
  refine (openMarker_takes h).mono fun m s₁ h₁ => ?_
  refine (advance_token h₁.1 (h₁.2 ▸ hk) (by decide)).mono fun _ s₂ h₂ => ?_
  have hrest (path : String) (start : Nat) {s₃ : ParseState} {M : Language TokenKind}
      (h₃ : Takes s₀ s₃ M) :
      (do
        let mut rename := none
        if ← accept .asKw then
          let t ← current
          if ← expect source .ident "alias" then rename := some (t.textIn source)
        finish m start (.importDecl path rename) : Production NodeId).Ensures s₃ fun _ s' =>
          Takes s₀ s' (M * (Form.optional (.sequence [.token .asKw, .token .ident])).language) := by
    simp only [ensures_bind]
    refine (accept_takes h₃ (by decide)).mono fun renamed s₄ h₄ => ?_
    rcases h₄ with ⟨rfl, h₄⟩ | ⟨rfl, rfl⟩
    · simp only [if_true, ensures_bind, ensures_current]
      refine (expect_token h₄ (by decide) _ _).mono fun found s₅ h₅ => ?_
      have hword : Takes s₀ s₅
          (M * (Form.optional (.sequence [.token .asKw, .token .ident])).language) := by
        refine Takes.optional_some ?_
        simpa only [Form.language_sequence_cons, Form.language_sequence_singleton, mul_assoc]
          using h₅
      split
      · exact finish_takes hword
      · exact finish_takes hword
    · simp only [Bool.false_eq_true, if_false]
      exact finish_takes (h₃.optional_none _)
  refine (Rules.dottedPath_takes h₂ _).mono fun path s₃ h₃ => ?_
  rcases h₃ with ⟨hpath, h₃⟩ | ⟨rfl, rfl, hident⟩
  · obtain ⟨path, rfl⟩ := Option.ne_none_iff_exists'.mp hpath
    exact hrest _ _ h₃
  · simp only [ensures_bind]
    refine (expect_fault h₂ (by simpa [Draft.at?] using hident) _ _).mono fun _ s₄ h₄ => ?_
    have hany : Takes s₀ s₄ (L * (Form.token .importKw).language * (Form.ref .path).language) :=
      h₄.any
    refine ensures_pure.mpr ?_
    simpa only [ensures_bind] using hrest "" s₁.draft.current.offset hany

theorem part_takes {read : PartsRead} (hr : r.Words) (h : Takes s₀ s L) :
    (part r read).Ensures s fun _ s' => Takes s₀ s'
      (L * (Form.choice [.importDecl, .ref .aClass, .ref .stmt]).language) := by
  unfold part
  simp only [ensures_bind, ensures_kind]
  split
  · next hk =>
    simp only [ensures_bind, ensures_pure]
    refine (importDecl_takes h hk _).mono fun n s₁ h₁ => ?_
    refine (accept_optional h₁ (by decide)).mono fun _ s₂ h₂ => ?_
    have hword : Takes s₀ s₂ (L * Form.importDecl.language) := by
      simpa only [Form.importDecl, Form.language_sequence_cons,
        Form.language_sequence_singleton, mul_assoc] using h₂
    exact hword.choice (by simp)
  · next hk =>
    simp only [ensures_bind, ensures_pure]
    exact (hr.classDecl s h.told hk).mono fun n s₁ h₁ => (h.trans h₁).choice (by simp)
  · simp only [ensures_bind, ensures_pure]
    exact (hr.statement s h.told).mono fun stmt s₁ h₁ => (h.trans h₁).choice (by simp)

/-- The parts of a script are read up to the end of the text. -/
theorem parts_takes (hr : r.Words) (h : Takes s₀ s L) :
    (parts r).Ensures s fun _ s' => Takes s₀ s'
      (L * (Form.many (.choice [.importDecl, .ref .aClass, .ref .stmt])).language) ∧
        s'.draft.current.kind = .eof := by
  rw [Form.language_many]
  unfold parts
  refine repeatFrom_ensures (fun _ s' => Takes s₀ s'
    (L * (Form.choice [.importDecl, .ref .aClass, .ref .stmt]).language∗))
    (h.mono (Form.le_mul_kstar L _)) fun read s₁ h₁ => ?_
  simp only [ensures_bind, ensures_atEnd]
  split
  · next hend => exact ensures_pure.mpr ⟨h₁, by simpa [Draft.atEnd, Draft.at?] using hend⟩
  · next hgo =>
    have hk : s₁.draft.current.kind ≠ .eof := by
      simpa [Draft.atEnd, Draft.at?] using hgo
    simp only [ensures_bind, ensures_current, ensures_pure]
    refine (part_takes hr (.refl h₁.told)).mono fun read s₂ h₂ => ?_
    rw [one_mul] at h₂
    refine (skipIfStuck_takes h₁.told.toFit h₂ (Form.nil_not_mem_language rfl) hk).mono
      fun _ s₃ h₃ => ?_
    exact (h₁.trans h₃).mono (Form.mul_kstar_mul_le L _)

/-- A script is read up to the end of the text, and what comes then takes nothing back. -/
theorem script_takes (source : String) (h : s.Told) : (script source).Ensures s fun _ s' =>
    ∃ s₁, Takes s s₁ (Form.ref .script).language ∧ s₁.draft.current.kind = .eof ∧
      Takes s₁ s' ⊤ := by
  have hword : (Form.ref .script).language = (Form.optional (.sequence [.token .packageKw,
      .ref .path, .optional (.token .semicolon)])).language *
      (Form.many (.choice [.importDecl, .ref .aClass, .ref .stmt])).language := by
    rw [Form.language_ref .script]
    simp only [Symbol.form, Form.language_sequence_cons, Form.language_sequence_singleton]
  rw [hword]
  unfold script
  simp only [ensures_bind, ensures_here]
  refine (openMarker_takes (.refl h)).mono fun m s₁ hs₁ => ?_
  obtain ⟨h₁, -⟩ := hs₁
  have hrest (declared : Option String) (start : Nat) {s₂ : ParseState} {L : Language TokenKind}
      (h₂ : Takes s s₂ L) :
      (do
        let r := Rules.upTo source declared ((← get).draft.ahead.length + 1)
        let read ← parts r
        let body ← allocFrom start (.block read.stmts.reverse)
        advance
        let stop := (← current).span.stop
        let node ← alloc (.classDecl {
          package := declared
          inner := read.classes.reverse
          imports := read.imports.reverse
          body := some body
          isScript := true }) ⟨0, stop⟩
        close m node
        return node : Production NodeId).Ensures s₂ fun _ s' => ∃ s₁, Takes s s₁
          (L * (Form.many (.choice [.importDecl, .ref .aClass, .ref .stmt])).language) ∧
            s₁.draft.current.kind = .eof ∧ Takes s₁ s' ⊤ := by
    simp only [ensures_bind, ensures_get]
    refine (parts_takes (Rules.upTo_words source declared _) h₂).mono fun read s₃ hs₃ => ?_
    obtain ⟨h₃, heof⟩ := hs₃
    rw [ensures_allocFrom]
    refine (advance_takes (alloc_takes (.refl h₃.told))).mono fun _ s₄ hs₄ => ?_
    obtain ⟨ts, h₄, -⟩ := hs₄
    simp only [ensures_current, ensures_alloc, ensures_pure]
    exact (close_takes (alloc_takes (h₄.mono le_top))).mono fun _ s₅ h₅ => ⟨s₃, h₃, heof, h₅⟩
  rw [ensures_at?]
  split
  · next hat =>
    simp only [ensures_bind]
    refine (package_takes h₁ (by simpa [Draft.at?] using hat) _).mono fun declared s₂ h₂ => ?_
    refine (accept_optional h₂ (by decide)).mono fun _ s₃ h₃ => ?_
    have hpackage : Takes s s₃ (1 * (Form.sequence [.token .packageKw, .ref .path,
        .optional (.token .semicolon)]).language) := by
      simpa only [Form.language_sequence_cons, Form.language_sequence_singleton, mul_assoc] using h₃
    have hpackage := hpackage.optional_some
    rw [one_mul] at hpackage
    simpa only [ensures_bind] using hrest declared s₁.draft.current.offset hpackage
  · have hnone := h₁.optional_none
      (.sequence [.token .packageKw, .ref .path, .optional (.token .semicolon)])
    rw [one_mul] at hnone
    simpa only [ensures_bind] using hrest none s₁.draft.current.offset hnone

end Script

end ScriptAnalysis
