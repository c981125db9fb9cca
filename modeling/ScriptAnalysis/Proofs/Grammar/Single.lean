import ScriptAnalysis.Proofs.Grammar.Derives
import ScriptAnalysis.Proofs.Grammar.Outcome
import ScriptAnalysis.Proofs.Grammar.Statements

/-!
# Scripts of one statement

A loop of the grammar that comes to the end of the text ends there.  So of a script that is one
statement no more is left than the statement and what comes behind it (`Script.closing`), and of an
expression that is one literal no more than the literal.

Each lemma takes what holds when the inner production is done, at the end of the text, over to the
production around it.
-/

namespace ScriptAnalysis

open Production

variable {r : Rules} {s : ParseState}

/-- What a run answers is all that there is to ensure. -/
theorem ensures_of_run {α : Type} {p : Production α} {a : α} {s' : ParseState}
    {Q : α → ParseState → Prop} (h : p.run s = .ok (a, s')) (hQ : Q a s') : p.Ensures s Q := by
  intro b s'' hrun
  rw [h] at hrun
  cases hrun
  exact hQ

/-- A loop ends at once whose first step ends it. -/
theorem repeatFrom_stops {α β : Type} {step : α → Production (α ⊕ β)} {a : α}
    {Q : β → ParseState → Prop}
    (h : (step a).Ensures s fun turned s' => ∃ result, turned = .inr result ∧ Q result s') :
    (repeatFrom step a).Ensures s Q := by
  unfold repeatFrom
  refine ensures_bind.mpr (ensures_get.mpr ?_)
  unfold iterate
  refine ensures_bind.mpr (h.mono ?_)
  rintro _ s' ⟨result, rfl, hresult⟩
  exact ensures_pure.mpr hresult

/-! ### Expressions of one literal -/

section

variable {Q : Parsed → ParseState → Prop}

/-- The end of the text is no call and no access. -/
theorem suffixed_of_primary
    (h : r.primary.Ensures s fun read s' => s'.draft.current.kind = .eof ∧ Q read s') :
    r.suffixed.Ensures s fun read s' => s'.draft.current.kind = .eof ∧ Q read s' := by
  unfold Rules.suffixed
  refine ensures_bind.mpr (ensures_here.mpr (ensures_bind.mpr (h.mono ?_)))
  rintro read s' ⟨heof, hQ⟩
  refine repeatFrom_stops (ensures_bind.mpr (ensures_kind.mpr ?_))
  rw [heof]
  exact ensures_pure.mpr ⟨read, rfl, heof, hQ⟩

/-- The end of the text is no operator of any level. -/
theorem binary_of_operand {levels : List (List (TokenKind × BinaryOp))}
    (hlevels : ∀ operators ∈ levels, operators.lookup .eof = none)
    (h : r.operand.Ensures s fun read s' => s'.draft.current.kind = .eof ∧ Q read s') :
    (r.binary levels).Ensures s fun read s' => s'.draft.current.kind = .eof ∧ Q read s' := by
  induction levels with
  | nil => exact h
  | cons operators tighter ih =>
    obtain ⟨hnone, htighter⟩ := List.forall_mem_cons.mp hlevels
    unfold Rules.binary
    refine ensures_bind.mpr (ensures_here.mpr (ensures_bind.mpr ((ih htighter).mono ?_)))
    rintro read s' ⟨heof, hQ⟩
    refine repeatFrom_stops (ensures_bind.mpr (ensures_kind.mpr ?_))
    rw [heof, hnone]
    exact ensures_pure.mpr ⟨read, rfl, heof, hQ⟩

theorem expression_of_primary (hkind : s.draft.current.kind ∈ literalKinds)
    (h : r.primary.Ensures s fun read s' => s'.draft.current.kind = .eof ∧ Q read s') :
    r.expression.Ensures s fun read s' => s'.draft.current.kind = .eof ∧ Q read s' := by
  have hfacts : ∀ kind ∈ literalKinds, (kind == .ident) = false ∧ unaryOp? kind = none := by decide
  obtain ⟨hident, hunary⟩ := hfacts _ hkind
  unfold Rules.expression
  refine ensures_bind.mpr (ensures_at?.mpr (ensures_bind.mpr (ensures_kindAfter.mpr ?_)))
  unfold Draft.at?
  rw [hident, Bool.false_and, if_neg Bool.false_ne_true]
  refine binary_of_operand (by decide) ?_
  unfold Rules.operand
  refine ensures_bind.mpr (ensures_kind.mpr ?_)
  rw [hunary]
  exact suffixed_of_primary h

end

/-! ### Statements -/

variable {Q : NodeId → ParseState → Prop}

/-- A literal announces an expression and nothing else. -/
theorem plainStatement_of_expression (hkind : s.draft.current.kind ∈ literalKinds)
    (h : r.expressionStatement.Ensures s Q) :
    r.plainStatement.Ensures s fun stmt s' => ∃ n, stmt = some n ∧ Q n s' := by
  have hfacts : ∀ kind ∈ literalKinds, startsType kind = false ∧ startsExpression kind = true := by
    decide
  obtain ⟨htype, hstarts⟩ := hfacts _ hkind
  have hshape : declarationShape? s.draft.ahead = none := by
    by_contra hsome
    obtain ⟨shape, hshape⟩ := Option.ne_none_iff_exists'.mp hsome
    rw [startsType_of_declarationShape? hshape] at htype
    cases htype
  unfold Rules.plainStatement Rules.declarationShape
  refine ensures_bind.mpr (ensures_bind.mpr (ensures_get.mpr (ensures_pure.mpr ?_)))
  rw [hshape]
  refine ensures_bind.mpr (ensures_kind.mpr ?_)
  rw [if_pos hstarts]
  exact ensures_map.mpr (h.mono fun n s' hQ => ⟨n, rfl, hQ⟩)

theorem aStatement_of_expression (hkind : s.draft.current.kind ∈ literalKinds)
    (h : r.expressionStatement.Ensures s fun n s' => s'.draft.current.kind = .eof ∧ Q n s') :
    r.aStatement.Ensures s fun stmt s' =>
      ∃ n, stmt = some n ∧ s'.draft.current.kind = .eof ∧ Q n s' := by
  have hother : ∀ kind ∈ literalKinds,
      kind ∉ [.semicolon, .leftBrace, .ifKw, .whileKw, .returnKw] := by decide
  have hother := hother _ hkind
  simp only [List.mem_cons, List.not_mem_nil, or_false, not_or] at hother
  unfold Rules.aStatement
  refine ensures_bind.mpr (ensures_kind.mpr ?_)
  split
  · next hk => exact absurd hk hother.1
  · next hk => exact absurd hk hother.2.1
  · next hk => exact absurd hk hother.2.2.1
  · next hk => exact absurd hk hother.2.2.2.1
  · next hk => exact absurd hk hother.2.2.2.2
  · refine ensures_bind.mpr ((plainStatement_of_expression hkind h).mono ?_)
    rintro _ s' ⟨n, rfl, heof, hQ⟩
    dsimp only
    rw [if_pos Option.isSome_some]
    unfold accept
    refine ensures_bind.mpr (ensures_bind.mpr (ensures_at?.mpr ?_))
    unfold Draft.at?
    rw [heof]
    exact ensures_pure.mpr (ensures_pure.mpr ⟨n, rfl, heof, hQ⟩)

/-! ### Scripts -/

/-- The statement is the only part of the script: the loop takes a turn for it, and the next one
    finds the end of the text. -/
theorem parts_of_statement (hkind : s.draft.current.kind ∉ [.eof, .importKw, .classKw])
    (h : r.statement.Ensures s fun stmt s' =>
      ∃ n, stmt = some n ∧ s'.draft.current.kind = .eof ∧ Q n s') :
    (Script.parts r).Ensures s fun read s' => ∃ n, read = { stmts := [n] } ∧ Q n s' := by
  simp only [List.mem_cons, List.not_mem_nil, or_false, not_or] at hkind
  obtain ⟨hnoEof, himport, hclass⟩ := hkind
  have hpart : (Script.part r {}).Ensures s fun read s' =>
      s'.draft.current.kind = .eof ∧ ∃ n, read = { stmts := [n] } ∧ Q n s' := by
    unfold Script.part
    refine ensures_bind.mpr (ensures_kind.mpr ?_)
    split
    · next hk => exact absurd hk himport
    · next hk => exact absurd hk hclass
    · refine ensures_bind.mpr (h.mono ?_)
      rintro _ s' ⟨n, rfl, heof, hQ⟩
      exact ensures_pure.mpr ⟨heof, n, rfl, hQ⟩
  refine repeatFrom_ensures (fun read s' => (read = {} ∧ s' = s) ∨
    s'.draft.current.kind = .eof ∧ ∃ n, read = { stmts := [n] } ∧ Q n s') (.inl ⟨rfl, rfl⟩) ?_
  rintro read s' (⟨rfl, rfl⟩ | ⟨heof, hread⟩)
  · refine ensures_bind.mpr (ensures_atEnd.mpr ?_)
    unfold Draft.atEnd Draft.at?
    rw [beq_eq_false_iff_ne.mpr hnoEof, if_neg Bool.false_ne_true]
    refine ensures_bind.mpr (ensures_current.mpr (ensures_bind.mpr (hpart.mono ?_)))
    rintro read s₁ ⟨heof, hread⟩
    have hstuck : s₁.draft.current ≠ s'.draft.current := fun heq => hnoEof (heq ▸ heof)
    unfold skipIfStuck
    refine ensures_bind.mpr (ensures_bind.mpr (ensures_current.mpr ?_))
    rw [if_neg hstuck]
    exact ensures_pure.mpr (ensures_pure.mpr (.inr ⟨heof, hread⟩))
  · refine ensures_bind.mpr (ensures_atEnd.mpr ?_)
    unfold Draft.atEnd Draft.at?
    rw [heof, if_pos (beq_self_eq_true _)]
    exact ensures_pure.mpr hread

/-- What is done behind the only statement of a script. -/
def Script.closing (m : MarkerId) (start : Nat) (stmt : NodeId) : Production NodeId := do
  let body ← allocFrom start (.block [stmt])
  advance
  let stop := (← current).span.stop
  let node ← alloc (.classDecl { body := some body, isScript := true }) ⟨0, stop⟩
  close m node
  return node

theorem script_of_statement {source : String} (h : openMarker.Ensures s fun m s₁ =>
      s₁.draft.current.kind ∉ [.packageKw, .eof, .importKw, .classKw] ∧
      (Rules.upTo source none (s₁.draft.ahead.length + 1)).statement.Ensures s₁ fun stmt s' =>
        ∃ n, stmt = some n ∧ s'.draft.current.kind = .eof ∧
          (Script.closing m s₁.draft.current.offset n).Ensures s' Q) :
    (Script.script source).Ensures s Q := by
  unfold Script.script
  refine ensures_bind.mpr (h.mono ?_)
  rintro m s₁ ⟨hkind, hstatement⟩
  obtain ⟨hpackage, hkind⟩ := not_or.mp (mt List.mem_cons.mpr hkind)
  refine ensures_bind.mpr (ensures_here.mpr ?_)
  extract_lets undeclared goOn
  refine ensures_bind.mpr (ensures_at?.mpr ?_)
  unfold Draft.at?
  rw [beq_eq_false_iff_ne.mpr hpackage, if_neg Bool.false_ne_true]
  refine ensures_bind.mpr (ensures_get.mpr (ensures_bind.mpr ?_))
  refine (parts_of_statement hkind hstatement).mono ?_
  rintro _ s₂ ⟨n, rfl, hclosing⟩
  exact hclosing

end ScriptAnalysis
