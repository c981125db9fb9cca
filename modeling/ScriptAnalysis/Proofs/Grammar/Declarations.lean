import ScriptAnalysis.Grammar.Declaration
import ScriptAnalysis.Grammar.Expression
import ScriptAnalysis.Proofs.Grammar.Contract

/-!
# Declarations always succeed

Names, types, variables and parameters, whatever stands in their place.  A part that is missing is
reported and consumes nothing, so a variable or a parameter may turn out to be empty; it is a node
all the same, and therefore has to come after the first token of the text.

`Rules.SafeBelow` is what the productions of the circle promise each other: they succeed as long as
fewer tokens are ahead than the bound that they were made for.
-/

namespace ScriptAnalysis

open Production

/-- What it means to read an expression: the recording is one marker longer, and unless a closing
    token stood in place of the expression, a token was read. -/
def ReadsExpression (s : ParseState) (e : Parsed) (s' : ParseState) : Prop :=
  s.draft.Wraps e.marker s'.draft ∧
    (isCloser s.draft.current.kind = false → s.draft.Consumes s'.draft)

/-- The productions of the circle succeed with fewer than `n` tokens ahead. -/
structure Rules.SafeBelow (r : Rules) (n : Nat) : Prop where
  expr : ∀ s, s.draft.Ready → s.draft.ahead.length < n → r.expr.Yields s (ReadsExpression s)
  unary : ∀ s, s.draft.Ready → s.draft.ahead.length < n → r.unary.Yields s (ReadsExpression s)
  statement : ∀ s, s.draft.Ready → s.draft.ahead.length < n →
    r.statement.Yields s fun _ s' => s.draft.Grows s'.draft
  classDecl : ∀ s, s.draft.Ready → s.draft.current.kind ≠ .eof → s.draft.ahead.length < n →
    r.classDecl.Yields s fun _ s' => s.draft.Grows s'.draft

/-- The tokens that start a type. -/
def startsType (kind : TokenKind) : Bool := kind.isTypeKeyword || kind == .ident

theorem keywordType?_isSome (kind : TokenKind) :
    (keywordType? kind).isSome = kind.isTypeKeyword := by
  cases kind <;> rfl

namespace Rules

variable {r : Rules} {n : Nat} {s : ParseState}

/-! ### Names and types -/

/-- A path is read if there is a name, and nothing otherwise. -/
theorem dottedPath_yields (source : String) (h : s.draft.Ready) :
    (dottedPath source).Yields s fun path s' =>
      (s.draft.current.kind = .ident ∧ path.isSome ∧ s.draft.Consumes s'.draft) ∨
      (s.draft.current.kind ≠ .ident ∧ path = none ∧ s'.draft = s.draft) := by
  unfold dottedPath
  simp only [yields_bind, yields_current]
  split
  · next hk => exact yields_pure.mpr (Or.inr ⟨hk, rfl, rfl⟩)
  · next hk =>
    have hk : s.draft.current.kind = .ident := Decidable.not_not.mp hk
    simp only [yields_bind]
    refine (advance_yields h (by simp [hk])).mono fun _ s₁ h₁ => ?_
    refine (repeatFrom_yields (Q := fun _ s' => s.draft.Consumes s'.draft)
      (fun _ s' => s.draft.Consumes s'.draft) h₁ ?_).mono fun _ s' hs' => ?_
    · intro path s₂ h₂
      simp only [yields_bind, yields_at?, yields_kindAfter]
      split
      · next hdot =>
        obtain ⟨hat, hafter⟩ : s₂.draft.current.kind = .dot ∧
            (s₂.draft.lookahead 1).kind = .ident := by
          simpa [Draft.at?] using hdot
        simp only [yields_bind, yields_current]
        apply (advance_yields_lookahead h₂.grows.ready (by simp [hat])).mono
        intro _ s₃ h₃
        apply (advance_yields h₃.1.grows.ready (by simp [h₃.2, hafter])).mono
        intro _ s₄ h₄
        have h₃₄ := h₃.1.trans_grows h₄.grows
        exact yields_pure.mpr ⟨h₂.trans_grows h₃₄.grows, h₃₄.length_lt⟩
      · exact yields_pure.mpr h₂
    · exact yields_pure.mpr (Or.inl ⟨hk, rfl, hs'⟩)

theorem name_yields (h : s.draft.Ready) (nameKind : NameKind) :
    (r.name nameKind).Yields s fun _ s' => s.draft.Grows s'.draft := by
  unfold name
  simp only [yields_bind, yields_current]
  split
  · simp only [yields_bind]
    apply (expect_yields h (by decide) _ _).mono
    intro _ s₁ h₁
    exact yields_pure.mpr h₁.1
  · next hk =>
    have hk : s.draft.current.kind = .ident := Decidable.not_not.mp hk
    simp only [yields_bind]
    apply (openMarker_yields h).mono
    intro m s₁ h₁
    apply (advance_yields h₁.1.ready (by simp [h₁.2.2, hk])).mono
    intro _ s₂ h₂
    apply (alloc_yields _ _).mono
    intro node s₃ h₃
    rw [← h₃.1] at h₂
    apply (close_yields (h₁.1.trans h₂.grows) h₂.started node).mono
    intro _ s₄ h₄
    exact yields_pure.mpr h₄.wraps.grows

/-- A type is read if one stands here, and nothing otherwise. -/
theorem type_yields (h : s.draft.Ready) :
    r.type.Yields s fun _ s' => s.draft.Grows s'.draft ∧
      (startsType s.draft.current.kind = true → s.draft.Consumes s'.draft) := by
  unfold type
  simp only [yields_bind]
  apply (openMarker_yields h).mono
  intro m s₁ h₁
  simp only [yields_here, yields_kind]
  have hkey := keywordType?_isSome s₁.draft.current.kind
  split
  · next declared hd =>
    rw [hd] at hkey
    have hk : s₁.draft.current.kind ≠ .eof := by
      intro he
      rw [he] at hkey
      cases hkey
    simp only [yields_bind]
    apply (advance_yields h₁.1.ready hk).mono
    intro _ s₂ h₂
    apply (finish_yields (h₁.1.trans h₂.grows) h₂.started _ _).mono
    intro _ s₃ h₃
    exact yields_pure.mpr ⟨h₃.wraps.grows, fun _ => h₃.consumes h₁.1 h₂⟩
  · next hd =>
    rw [hd] at hkey
    simp only [yields_bind]
    apply (dottedPath_yields _ h₁.1.ready).mono
    intro path s₂ h₂
    rcases h₂ with ⟨-, hp, h₂⟩ | ⟨hk, rfl, h₂⟩
    · obtain ⟨p, rfl⟩ := Option.isSome_iff_exists.mp hp
      simp only [yields_bind]
      apply (finish_yields (h₁.1.trans h₂.grows) h₂.started _ _).mono
      intro _ s₃ h₃
      exact yields_pure.mpr ⟨h₃.wraps.grows, fun _ => h₃.consumes h₁.1 h₂⟩
    · rw [h₁.2.2] at hk hkey
      simp only [yields_bind]
      rw [← h₂] at h₁
      apply (reportHere_yields h₁.1 _ _).mono
      intro _ s₃ h₃
      refine yields_pure.mpr ⟨h₃.wraps.grows, fun hstart => ?_⟩
      simp [startsType, hk, ← hkey] at hstart

/-! ### Variables and parameters -/

/-- A variable without a type may be empty, and so may one whose type is missing; then some token
    has to come before it. -/
theorem varDecl_yields (hr : r.SafeBelow n) (h : s.draft.Ready) (hn : s.draft.ahead.length ≤ n)
    (role : VarRole) (typed : Bool)
    (hs : s.draft.Started ∨ (typed = true ∧ startsType s.draft.current.kind = true)) :
    (r.varDecl role typed).Yields s fun _ s' => s.draft.Grows s'.draft := by
  unfold varDecl
  simp only [ite_bind, yields_bind]
  apply (openMarker_yields h).mono
  intro m s₁ h₁
  rw [yields_here]
  have htype : (if typed = true then r.type else pure .any : Production TypeRef).Yields s₁
      fun _ s₂ => s₁.draft.Grows s₂.draft ∧ s₂.draft.Started := by
    split
    · refine (type_yields h₁.1.ready).mono fun _ s₂ h₂ => ⟨h₂.1, ?_⟩
      rcases hs with hs | ⟨-, hs⟩
      · exact h₂.1.started (h₁.1.started hs)
      · rw [← h₁.2.2] at hs
        exact (h₂.2 hs).started
    · next ht =>
      rcases hs with hs | ⟨hs, -⟩
      · exact yields_pure.mpr ⟨Draft.Grows.refl h₁.1.ready, h₁.1.started hs⟩
      · exact absurd hs ht
  apply htype.mono
  intro declared s₂ h₂
  apply (name_yields h₂.1.ready _).mono
  intro declaredName s₃ h₃
  apply (accept_yields h₃.ready (by decide)).mono
  intro found s₄ h₄
  have hinit : (if found = true then some <$> Parsed.node <$> r.expr else pure none :
      Production (Option NodeId)).Yields s₄ fun _ s₅ => s₄.draft.Grows s₅.draft := by
    split
    · next hf =>
      simp only [yields_map]
      have h₃₄ := (h₂.1.trans h₃).trans_consumes (h₄.2 hf)
      refine (hr.expr s₄ h₄.1.ready ?_).mono fun _ s₅ h₅ => h₅.1.grows
      exact Nat.lt_of_lt_of_le h₃₄.length_lt (Nat.le_trans h₁.1.length_le hn)
    · exact yields_pure.mpr (Draft.Grows.refl h₄.1.ready)
  apply hinit.mono
  intro init s₅ h₅
  have hg : s₁.draft.Grows s₅.draft := h₂.1.trans (h₃.trans (h₄.1.trans h₅))
  have hstarted : s₅.draft.Started := (h₃.trans (h₄.1.trans h₅)).started h₂.2
  have hw := h₁.1.trans hg
  simp only [yields_spanFrom]
  apply (alloc_yields _ _).mono
  intro decl s₆ h₆
  apply (alloc_yields _ _).mono
  intro node s₇ h₇
  rw [← h₆.1, ← h₇.1] at hw hstarted
  apply (close_yields hw hstarted node).mono
  intro _ s₈ h₈
  exact yields_pure.mpr h₈.wraps.grows

theorem param_yields (hr : r.SafeBelow n) (h : s.draft.Ready) (hn : s.draft.ahead.length ≤ n)
    (hs : s.draft.Started) : r.param.Yields s fun _ s' => s.draft.Grows s'.draft := by
  unfold param
  simp only [yields_bind, yields_kindAfter, yields_at?]
  exact varDecl_yields hr h hn _ _ (Or.inl hs)

/-- One parameter or more. -/
theorem separated_param_yields (hr : r.SafeBelow n) (h : s.draft.Ready)
    (hn : s.draft.ahead.length ≤ n) (hs : s.draft.Started) :
    (separated r.param).Yields s fun _ s' => s.draft.Grows s'.draft := by
  refine separated_yields h ?_
  intro s' h'
  exact param_yields hr h'.ready (Nat.le_trans h'.length_le hn) (h'.started hs)

theorem params_yields (hr : r.SafeBelow n) (h : s.draft.Ready) (hn : s.draft.ahead.length ≤ n)
    (hs : s.draft.Started) : r.params.Yields s fun _ s' => s.draft.Grows s'.draft := by
  unfold params
  simp only [yields_bind]
  apply (openMarker_yields h).mono
  intro m s₁ h₁
  apply (expect_yields h₁.1.ready (by decide) _ _).mono
  intro found s₂ h₂
  have closed : ∀ (declared : List NodeId) s', s₁.draft.Grows s'.draft →
      (do closeGroup m; pure declared : Production (List NodeId)).Yields s' fun _ s'' =>
        s.draft.Grows s''.draft := by
    intro declared s' hg
    rw [yields_bind]
    apply (closeGroup_yields (h₁.1.trans hg) (hg.started (h₁.1.started hs))).mono
    intro _ s'' h''
    exact yields_pure.mpr h''.wraps.grows
  have ended : ∀ (declared : List NodeId) s', s₁.draft.Grows s'.draft →
      (do let _ ← expect r.source .rightParen "')'"; closeGroup m; pure declared :
        Production (List NodeId)).Yields s' fun _ s'' => s.draft.Grows s''.draft := by
    intro declared s' hg
    rw [yields_bind]
    apply (expect_yields hg.ready (by decide) _ _).mono
    intro _ s₃ h₃
    exact closed declared s₃ (hg.trans h₃.1)
  split
  · rw [yields_bind, yields_at?]
    split
    · rw [yields_bind]
      have hn₂ := Nat.le_trans h₂.1.length_le (Nat.le_trans h₁.1.length_le hn)
      have hs₂ := h₂.1.started (h₁.1.started hs)
      apply (separated_param_yields hr h₂.1.ready hn₂ hs₂).mono
      intro declared s₃ h₃
      exact ended declared s₃ (h₂.1.trans h₃)
    · exact ended [] s₂ h₂.1
  · exact closed [] s₂ h₂.1

end Rules

end ScriptAnalysis
