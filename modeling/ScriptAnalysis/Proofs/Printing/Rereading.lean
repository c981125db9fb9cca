import ScriptAnalysis.Proofs.Printing.Facing
import ScriptAnalysis.Proofs.Printing.Lexing

/-!
# Reading printed expressions

Each production of expressions, run on the words that an expression is printed as, takes these words
and leaves the expression in the arena, as long as what follows does not go on with it.

An operand on the left, a callee and a target are read before the operator or the bracket behind
them is seen, by the loop that goes on with them.  So for loops `LeadsOn` is proved, which is about
the expression and the loop behind it at once; the induction is on the expression.
-/

namespace ScriptAnalysis

open ParseState Production

/-! ### What goes on with an expression -/

/-- Whether a token goes on with an expression of this level: as a call, an access, an assignment,
    or an operator that does not bind less tightly. -/
def GoesOn (level : Nat) (kind : TokenKind) : Prop :=
  kind = .leftParen ∨ kind = .dot ∨ kind = .equal ∨
    ∃ op : BinaryOp, op.kind = kind ∧ level ≤ op.level

/-- The words start with one that does not go on with an expression of this level. -/
def Stops (level : Nat) (ws : List Word) : Prop :=
  ∃ w more, ws = w :: more ∧ ¬ GoesOn level w.1

theorem Stops.mono {level level' : Nat} {ws : List Word} (h : Stops level ws)
    (hle : level ≤ level') : Stops level' ws := by
  obtain ⟨w, more, heq, hw⟩ := h
  refine ⟨w, more, heq, fun hgoes => hw ?_⟩
  rcases hgoes with hk | hk | hk | ⟨op, hk, hop⟩
  · exact .inl hk
  · exact .inr (.inl hk)
  · exact .inr (.inr (.inl hk))
  · exact .inr (.inr (.inr ⟨op, hk, Nat.le_trans hle hop⟩))

/-- What separates or closes expressions, or ends the text, ends every expression. -/
theorem Stops.of_closer {w : Word} (h : w.1 ∈ [.comma, .rightParen, .rightSquare, .eof])
    (level : Nat) (more : List Word) : Stops level (w :: more) := by
  refine ⟨w, more, rfl, fun hgoes => ?_⟩
  simp only [List.mem_cons, List.not_mem_nil, or_false] at h
  have hop : ∀ op : BinaryOp, op.kind ≠ .comma ∧ op.kind ≠ .rightParen ∧ op.kind ≠ .rightSquare ∧
      op.kind ≠ .eof := by
    intro op
    cases op <;> decide
  rcases hgoes with hk | hk | hk | ⟨op, hk, -⟩
  · simp [hk] at h
  · simp [hk] at h
  · simp [hk] at h
  · have hop := hop op
    rw [hk] at hop
    tauto

/-! ### Names -/

section Names

variable {source : String} {s : ParseState} {rest : List Word} {w : Word}

/-- A path is read up to what is no dot. -/
theorem dottedPath_reads (first : Identifier) (names : List Identifier) (hw : w.1 ≠ .dot)
    (h : s.Facing source ((ClassName.path first names).words ++ w :: rest)) :
    (Rules.dottedPath source).Ensures s fun path s' =>
      path = some (ClassName.path first names).text ∧ s.Reaches source (w :: rest) s' := by
  unfold Rules.dottedPath
  refine ensures_bind.mpr (ensures_current.mpr ?_)
  rw [if_neg (by rw [h.kind]; exact not_not.mpr rfl), h.text]
  refine ensures_bind.mpr ((advance_reaches h).mono fun _ s₁ h₁ => ensures_bind.mpr ?_)
  refine (repeatFrom_ensures (fun path s' => ∃ read left : List Identifier, names = read ++ left ∧
    path = (ClassName.path first read).text ∧
      s.Reaches source (left.flatMap (fun name => [mark .dot, name.word]) ++ w :: rest) s')
    (Q := fun path s' => path = (ClassName.path first names).text ∧
      s.Reaches source (w :: rest) s')
    ⟨[], names, rfl, rfl, h₁⟩ ?_).mono ?_
  · rintro path s' ⟨read, left, rfl, rfl, hs'⟩
    cases left with
    | nil =>
      refine ensures_bind.mpr ((at?_miss hs'.toFacing hw).mono ?_)
      rintro found s'' ⟨rfl, rfl⟩
      refine ensures_bind.mpr (ensures_kindAfter.mpr ?_)
      rw [Bool.false_and, if_neg Bool.false_ne_true]
      exact ensures_pure.mpr ⟨by rw [List.append_nil], hs'⟩
    | cons name left =>
      refine ensures_bind.mpr ((at?_hit hs'.toFacing rfl).mono ?_)
      rintro found s'' ⟨rfl, rfl⟩
      refine ensures_bind.mpr (ensures_kindAfter.mpr ?_)
      have hname : (s''.draft.lookahead 1).kind = .ident :=
        Draft.kind_lookahead hs'.ahead (n := 1) (by simp)
      rw [hname, Bool.true_and, if_pos (beq_self_eq_true _)]
      refine ensures_bind.mpr ((advance_reaches hs'.toFacing).mono fun _ s₂ h₂ => ?_)
      refine ensures_bind.mpr (ensures_current.mpr (ensures_bind.mpr ?_))
      refine (advance_reaches h₂.toFacing).mono fun _ s₃ h₃ => ensures_pure.mpr ?_
      refine ⟨read ++ [name], left, by simp, ?_, hs'.trans (h₂.trans h₃)⟩
      have htext : s₂.draft.current.textIn source = name.text := h₂.toFacing.text
      rw [htext, ClassName.text, ClassName.text, List.foldl_append]
      rfl
  · rintro path s' ⟨rfl, hs'⟩
    exact ensures_pure.mpr ⟨rfl, hs'⟩

/-- The name of a class is read as it is written. -/
theorem type_reads (r : Rules) (className : ClassName) (hw : w.1 ≠ .dot)
    (h : s.Facing r.source (className.words ++ w :: rest)) :
    r.type.Ensures s fun type s' =>
      type.name = className.text ∧ s.Reaches r.source (w :: rest) s' := by
  unfold Rules.type
  refine ensures_bind.mpr ((openMarker_reaches h).mono fun m s₁ h₁ => ?_)
  refine ensures_bind.mpr (ensures_here.mpr (ensures_bind.mpr (ensures_kind.mpr ?_)))
  cases className with
  | builtin type known =>
    have hkind : s₁.draft.current.kind = TokenKind.ofWord type.name := h₁.toFacing.kind
    rw [hkind, known]
    refine ensures_bind.mpr ((advance_reaches h₁.toFacing).mono fun _ s₂ h₂ => ensures_bind.mpr ?_)
    refine (finish_reaches h₂.toFacing _ _ _).mono fun _ s₃ h₃ => ensures_pure.mpr ?_
    exact ⟨rfl, h₁.trans (h₂.trans h₃.1)⟩
  | path first names =>
    have hkind : s₁.draft.current.kind = .ident := h₁.toFacing.kind
    rw [hkind]
    refine ensures_bind.mpr ((dottedPath_reads first names hw h₁.toFacing).mono ?_)
    rintro path s₂ ⟨rfl, h₂⟩
    refine ensures_bind.mpr ((finish_reaches h₂.toFacing _ _ _).mono fun _ s₃ h₃ => ?_)
    exact ensures_pure.mpr ⟨rfl, h₁.trans (h₂.trans h₃.1)⟩

end Names

/-! ### What the productions are to read -/

/-- What a production leaves that has read an expression. -/
def Read (source : String) (s : ParseState) (rest : List Word) (e : Expr) (read : Parsed)
    (s' : ParseState) : Prop := s.Reaches source rest s' ∧ e.At s'.ast read.node

/-- The production reads the expression from these words, in front of what does not go on with an
    expression of this level. -/
def Rereads (source : String) (p : Production Parsed) (words : List Word) (level : Nat) (e : Expr) :
    Prop :=
  ∀ s rest, s.Facing source (words ++ rest) → Stops level rest → p.Ensures s (Read source s rest e)

/-- The productions that others refer to read what is printed. -/
structure Rules.RereadAll (r : Rules) : Prop where
  expr : ∀ e : Expr, Rereads r.source r.expr e.words 0 e
  unary : ∀ e : Expr, Rereads r.source r.unary (e.within 7 e.words) 7 e

theorem Read.after {source : String} {s₀ s s' : ParseState} {vs rest : List Word} {e : Expr}
    {read : Parsed} (h : s₀.Reaches source vs s) (k : Read source s rest e read s') :
    Read source s₀ rest e read s' := ⟨h.trans k.1, k.2⟩

section

variable {r : Rules} {s : ParseState} {rest : List Word} {w : Word}

/-- Expressions with commas between them are read up to the closing bracket. -/
theorem separated_reads (hr : r.RereadAll) (e : Expr) (es : List Expr) {closing : Word}
    (hclosing : closing.1 = .rightParen ∨ closing.1 = .rightSquare)
    (h : s.Facing r.source (Expr.argWords (e :: es) ++ closing :: rest)) :
    (separated (Parsed.node <$> r.expr)).Ensures s fun ids s' =>
      s.Reaches r.source (closing :: rest) s' ∧ Expr.AllAt s'.ast (e :: es) ids := by
  have hcloser : closing.1 ∈ [.comma, .rightParen, .rightSquare, .eof] := by
    rcases hclosing with hk | hk <;> rw [hk] <;> decide
  have hcomma : closing.1 ≠ .comma := by
    rcases hclosing with hk | hk <;> rw [hk] <;> exact TokenKind.noConfusion
  refine repeatFrom_ensures (fun (read : List NodeId) s' => ∃ (done : List Expr) (e' : Expr)
    (left : List Expr), e :: es = done ++ e' :: left ∧ Expr.AllAt s'.ast done read.reverse ∧
      s.Reaches r.source (Expr.argWords (e' :: left) ++ closing :: rest) s')
    ⟨[], e, es, rfl, rfl, h.reaches⟩ ?_
  rintro read s' ⟨done, e', left, heq, hdone, hs'⟩
  refine ensures_bind.mpr (ensures_map.mpr ?_)
  cases left with
  | nil =>
    have hfacing : s'.Facing r.source (e'.words ++ closing :: rest) := hs'.toFacing
    refine (hr.expr e' s' _ hfacing (.of_closer hcloser 0 rest)).mono fun p s₁ h₁ => ?_
    dsimp only
    refine ensures_bind.mpr ((accept_miss h₁.1.toFacing hcomma).mono ?_)
    rintro found s₂ ⟨rfl, rfl⟩
    rw [if_neg Bool.false_ne_true]
    refine ensures_pure.mpr ⟨hs'.trans h₁.1, ?_⟩
    rw [heq, List.reverse_cons]
    exact Expr.AllAt.concat h₁.2 (hdone.extends h₁.1.grown)
  | cons f left =>
    have hfacing : s'.Facing r.source
        (e'.words ++ mark .comma :: (Expr.argWords (f :: left) ++ closing :: rest)) := by
      have hs' := hs'.toFacing
      rw [Expr.argWords_cons, List.append_assoc] at hs'
      exact hs'
    refine (hr.expr e' s' _ hfacing (.of_closer (by decide) 0 _)).mono fun p s₁ h₁ => ?_
    dsimp only
    refine ensures_bind.mpr ((accept_hit h₁.1.toFacing rfl).mono ?_)
    rintro found s₂ ⟨rfl, h₂⟩
    rw [if_pos rfl]
    refine ensures_pure.mpr ⟨done ++ [e'], f, left, by rw [heq, List.append_assoc]; rfl, ?_,
      hs'.trans (h₁.1.trans h₂)⟩
    rw [List.reverse_cons]
    exact Expr.AllAt.concat (h₁.2.extends h₂.grown) ((hdone.extends h₁.1.grown).extends h₂.grown)

/-- Expressions in brackets are read with the brackets. -/
theorem args_reads (hr : r.RereadAll) (es : List Expr) {opening closing : TokenKind}
    (hclosing : closing = .rightParen ∨ closing = .rightSquare) (what : String)
    (h : s.Facing r.source (enclosed opening closing (Expr.argWords es) ++ rest)) :
    (r.args closing what).Ensures s fun ids s' =>
      s.Reaches r.source rest s' ∧ Expr.AllAt s'.ast es ids := by
  unfold Rules.args
  rw [enclosed_append] at h
  refine ensures_bind.mpr ((advance_reaches h).mono fun _ s₁ h₁ => ?_)
  extract_lets unread expected
  have hexpected (ids : List NodeId) {s₂ : ParseState}
      (h₂ : s.Reaches r.source (mark closing :: rest) s₂) (hids : Expr.AllAt s₂.ast es ids) :
      (expected () ids).Ensures s₂ fun ids s' =>
        s.Reaches r.source rest s' ∧ Expr.AllAt s'.ast es ids := by
    refine ensures_bind.mpr ((expect_reaches h₂.toFacing rfl what).mono ?_)
    rintro found s₃ ⟨-, h₃⟩
    exact ensures_pure.mpr ⟨h₂.trans h₃, hids.extends h₃.grown⟩
  cases es with
  | nil =>
    refine ensures_bind.mpr ((at?_hit h₁.toFacing rfl).mono ?_)
    rintro found s₂ ⟨rfl, rfl⟩
    rw [if_neg (by decide)]
    exact hexpected [] h₁ rfl
  | cons e es =>
    obtain ⟨v, vs, heq, hstart⟩ := e.argWords_start es
    have hv : v.1 ≠ closing := by
      intro hv
      rw [hv] at hstart
      rcases hclosing with rfl | rfl <;> cases hstart
    have hfacing : s₁.Facing r.source (v :: (vs ++ mark closing :: rest)) := by
      rw [← List.cons_append, ← heq]
      exact h₁.toFacing
    refine ensures_bind.mpr ((at?_miss hfacing hv).mono ?_)
    rintro found s₂ ⟨rfl, rfl⟩
    rw [if_pos (by decide)]
    refine ensures_bind.mpr ((separated_reads hr e es hclosing h₁.toFacing).mono
      fun ids s₃ h₃ => ?_)
    exact hexpected ids (h₁.trans h₃.1) h₃.2

/-! ### Primary expressions -/

/-- What is read of a primary expression that is a node by itself. -/
theorem simple_reads {e : Expr} {data : NodeData} (m : MarkerId) (t : Token)
    (h : s.Facing r.source (w :: rest)) (hat : ∀ ast id, ast.data? id = some data → e.At ast id) :
    (Rules.simple m t data).Ensures s (Read r.source s rest e) := by
  refine ensures_bind.mpr ((advance_reaches h).mono fun _ s₁ h₁ => ensures_bind.mpr ?_)
  refine (finish_reaches h₁.toFacing m t.offset data).mono fun n s₂ h₂ => ensures_pure.mpr ?_
  exact ⟨h₁.trans h₂.1, hat _ _ h₂.2⟩

theorem primary_identifier (name : Identifier) (h : s.Facing r.source (name.word :: rest)) :
    r.primary.Ensures s (Read r.source s rest (.identifier name)) := by
  unfold Rules.primary
  refine ensures_bind.mpr (ensures_current.mpr (ensures_bind.mpr ?_))
  refine (openMarker_reaches h).mono fun m s₁ h₁ => ?_
  have hkind : s.draft.current.kind = .ident := h.kind
  rw [hkind]
  refine (simple_reads m _ h₁.toFacing fun ast id hdata => ?_).mono fun _ _ => .after h₁
  exact hdata.trans (congrArg (fun text => some (NodeData.identifier text)) h.text)

theorem primary_literal (value : Constant) (h : s.Facing r.source (value.word :: rest)) :
    r.primary.Ensures s (Read r.source s rest (.literal value)) := by
  unfold Rules.primary
  refine ensures_bind.mpr (ensures_current.mpr (ensures_bind.mpr ?_))
  refine (openMarker_reaches h).mono fun m s₁ h₁ => ?_
  have hkind := h.kind
  have htext : r.text s.draft.current = value.word.2 := h.text
  cases value with
  | int value =>
    have hkind : s.draft.current.kind = .intLiteral := hkind
    have hvalue : intValue? (r.text s.draft.current) = some (value.val : Int) := by
      rw [htext]
      exact intValue?_repr value.isLt
    rw [hkind]
    refine ensures_bind.mpr ((advance_reaches h₁.toFacing).mono fun _ s₂ h₂ => ?_)
    rw [hvalue]
    refine ensures_bind.mpr ((finish_reaches h₂.toFacing m _ _).mono fun n s₃ h₃ => ?_)
    exact ensures_pure.mpr ⟨h₁.trans (h₂.trans h₃.1), h₃.2⟩
  | decimal whole fraction =>
    have hkind : s.draft.current.kind = .decimalLiteral := hkind
    rw [hkind]
    refine (simple_reads m _ h₁.toFacing fun ast id hdata => ?_).mono fun _ _ => .after h₁
    rw [htext, Constant.word, decimalDigits_written] at hdata
    exact hdata
  | str text =>
    have hkind : s.draft.current.kind = .stringLiteral := hkind
    rw [hkind]
    refine (simple_reads m _ h₁.toFacing fun ast id hdata => ?_).mono fun _ _ => .after h₁
    rw [htext, Constant.word, stringValue_quoted] at hdata
    exact hdata
  | bool value =>
    cases value with
    | true =>
      have hkind : s.draft.current.kind = .trueKw := hkind
      rw [hkind]
      exact (simple_reads (e := .literal (.bool true)) m _ h₁.toFacing fun _ _ hdata => hdata).mono
        fun _ _ => .after h₁
    | false =>
      have hkind : s.draft.current.kind = .falseKw := hkind
      rw [hkind]
      exact (simple_reads (e := .literal (.bool false)) m _ h₁.toFacing fun _ _ hdata => hdata).mono
        fun _ _ => .after h₁
  | null =>
    have hkind : s.draft.current.kind = .nullKw := hkind
    rw [hkind]
    exact (simple_reads (e := .literal .null) m _ h₁.toFacing fun _ _ hdata => hdata).mono
      fun _ _ => .after h₁

theorem primary_listLiteral (hr : r.RereadAll) (items : List Expr)
    (h : s.Facing r.source ((Expr.listLiteral items).words ++ rest)) :
    r.primary.Ensures s (Read r.source s rest (.listLiteral items)) := by
  unfold Rules.primary
  refine ensures_bind.mpr (ensures_current.mpr (ensures_bind.mpr ?_))
  refine (openMarker_reaches h).mono fun m s₁ h₁ => ?_
  have hkind : s.draft.current.kind = .leftSquare := h.kind
  rw [hkind]
  refine ensures_bind.mpr ((args_reads hr items (.inr rfl) _ h₁.toFacing).mono fun ids s₂ h₂ => ?_)
  refine ensures_bind.mpr ((finish_reaches h₂.1.toFacing m _ _).mono fun n s₃ h₃ => ?_)
  exact ensures_pure.mpr ⟨h₁.trans (h₂.1.trans h₃.1), ids, h₃.2, h₂.2.extends h₃.1.grown⟩

theorem primary_invokeNew (hr : r.RereadAll) (className : ClassName) (args : List Expr)
    (h : s.Facing r.source ((Expr.invokeNew className args).words ++ rest)) :
    r.primary.Ensures s (Read r.source s rest (.invokeNew className args)) := by
  unfold Rules.primary
  refine ensures_bind.mpr (ensures_current.mpr (ensures_bind.mpr ?_))
  refine (openMarker_reaches h).mono fun m s₁ h₁ => ?_
  have hkind : s.draft.current.kind = .newKw := h.kind
  rw [hkind]
  refine ensures_bind.mpr (ensures_bind.mpr ((advance_reaches h₁.toFacing).mono fun _ s₂ h₂ => ?_))
  have hclass : s₂.Facing r.source
      (className.words ++ (enclosed .leftParen .rightParen (Expr.argWords args) ++ rest)) := by
    rw [← List.append_assoc]
    exact h₂.toFacing
  refine ensures_bind.mpr ((type_reads r className TokenKind.noConfusion hclass).mono ?_)
  rintro type s₃ ⟨hname, h₃⟩
  refine ensures_bind.mpr ((at?_hit h₃.toFacing rfl).mono ?_)
  rintro found s₄ ⟨rfl, rfl⟩
  rw [if_pos rfl]
  refine ensures_bind.mpr ((args_reads hr args (.inl rfl) _ h₃.toFacing).mono fun ids s₅ h₅ => ?_)
  refine ensures_pure.mpr (ensures_bind.mpr ((finish_reaches h₅.1.toFacing m _ _).mono ?_))
  intro n s₆ h₆
  refine ensures_pure.mpr ⟨h₁.trans (h₂.trans (h₃.trans (h₅.1.trans h₆.1))), ids, ?_,
    h₅.2.extends h₆.1.grown⟩
  rw [h₆.2, hname]

/-- Parentheses leave what is in them. -/
theorem primary_parens (hr : r.RereadAll) (e : Expr)
    (h : s.Facing r.source (enclosed .leftParen .rightParen e.words ++ rest)) :
    r.primary.Ensures s (Read r.source s rest e) := by
  rw [enclosed_append] at h
  unfold Rules.primary
  refine ensures_bind.mpr (ensures_current.mpr (ensures_bind.mpr ?_))
  refine (openMarker_reaches h).mono fun m s₁ h₁ => ?_
  have hkind : s.draft.current.kind = .leftParen := h.kind
  rw [hkind]
  refine ensures_bind.mpr ((advance_reaches h₁.toFacing).mono fun _ s₂ h₂ => ?_)
  have hcloser : Stops 0 (mark .rightParen :: rest) := .of_closer (by decide) 0 rest
  refine ensures_bind.mpr ((hr.expr e s₂ _ h₂.toFacing hcloser).mono ?_)
  intro inner s₃ h₃
  refine ensures_bind.mpr ((expect_reaches h₃.1.toFacing rfl _).mono ?_)
  rintro found s₄ ⟨-, h₄⟩
  refine ensures_bind.mpr ((dissolve_reaches h₄.toFacing m).mono fun _ s₅ h₅ => ensures_pure.mpr ?_)
  exact ⟨h₁.trans (h₂.trans (h₃.1.trans (h₄.trans h₅))), (h₃.2.extends h₄.grown).extends h₅.grown⟩

/-! ### Loops -/

/-- An expression is read and then the loop goes on: whatever holds when the loop goes on from any
    place behind the expression holds when it goes on after `first`. -/
def LeadsOn (source : String) (first : Production Parsed)
    (step : Parsed → Production (Parsed ⊕ Parsed))
    (s : ParseState) (rest : List Word) (e : Expr) : Prop :=
  ∀ Q : Parsed → ParseState → Prop,
    (∀ left s', Read source s rest e left s' → ∀ n, (iterate step n left).Ensures s' Q) →
    first.Ensures s fun left s' => ∀ n, (iterate step n left).Ensures s' Q

section Loop

variable {source : String} {first : Production Parsed}
  {step : Parsed → Production (Parsed ⊕ Parsed)} {vs : List Word} {e left : Expr}

theorem LeadsOn.of_read (h : first.Ensures s (Read source s rest e)) :
    LeadsOn source first step s rest e :=
  fun _ hQ => h.mono fun left s' hs' => hQ left s' hs'

/-- A turn of the loop makes a larger expression out of the one before. -/
theorem LeadsOn.turn (h : LeadsOn source first step s vs left)
    (hstep : ∀ read s', Read source s vs left read s' → (step read).Ensures s' fun turned s'' =>
      ∃ next, turned = .inl next ∧ Read source s rest e next s'') :
    LeadsOn source first step s rest e := by
  intro Q hQ
  refine h Q fun read s' hs' n => ?_
  cases n with
  | zero => exact ensures_throw
  | succ n =>
    unfold iterate
    refine ensures_bind.mpr ((hstep read s' hs').mono ?_)
    rintro _ s'' ⟨next, rfl, hs''⟩
    exact hQ next s'' hs'' n

/-- The loop ends with the expression that it came to. -/
theorem LeadsOn.stop (h : LeadsOn source first step s rest e)
    (hstep : ∀ read s', Read source s rest e read s' → (step read).Ensures s' fun turned s'' =>
      turned = .inr read ∧ s'' = s') :
        (first >>= repeatFrom step).Ensures s (Read source s rest e) := by
  refine ensures_bind.mpr ((h (Read source s rest e) fun read s' hs' n => ?_).mono ?_)
  · cases n with
    | zero => exact ensures_throw
    | succ n =>
      unfold iterate
      refine ensures_bind.mpr ((hstep read s' hs').mono ?_)
      rintro _ s'' ⟨rfl, rfl⟩
      exact ensures_pure.mpr hs'
  · intro read s' hs'
    unfold repeatFrom
    exact ensures_bind.mpr (ensures_get.mpr (hs' _))

end Loop

/-! ### Calls and accesses -/

/-- What follows an expression: a call, or an access to a member. -/
def Rules.suffixStep (r : Rules) (start : Nat) (target : Parsed) :
    Production (Parsed ⊕ Parsed) := do
  match ← kind with
  | .leftParen =>
    let m ← openBefore target.marker
    let read ← r.args .rightParen "')'"
    return .inl ⟨m, ← finish m start (.call target.node read)⟩
  | .dot =>
    let m ← openBefore target.marker
    let data ← r.member target.node
    return .inl ⟨m, ← finish m start data⟩
  | _ => return .inr target

theorem Rules.suffixed_eq (r : Rules) : r.suffixed = (do
    let start ← here
    r.primary >>= repeatFrom (r.suffixStep start)) := rfl

variable {start : Nat} {read : Parsed} {s' : ParseState}

theorem suffixStep_call (hr : r.RereadAll) {callee : Expr} (args : List Expr)
    (h : Read r.source s (enclosed .leftParen .rightParen (Expr.argWords args) ++ rest) callee read
      s') : (r.suffixStep start read).Ensures s' fun turned s'' =>
      ∃ next, turned = .inl next ∧ Read r.source s rest (.call callee args) next s'' := by
  unfold Rules.suffixStep
  refine ensures_bind.mpr (ensures_kind.mpr ?_)
  have hkind : s'.draft.current.kind = .leftParen := h.1.toFacing.kind
  rw [hkind]
  refine ensures_bind.mpr ((openBefore_reaches h.1.toFacing _).mono fun m s₁ h₁ => ?_)
  refine ensures_bind.mpr ((args_reads hr args (.inl rfl) _ h₁.toFacing).mono fun ids s₂ h₂ => ?_)
  refine ensures_bind.mpr ((finish_reaches h₂.1.toFacing m _ _).mono fun n s₃ h₃ => ?_)
  have hgrown := h₁.trans (h₂.1.trans h₃.1)
  exact ensures_pure.mpr ⟨_, rfl, h.1.trans hgrown, read.node, ids, h₃.2, h.2.extends hgrown.grown,
    h₂.2.extends h₃.1.grown⟩

/-- The name after a dot. -/
theorem member_name (r : Rules) (name : Identifier) (target : NodeId)
    {Q : NodeData → ParseState → Prop} (h : s.Facing r.source (mark .dot :: name.word :: rest))
    (hQ : ∀ s', s.Reaches r.source rest s' → (do
      if ← at? .leftParen then
        return .methodCall target name.text (some (← r.args .rightParen "')'"))
      return .methodCall target name.text none : Production NodeData).Ensures s' Q) :
    (r.member target).Ensures s Q := by
  unfold Rules.member
  refine ensures_bind.mpr ((advance_reaches h).mono fun _ s₁ h₁ => ?_)
  refine ensures_bind.mpr (ensures_current.mpr (ensures_bind.mpr ?_))
  have htext : r.text s₁.draft.current = name.text := h₁.toFacing.text
  refine (expect_reaches h₁.toFacing rfl _).mono ?_
  rintro found s₂ ⟨rfl, h₂⟩
  rw [if_pos rfl]
  refine ensures_bind.mpr (ensures_pure.mpr ?_)
  rw [htext]
  exact hQ s₂ (h₁.trans h₂)

theorem suffixStep_methodCall (hr : r.RereadAll) {target : Expr} (name : Identifier)
    (args : List Expr) (h : Read r.source s (mark .dot :: name.word ::
      (enclosed .leftParen .rightParen (Expr.argWords args) ++ rest)) target read s') :
    (r.suffixStep start read).Ensures s' fun turned s'' => ∃ next, turned = .inl next ∧
      Read r.source s rest (.methodCall target name args) next s'' := by
  unfold Rules.suffixStep
  refine ensures_bind.mpr (ensures_kind.mpr ?_)
  have hkind : s'.draft.current.kind = .dot := h.1.toFacing.kind
  rw [hkind]
  refine ensures_bind.mpr ((openBefore_reaches h.1.toFacing _).mono fun m s₁ h₁ => ?_)
  refine ensures_bind.mpr (member_name r name read.node h₁.toFacing fun s₂ h₂ => ?_)
  refine ensures_bind.mpr ((at?_hit h₂.toFacing rfl).mono ?_)
  rintro found s₃ ⟨rfl, rfl⟩
  rw [if_pos rfl]
  refine ensures_bind.mpr ((args_reads hr args (.inl rfl) _ h₂.toFacing).mono fun ids s₄ h₄ => ?_)
  refine ensures_pure.mpr (ensures_bind.mpr ((finish_reaches h₄.1.toFacing m _ _).mono ?_))
  intro n s₅ h₅
  have hgrown := h₁.trans (h₂.trans (h₄.1.trans h₅.1))
  exact ensures_pure.mpr ⟨_, rfl, h.1.trans hgrown, read.node, ids, h₅.2, h.2.extends hgrown.grown,
    h₄.2.extends h₅.1.grown⟩

/-- A field is accessed where no bracket follows its name. -/
theorem suffixStep_field {target : Expr} (name : Identifier) (hw : w.1 ≠ .leftParen)
    (h : Read r.source s (mark .dot :: name.word :: w :: rest) target read s') :
    (r.suffixStep start read).Ensures s' fun turned s'' => ∃ next, turned = .inl next ∧
      Read r.source s (w :: rest) (.field target name) next s'' := by
  unfold Rules.suffixStep
  refine ensures_bind.mpr (ensures_kind.mpr ?_)
  have hkind : s'.draft.current.kind = .dot := h.1.toFacing.kind
  rw [hkind]
  refine ensures_bind.mpr ((openBefore_reaches h.1.toFacing _).mono fun m s₁ h₁ => ?_)
  refine ensures_bind.mpr (member_name r name read.node h₁.toFacing fun s₂ h₂ => ?_)
  refine ensures_bind.mpr ((at?_miss h₂.toFacing hw).mono ?_)
  rintro found s₃ ⟨rfl, rfl⟩
  rw [if_neg Bool.false_ne_true]
  refine ensures_pure.mpr (ensures_bind.mpr ((finish_reaches h₂.toFacing m _ _).mono ?_))
  intro n s₅ h₅
  have hgrown := h₁.trans (h₂.trans h₅.1)
  exact ensures_pure.mpr ⟨_, rfl, h.1.trans hgrown, read.node, h₅.2, h.2.extends hgrown.grown⟩

theorem suffixStep_stops (r : Rules) (start : Nat) (read : Parsed)
    (h : s.Facing r.source (w :: rest)) (hw : w.1 ≠ .leftParen ∧ w.1 ≠ .dot) :
    (r.suffixStep start read).Ensures s fun turned s' => turned = .inr read ∧ s' = s := by
  unfold Rules.suffixStep
  refine ensures_bind.mpr (ensures_kind.mpr ?_)
  rw [← h.kind] at hw
  split
  · next hk => exact absurd hk hw.1
  · next hk => exact absurd hk hw.2
  · exact ensures_pure.mpr ⟨rfl, rfl⟩

/-- A target or a callee is read, and the loop of calls and accesses goes on behind it.  Only a
    callee may have a bracket behind it. -/
theorem suffixes_lead (hr : r.RereadAll) (start : Nat) (e : Expr) {asked : Nat}
    (hasked : asked = 8 ∨ asked = 9) (hw : w.1 = .leftParen → asked = 9)
    (h : s.Facing r.source (e.within asked e.words ++ w :: rest)) :
    LeadsOn r.source r.primary (r.suffixStep start) s (w :: rest) e := by
  have hparens {e : Expr} {asked : Nat} {rest : List Word} (hlevel : e.level < asked)
      (h : s.Facing r.source (e.within asked e.words ++ rest)) :
      LeadsOn r.source r.primary (r.suffixStep start) s rest e := by
    rw [Expr.within_of_lt hlevel] at h
    exact .of_read (primary_parens hr e h)
  have hle : 8 ≤ asked ∧ asked ≤ 9 := by omega
  induction e using Expr.operand_induction generalizing asked w rest with
  | identifier name =>
    rw [Expr.within_of_le hle.2] at h
    exact .of_read (primary_identifier name h)
  | literal value =>
    rw [Expr.within_of_le hle.2] at h
    exact .of_read (primary_literal value h)
  | listLiteral items =>
    rw [Expr.within_of_le hle.2] at h
    exact .of_read (primary_listLiteral hr items h)
  | binary op left right _ _ =>
    exact hparens (Nat.lt_of_lt_of_le (Nat.lt_succ_of_le op.level_le) (by omega)) h
  | unary op operand _ => exact hparens (Nat.lt_of_lt_of_le (Nat.lt_succ_self 7) hle.1) h
  | call callee args ih =>
    rw [Expr.within_of_le hle.2, Expr.words_call, List.append_assoc] at h
    have hcallee := ih (.inr rfl) (fun _ => rfl) h (by decide)
    exact hcallee.turn fun read s' hread => suffixStep_call hr args hread
  | methodCall target name args ih =>
    rw [Expr.within_of_le hle.2, Expr.words_methodCall, List.append_assoc] at h
    have htarget := ih (.inl rfl) (by simp [mark]) h (by decide)
    exact htarget.turn fun read s' hread => suffixStep_methodCall hr name args hread
  | field target name ih =>
    rcases hasked with rfl | rfl
    · rw [Expr.within_of_le (Nat.le_refl 8), Expr.words_field, List.append_assoc] at h
      have htarget := ih (.inl rfl) (by simp [mark]) h (by decide)
      refine htarget.turn fun read s' hread => suffixStep_field name ?_ hread
      exact fun hparen => absurd (hw hparen) (by decide)
    · exact hparens (Nat.lt_succ_self 8) h
  | assign name value _ => exact hparens (Nat.lt_of_lt_of_le (by decide : 0 < 8) hle.1) h
  | invokeNew className args =>
    rw [Expr.within_of_le hle.2] at h
    exact .of_read (primary_invokeNew hr className args h)

theorem suffixed_rereads (hr : r.RereadAll) (e : Expr) :
    Rereads r.source r.suffixed (e.within 8 e.words) 7 e := by
  rintro s rest h ⟨w, more, rfl, hw⟩
  have hcall : w.1 ≠ .leftParen := fun hk => hw (.inl hk)
  have haccess : w.1 ≠ .dot := fun hk => hw (.inr (.inl hk))
  rw [r.suffixed_eq]
  refine ensures_bind.mpr (ensures_here.mpr ?_)
  refine (suffixes_lead hr _ e (.inl rfl) (fun hk => absurd hk hcall) h).stop
    fun read s' hread => ?_
  exact suffixStep_stops r _ read hread.1.toFacing ⟨hcall, haccess⟩

end

end ScriptAnalysis
