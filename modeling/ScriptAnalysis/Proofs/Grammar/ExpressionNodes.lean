import ScriptAnalysis.Grammar.Expression
import ScriptAnalysis.Proofs.Grammar.DeclarationNodes

/-!
# What expressions leave behind

An expression is recorded in a marker of its own, around which an operator or a call may still be
put.  What stands in the marker records the parts of its node; the braces of a closure also record
its body, which has no marker.
-/

namespace ScriptAnalysis

open ParseState Production

/-- An expression was read. -/
def ReadsParsed (s : ParseState) (e : Parsed) (s' : ParseState) : Prop :=
  ∃ p, ReadsExpr s e.marker e.node s' p

theorem ReadsParsed.reads {s s' : ParseState} {e : Parsed} (h : ReadsParsed s e s') :
    ReadsAll Ast.IsExpr s [e.node] s' := by
  obtain ⟨p, hp⟩ := h
  exact .one ⟨_, hp.reads, hp.nameless⟩ hp.expr

namespace Production

variable {s₀ s s' : ParseState} {m : MarkerId} {p : List Event} {ns : List NodeId} {n : NodeId}
  {data : NodeData}

theorem EndsNode.expression (h : EndsNode s₀ s s' m p n data) (hw : Inside m s₀ s p ns)
    (hexpr : data.isExpr = true) : ReadsParsed s₀ ⟨m, n⟩ s' := by
  refine ⟨p, h.reads, hw.not_mem, h.resume, ?_, ?_, data, h.found, hexpr⟩
  · rw [h.means.kind]
    intro hvar
    obtain ⟨decl, rfl⟩ := of?_eq_varDecl hvar
    cases hexpr
  · refine .whole h.balanced h.means.state (isNoName_of_means h.means ?_)
    rintro text kind rfl
    cases hexpr

/-- An expression in a marker without a node. -/
theorem EndsHidden.expression (h : EndsHidden s₀ s s' m p [n]) (hw : Inside m s₀ s p [n])
    (hkind : (s'.draft.marker m).kind = none) (hp : Nameless s'.draft.marker p)
    (hn : s.ast.IsExpr n) : ReadsParsed s₀ ⟨m, n⟩ s' :=
  ⟨p, h.reads, hw.not_mem, h.resume, by simp [hkind], hp.wrap (isNoName_of_none hkind),
    by rw [h.ast]; exact hn⟩

/-- After the parts of a plain node its marker ends. -/
theorem finish_expression {start : Nat} (hw : Inside m s₀ s p ns) (hplain : isPlain data = true)
    (hexpr : data.isExpr = true) (hns : ns = data.parts) (hkind : NodeKind.of? data ≠ none)
    (hformed : data.Formed s.ast) :
    (finish m start data).Ensures s fun n s' => ReadsParsed s₀ ⟨m, n⟩ s' :=
  (finish_plain_ensures hw hplain hns hkind hformed).mono fun _ _ h => h.expression hw hexpr

end Production

namespace Rules

variable {r : Rules} {s : ParseState}

/-! ### Arguments, parameters and statements -/

theorem args_ensures (hr : r.Records) (h : s.Fit) {closing : TokenKind} (hclosing : closing ≠ .eof)
    (what : String) :
    (r.args closing what).Ensures s fun ns s' => ReadsAll Ast.IsExpr s ns s' := by
  unfold args
  simp only [ensures_bind]
  refine (advance_reads h).mono fun _ s₁ hs₁ => ?_
  rw [ensures_at?]
  split
  · simp only [ensures_bind]
    refine (separated_reads (I := fun _ => True) hs₁.fit trivial lasting_isExpr (fun _ _ => trivial)
      fun _ hs' _ => hr.expr_reads hs').mono fun ns s₂ hs₂ => ?_
    refine (expect_reads hs₂.fit hclosing _ _).mono fun _ s₃ hs₃ => ?_
    exact ensures_pure.mpr ((hs₂.before hs₁).behind lasting_isExpr hs₃)
  · simp only [ensures_bind]
    refine (expect_reads hs₁.fit hclosing _ _).mono fun _ s₂ hs₂ => ?_
    exact ensures_pure.mpr (.none (hs₁.trans hs₂))

theorem statementsUntil_ensures (hr : r.Records) (h : s.Fit) (stop : TokenKind) :
    (r.statementsUntil stop).Ensures s fun ns s' => ReadsAll Ast.IsStmt s ns s' := by
  unfold statementsUntil
  refine repeatFrom_ensures (fun read s' => ReadsAll Ast.IsStmt s read.reverse s')
    (.none (.refl h)) ?_
  intro read s₁ hread
  simp only [ensures_bind, ensures_at?, ensures_atEnd]
  split
  · exact ensures_pure.mpr hread
  · simp only [ensures_bind, ensures_current]
    refine (hr.statement s₁ hread.fit).mono fun stmt s₂ hs₂ => ?_
    refine (skipIfStuck_reads hs₂.fit _).mono fun _ s₃ hs₃ => ?_
    refine ensures_pure.mpr ?_
    have hnext := (hread.trans lasting_isStmt hs₂).behind lasting_isStmt hs₃
    have hlist : (stmt.toList ++ read).reverse = read.reverse ++ stmt.toList := by
      cases stmt <;> simp
    show ReadsAll Ast.IsStmt s (stmt.toList ++ read).reverse s₃
    rw [hlist]
    exact hnext

/-- Whether the attempt to read parameters is kept or taken back, what is left was read. -/
theorem closureParams_ensures (hr : r.Records) (h : s.Fit) :
    r.closureParams.Ensures s fun ns s' => ReadsAll Ast.IsVar s ns s' := by
  unfold closureParams
  simp only [ensures_bind, ensures_kind]
  split
  · exact ensures_pure.mpr (.none (.refl h))
  · next hnext =>
    have hstarts : StartsVar s.draft.ahead := startsVar_iff.mpr (by
      rw [Bool.and_eq_true, not_and_or] at hnext
      simpa using hnext)
    simp only [ensures_bind]
    refine (openMarker_ensures h).mono fun m s₁ hs₁ => ?_
    obtain ⟨hw, -, hlast⟩ := hs₁
    have hahead : s.draft.ahead = s₁.draft.ahead := hw.ahead
    simp only [ensures_get]
    refine (separated_param_ensures hr hw.fit (.inl (hahead ▸ hstarts))).mono
      fun declared s₂ hs₂ => ?_
    refine (accept_reads hs₂.fit (by decide)).mono fun found s₃ hs₃ => ?_
    have hread := hs₂.behind lasting_isVar hs₃
    split
    · simp only [ensures_bind, ensures_pure]
      exact closeGroup_reads hw hread
    · simp only [ensures_bind]
      rw [hlast]
      obtain ⟨q, hq⟩ := hw.reads hread.reads
      exact (undo_ensures h hq).mono fun _ s₄ hs₄ =>
        ensures_pure.mpr (.none ⟨_, hs₄, .tokens []⟩)

/-! ### Primary expressions -/

theorem closure_ensures {s₀ : ParseState} {m : MarkerId} (hr : r.Records)
    (hw : Inside m s₀ s [] []) : (r.closure m).Ensures s fun e s' => ReadsParsed s₀ e s' := by
  unfold closure
  simp only [ensures_bind, ensures_here]
  refine (advance_reads hw.fit).mono fun _ s₁ hs₁ => ?_
  refine (closureParams_ensures hr hs₁.fit).mono fun declared s₂ hs₂ => ?_
  refine (statementsUntil_ensures hr hs₂.fit _).mono fun stmts s₃ hs₃ => ?_
  refine (expect_reads hs₃.fit (by decide) _ _).mono fun _ s₄ hs₄ => ?_
  have hstmts := hs₃.behind lasting_isStmt hs₄
  obtain ⟨q, hq⟩ := hw.reads ((hs₁.trans hs₂.reads).trans hstmts.reads)
  have hq : Inside m s₀ s₄ q (declared ++ (NodeData.block stmts).parts) := by
    simpa [NodeData.parts] using hq
  simp only [ensures_spanFrom, ensures_alloc, ensures_pure]
  have hbody : Inside m s₀ (s₄.allocated (.block stmts)
      ⟨s.draft.current.offset, max s₄.lastEnd s.draft.current.offset⟩) q
      (declared ++ [s₄.ast.size]) :=
    hq.bare rfl (fun hsolid => by cases hsolid) hstmts.all (fun hsolid => by cases hsolid)
  refine Ensures.mono (close_ensures hbody hbody.recorded.laid (.refl _) (by simp) rfl
    (by simp [NodeKind.of?]) ⟨?_, ?_⟩ (fun hsolid => by cases hsolid) (by simp)
      (by simp) (by simp) ?_)
    fun _ s₅ hs₅ => hs₅.expression hbody rfl
  · intro n hn
    exact (extends_allocated _ _ _).isVar (hstmts.reads.ast.isVar (hs₂.all n hn))
  · exact ⟨stmts, data?_allocated _ _ _⟩
  · intro mk hmk _ j hj
    rw [hmk j (hq.ne hj)]
    exact hq.recorded.unmarked j hj

theorem invokeNew_ensures (hr : r.Records) (h : s.Fit) : r.invokeNew.Ensures s fun data s' =>
    ∃ className args, data = .invokeNew className args ∧ ReadsAll Ast.IsExpr s args s' := by
  unfold invokeNew
  simp only [ensures_bind]
  refine (advance_reads h).mono fun _ s₁ hs₁ => ?_
  refine (type_ensures hs₁.fit).mono fun type s₂ hs₂ => ?_
  obtain ⟨m, ts, htype⟩ := hs₂
  have hs₂ : ReadsSome s [] s₂ := hs₁.trans htype.reads_some
  rw [ensures_at?]
  split
  · rw [ensures_bind]
    refine (args_ensures hr hs₂.fit (by decide) _).mono fun read s₃ hs₃ => ?_
    exact ensures_pure.mpr ⟨_, read, rfl, hs₃.before hs₂⟩
  · rw [ensures_bind]
    refine (expect_reads hs₂.fit (by decide) _ _).mono fun _ s₃ hs₃ => ?_
    exact ensures_pure.mpr ⟨_, [], rfl, .none (hs₂.trans hs₃)⟩

/-- A fault in place of an expression means nothing. -/
theorem report_noop_ensures {s₀ : ParseState} {m : MarkerId} {p : List Event}
    (hw : Inside m s₀ s p []) (hp : Nameless s.draft.marker p) (message : String)
    (span noopSpan : Span) :
    (do report m message span; return ⟨m, ← alloc .noop noopSpan⟩ : Production Parsed).Ensures s
      fun e s' => ReadsParsed s₀ e s' := by
  simp only [ensures_bind, ensures_alloc, ensures_pure]
  refine ensures_record.mpr fun d hd => ?_
  obtain ⟨hc, hnode, hkind⟩ := Draft.closeError_closes hw.new.2 hd
  have hkind := hkind.trans hw.kind
  have hreads : Reads s₀ { s with draft := d } (.start m :: p ++ [.stop m])
      ([] ++ NodeData.noop.parts) := hw.ends_hidden hc hnode (by simp [hkind])
  refine ⟨p, hreads.bare rfl (fun _ => rfl) trivial (fun hsolid => by cases hsolid), hw.not_mem,
    hc.resume.trans hw.resume, ?_, ?_, .noop, data?_allocated _ _ _, rfl⟩
  · exact fun hvar => by cases hkind.symm.trans hvar
  · exact (hp.congr fun id hid => hc.marker id (hw.ne hid)).wrap (isNoName_of_none hkind)

theorem missingExpression_ensures {s₀ : ParseState} {m : MarkerId} (hw : Inside m s₀ s [] [])
    (t : Token) : (r.missingExpression m t).Ensures s fun e s' => ReadsParsed s₀ e s' := by
  unfold missingExpression
  dsimp only
  split
  · rw [ensures_bind]
    refine (advance_reads hw.fit).mono fun _ s₁ hs₁ => ?_
    obtain ⟨q, hq, hnq⟩ := hw.nameless hs₁
    exact report_noop_ensures hq hnq _ _ _
  · exact report_noop_ensures hw (.tokens []) _ _ _

theorem intLiteral_ensures {s₀ : ParseState} {m : MarkerId} (hw : Inside m s₀ s [] [])
    (t : Token) : (r.intLiteral m t).Ensures s fun e s' => ReadsParsed s₀ e s' := by
  unfold intLiteral
  rw [ensures_bind]
  refine (advance_reads hw.fit).mono fun _ s₁ hs₁ => ?_
  obtain ⟨q, hq, hnq⟩ := hw.nameless hs₁
  split
  · simp only [ensures_bind, ensures_pure]
    exact finish_expression hq rfl rfl rfl (by simp [NodeKind.of?]) trivial
  · exact report_noop_ensures hq hnq _ _ _

theorem simple_ensures {s₀ : ParseState} {m : MarkerId} {data : NodeData}
    (hw : Inside m s₀ s [] []) (hplain : isPlain data = true) (hexpr : data.isExpr = true)
    (hparts : data.parts = []) (hkind : NodeKind.of? data ≠ none)
    (hformed : ∀ ast, data.Formed ast) (t : Token) :
    (simple m t data).Ensures s fun e s' => ReadsParsed s₀ e s' := by
  unfold simple
  simp only [ensures_bind, ensures_pure]
  refine (advance_reads hw.fit).mono fun _ s₁ hs₁ => ?_
  obtain ⟨q, hq⟩ := hw.reads hs₁
  exact finish_expression hq hplain hexpr hparts.symm hkind (hformed _)

/-- A node that stands for the tokens from the next one to the last one consumed. -/
theorem finish_solid_ensures {s₀ s₁ : ParseState} {m : MarkerId} {p : List Event}
    {ns : List NodeId} {data : NodeData} {b : ParsePoint} (h : s₀.Fit) (hw : Inside m s₀ s₁ p ns)
    (hlt : s₀.draft.current.offset < s₁.lastEnd) (hlaid : Laid s₁.ast b ns s₁.point)
    (hb : s₀.point.Precedes b)
    (hlead : ∀ name value, data = .assign name value → s₀.draft.current.offset < b.text)
    (harranged : data.Arranged ns) (hkind : NodeKind.of? data ≠ none) (hformed : data.Formed s₁.ast)
    (hexpr : data.isExpr = true) (hsolid : data.isSolid = true)
    (hshown : ∀ ast mk, data.Shown ast mk m p) :
    (finish m s₀.draft.current.offset data).Ensures s₁ fun n s' => ReadsParsed s₀ ⟨m, n⟩ s' := by
  have hspans : Spans s₀ s₁ data
      ⟨s₀.draft.current.offset, max s₁.lastEnd s₀.draft.current.offset⟩ := by
    intro _
    have hle := h.lastEnd_le
    dsimp only
    omega
  unfold finish
  simp only [ensures_bind, ensures_allocFrom, ensures_pure]
  refine Ensures.mono (close_ensures hw hlaid hb hlead harranged hkind hformed hspans ?_ ?_
    ?_ fun mk _ _ => hshown _ mk) fun _ s' hs' => hs'.expression hw hexpr
  · rintro decl rfl
    cases hexpr
  · rintro params body rfl
    cases hsolid
  · rintro decl rfl
    cases hexpr

theorem identifier_ensures {s₀ : ParseState} {m : MarkerId} (h : s₀.Fit)
    (hw : Inside m s₀ s [] []) (hcur : s.draft.current = s₀.draft.current)
    (hk : s.draft.current.kind ≠ .eof) (name : String) :
    (simple m s₀.draft.current (.identifier name)).Ensures s
      fun e s' => ReadsParsed s₀ e s' := by
  unfold simple
  simp only [ensures_bind, ensures_pure]
  refine (advance_ensures hw.fit hk).mono fun _ s₁ hs₁ => ?_
  obtain ⟨p, hp, -, -⟩ := hs₁
  have hin := hw.trans hp.reads
  refine finish_solid_ensures h hin ?_ hin.recorded.laid (.refl _) (by simp) rfl
    (by simp [NodeKind.of?]) trivial rfl rfl fun _ _ => ⟨hp.significant, hp.tokens⟩
  rw [← hcur]
  exact hp.lt_lastEnd

/-- The expression in parentheses is the expression of the marker around them. -/
theorem parentheses_ensures {s₀ : ParseState} {m : MarkerId} (hr : r.Records)
    (hw : Inside m s₀ s [] []) : (do
      advance
      let inner ← r.expr
      let _ ← expect r.source .rightParen "')'"
      dissolve m
      return ⟨m, inner.node⟩ : Production Parsed).Ensures s
      fun e s' => ReadsParsed s₀ e s' := by
  simp only [ensures_bind, ensures_pure]
  refine (advance_reads hw.fit).mono fun _ s₁ hs₁ => ?_
  refine (hr.expr s₁ hs₁.fit).mono fun inner s₂ hs₂ => ?_
  have hinner := ReadsParsed.reads hs₂
  refine (expect_reads hinner.fit (by decide) _ _).mono fun _ s₃ hs₃ => ?_
  have hread := (hinner.before hs₁).behind lasting_isExpr hs₃
  obtain ⟨q, hq, hnq⟩ := hw.nameless hread.reads
  refine (dissolve_ensures hq).mono fun _ s₄ hs₄ => ?_
  obtain ⟨hhidden, hkind, hmarker⟩ := hs₄
  exact hhidden.expression hq hkind (hnq.congr fun id hid => hmarker id (hq.ne hid))
    (hread.all inner.node (by simp))

theorem primary_ensures (hr : r.Records) (h : s.Fit) :
    r.primary.Ensures s fun e s' => ReadsParsed s e s' := by
  unfold primary
  simp only [ensures_bind, ensures_current]
  refine (openMarker_ensures h).mono fun m s₁ hs₁ => ?_
  obtain ⟨hw, hcur, -⟩ := hs₁
  have hliteral (literal : Literal) :
      (simple m s.draft.current (.literal literal)).Ensures s₁
        fun e s' => ReadsParsed s e s' :=
    simple_ensures hw rfl rfl rfl (by simp [NodeKind.of?])
      (fun ast => show NodeData.Formed ast (.literal literal) from trivial) _
  split
  · exact intLiteral_ensures hw _
  · exact hliteral _
  · exact hliteral _
  · exact hliteral _
  · exact hliteral _
  · exact hliteral _
  · next hident =>
    refine identifier_ensures h hw hcur ?_ _
    rw [hcur, hident]
    decide
  · exact parentheses_ensures hr hw
  · simp only [ensures_bind, ensures_pure]
    refine (args_ensures hr hw.fit (by decide) _).mono fun items s₂ hs₂ => ?_
    obtain ⟨q, hq⟩ := hw.reads hs₂.reads
    exact finish_expression hq rfl rfl rfl (by simp [NodeKind.of?]) hs₂.all
  · exact closure_ensures hr hw
  · simp only [ensures_bind, ensures_pure]
    refine (invokeNew_ensures hr hw.fit).mono fun data s₂ hs₂ => ?_
    obtain ⟨className, args, rfl, hargs⟩ := hs₂
    obtain ⟨q, hq⟩ := hw.reads hargs.reads
    exact finish_expression hq rfl rfl rfl (by simp [NodeKind.of?]) hargs.all
  · exact missingExpression_ensures hw _

/-! ### Calls and operators -/

theorem member_ensures (hr : r.Records) (h : s.Fit) (target : NodeId) :
    (r.member target).Ensures s fun data s' => ∃ name args,
      data = .methodCall target name args ∧ ReadsAll Ast.IsExpr s (args.getD []) s' := by
  unfold member
  simp only [ensures_bind, ensures_current]
  refine (advance_reads h).mono fun _ s₁ hs₁ => ?_
  refine (expect_reads hs₁.fit (by decide) _ _).mono fun found s₂ hs₂ => ?_
  have hnamed : ReadsSome s [] s₂ := hs₁.trans hs₂
  have hrest (name : String) : (do
      if ← at? .leftParen then
        return .methodCall target name (some (← r.args .rightParen "')'"))
      return .methodCall target name none : Production NodeData).Ensures s₂ fun data s' =>
        ∃ name args, data = .methodCall target name args ∧
          ReadsAll Ast.IsExpr s (args.getD []) s' := by
    simp only [ensures_bind, ensures_at?]
    split
    · simp only [ensures_bind, ensures_pure]
      refine (args_ensures hr hnamed.fit (by decide) _).mono fun read s₃ hs₃ => ?_
      exact ⟨name, some read, rfl, hs₃.before hnamed⟩
    · exact ensures_pure.mpr ⟨name, none, rfl, .none hnamed⟩
  split
  · rw [pure_bind]
    exact hrest _
  · rw [pure_bind]
    exact hrest _

/-- What is ready to become a node around the expression `e` that was read from `s₀` on, as soon as
    the rest of its parts was read. -/
structure Wraps (s₀ : ParseState) (e : Parsed) (m : MarkerId) (s₁ : ParseState) : Prop where
  fit : s₁.Fit
  expr : s₁.ast.IsExpr e.node
  finish : ∀ (start : Nat) (data : NodeData) (parts : List NodeId) (s₂ : ParseState),
    data.parts = e.node :: parts → isPlain data = true → data.isExpr = true →
    NodeKind.of? data ≠ none → data.Formed s₂.ast → ReadsSome s₁ parts s₂ →
    (finish m start data).Ensures s₂ fun n s' => ReadsParsed s₀ ⟨m, n⟩ s'

theorem openBefore_wraps {s₀ : ParseState} {e : Parsed} (h : s₀.Fit)
    (he : ReadsParsed s₀ e s) : (openBefore e.marker).Ensures s fun m s' => Wraps s₀ e m s' := by
  obtain ⟨p, hp⟩ := he
  refine (openBefore_ensures h hp).mono fun m s₁ hs₁ => ?_
  refine ⟨hs₁.1.fit, hs₁.2, ?_⟩
  intro start data parts s₂ hparts hplain hexpr hkind hformed hread
  obtain ⟨q, hq⟩ := hs₁.1.reads hread
  exact finish_expression hq hplain hexpr hparts.symm hkind hformed

theorem suffixed_ensures (hr : r.Records) (h : s.Fit) :
    r.suffixed.Ensures s fun e s' => ReadsParsed s e s' := by
  unfold suffixed
  simp only [ensures_bind, ensures_here]
  refine (primary_ensures hr h).mono fun e s₁ he => ?_
  refine repeatFrom_ensures (ReadsParsed s) he fun target s₂ htarget => ?_
  simp only [ensures_bind, ensures_kind]
  split
  · simp only [ensures_bind, ensures_pure]
    refine (openBefore_wraps h htarget).mono fun m s₃ hm => ?_
    refine (args_ensures hr hm.fit (by decide) _).mono fun read s₄ hread => ?_
    exact hm.finish _ _ read s₄ rfl rfl rfl (by simp [NodeKind.of?])
      ⟨hread.reads.ast.isExpr hm.expr, hread.all⟩ hread.reads
  · simp only [ensures_bind, ensures_pure]
    refine (openBefore_wraps h htarget).mono fun m s₃ hm => ?_
    refine (member_ensures hr hm.fit _).mono fun data s₄ hdata => ?_
    obtain ⟨name, args, rfl, hargs⟩ := hdata
    exact hm.finish _ _ (args.getD []) s₄ rfl rfl rfl (by simp [NodeKind.of?])
      ⟨hargs.reads.ast.isExpr hm.expr, hargs.all⟩ hargs.reads
  · exact ensures_pure.mpr htarget

theorem operand_ensures (hr : r.Records) (h : s.Fit) :
    r.operand.Ensures s fun e s' => ReadsParsed s e s' := by
  unfold operand
  simp only [ensures_bind, ensures_kind]
  split
  · exact suffixed_ensures hr h
  · simp only [ensures_bind, ensures_here, ensures_pure]
    refine (openMarker_ensures h).mono fun m s₁ hs₁ => ?_
    have hw := hs₁.1
    refine (advance_reads hw.fit).mono fun _ s₂ hs₂ => ?_
    refine (hr.unary s₂ hs₂.fit).mono fun inner s₃ hinner => ?_
    have hread := (ReadsParsed.reads hinner).before hs₂
    obtain ⟨q, hq⟩ := hw.reads hread.reads
    exact finish_expression hq rfl rfl rfl (by simp [NodeKind.of?]) (hread.all _ (by simp))

/-- Operands and operators of one level after the other, by induction on the levels. -/
theorem binary_ensures (hr : r.Records) (levels : List (List (TokenKind × BinaryOp)))
    (h : s.Fit) : (r.binary levels).Ensures s fun e s' => ReadsParsed s e s' := by
  induction levels generalizing s with
  | nil => exact operand_ensures hr h
  | cons operators tighter ih =>
    unfold binary
    simp only [ensures_bind, ensures_here]
    refine (ih h).mono fun first s₁ hfirst => ?_
    refine repeatFrom_ensures (ReadsParsed s) hfirst fun left s₂ hleft => ?_
    simp only [ensures_bind, ensures_kind]
    split
    · exact ensures_pure.mpr hleft
    · simp only [ensures_bind, ensures_pure]
      refine (openBefore_wraps h hleft).mono fun m s₃ hm => ?_
      refine (advance_reads hm.fit).mono fun _ s₄ hs₄ => ?_
      refine (ih hs₄.fit).mono fun right s₅ hright => ?_
      have hread := hright.reads.before hs₄
      exact hm.finish _ _ [right.node] s₅ rfl rfl rfl (by simp [NodeKind.of?])
        ⟨hread.reads.ast.isExpr hm.expr, hread.all _ (by simp)⟩ hread.reads

theorem expression_ensures (hr : r.Records) (h : s.Fit) :
    r.expression.Ensures s fun e s' => ReadsParsed s e s' := by
  unfold expression
  simp only [ensures_bind, ensures_at?, ensures_kindAfter]
  split
  · next hat =>
    have hident : s.draft.current.kind = .ident := by
      simpa [Draft.at?] using (Bool.and_eq_true _ _ |>.mp hat).1
    simp only [ensures_bind, ensures_current, ensures_pure]
    refine (openMarker_ensures h).mono fun m s₁ hs₁ => ?_
    obtain ⟨hw, hcur, -⟩ := hs₁
    have hk : s₁.draft.current.kind ≠ .eof := by
      rw [hcur, hident]
      decide
    refine (advance_ensures hw.fit hk).mono fun _ s₂ hs₂ => ?_
    obtain ⟨p, hp, -, -⟩ := hs₂
    refine (advance_reads hp.reads.fit).mono fun _ s₃ hs₃ => ?_
    refine (hr.expr s₃ hs₃.fit).mono fun value s₄ hvalue => ?_
    have hread := (ReadsParsed.reads hvalue).before hs₃
    obtain ⟨q, hq, -⟩ := hread.reads
    have hlead : s.draft.current.offset < s₂.point.text := hcur ▸ hp.lt_lastEnd
    rw [hcur]
    refine finish_solid_ensures h ((hw.trans hp.reads).trans hq) ?_ hq.recorded.laid ?_
      (fun _ _ _ => hlead) rfl (by simp [NodeKind.of?]) (hread.all _ (by simp)) rfl rfl
      fun _ _ => trivial
    · exact Nat.lt_of_lt_of_le hlead hq.recorded.precedes.text
    · exact (hw.trans hp.reads).recorded.precedes
  · exact binary_ensures hr binaryLevels h

end Rules

end ScriptAnalysis
