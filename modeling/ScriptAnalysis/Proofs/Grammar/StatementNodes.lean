import ScriptAnalysis.Grammar.Statement
import ScriptAnalysis.Proofs.Grammar.ExpressionNodes

/-!
# What statements and functions leave behind

Most statements are a marker around their parts.  Braces in place of a statement are recorded as a
closure first; if they turn out to be a plain block, the marker that was put around them stands for
the body.  A function leads to the name that stands behind its type.
-/

namespace ScriptAnalysis

open ParseState Production

namespace Rules

/-- The name that was read is the one to which its declaration leads: nothing before it can be taken
    for it, and if it is missing, nothing behind it either. -/
theorem ReadsName.names {s₁ s₂ s : ParseState} {name : String} {nameKind : NameKind}
    {j m : MarkerId} {p before after : List Event} {ts : List Token} {ast : Ast}
    {mk : MarkerId → Marker} {markers : Array Marker} {wanted : NodeKind → Bool}
    (hname : ReadsName s₁ s₂ name nameKind j ts) (k : Advances s₂ s) (hast : s.ast.Extends ast)
    (hp : p = before ++ leafEvents j ts ++ after) (hm : .start m ∉ p) (hbalanced : Balanced p)
    (hmk : ∀ j, j ≠ m → mk j = s.draft.marker j)
    (hmarkers : ∀ j, j ≠ m → markers.getD j {} = s.draft.marker j)
    (hfound : (mk m).nameMarker = findName markers wanted m (p ++ [.stop m]) [])
    (hbefore : Nameless s.draft.marker before) (hafter : Nameless s.draft.marker after)
    (hwanted : ∀ kind, wanted kind = true → kind.isName = true)
    (hkind : wanted (.ofName nameKind) = true) :
    Names ast mk m p name nameKind ∧
      (s₁.draft.current.kind ≠ .ident → (mk m).nameMarker = none) ∧
      (s₁.draft.current.kind = .ident → ∃ i, (mk m).nameMarker = some i ∧
        (mk i).offset = some s₁.draft.current.offset) := by
  subst hp
  have hne : ∀ i, .start i ∈ before ++ leafEvents j ts ++ after → i ≠ m := by
    rintro i hi rfl
    exact hm hi
  have hsame : s.draft.marker j = s₂.draft.marker j :=
    k.marker j (hname.leaf.reads.fresh j (by simp [leafEvents])).2
  have hagree : ∀ i, .start i ∈ before ++ leafEvents j ts ++ after →
      markers.getD i {} = s.draft.marker i := fun i hi => hmarkers i (hne i hi)
  have hstop : .stop m ∉ before ++ leafEvents j ts ++ after := mt hbalanced.start_mem hm
  rcases hname.found with ⟨hident, hempty, hnone⟩ | ⟨hident, hfirst, leaf, hdata, hmeans⟩
  · have hleaf : Nameless s.draft.marker (leafEvents j ts) :=
      .leaf ts (isNoName_of_none (by rw [hsame, hnone]))
    have hmarker : (mk m).nameMarker = none := by
      rw [hfound, ((hbefore.append hleaf).append hafter) _ hwanted _ _ _ _ hagree hstop,
        findName_stop]
    refine ⟨⟨fun _ => hempty, fun i hi => ?_⟩, fun _ => hmarker, fun hcur => absurd hcur hident⟩
    rw [hmarker] at hi
    cases hi
  · have hj : j ≠ m := hne j (by simp [leafEvents])
    have hmarker : (mk m).nameMarker = some j := by
      rw [hfound, List.append_assoc, List.append_assoc, hbefore _ hwanted _ _ _ _
        (fun i hi => hagree i (by simp [hi])) fun hmem => hstop (by simp [hmem])]
      refine findName_leaf ?_ ?_ ts _
      · rw [hmarkers j hj, hsame]
        simp [Marker.isDone, hmeans.state]
      · rw [hmarkers j hj, hsame, hmeans.kind]
        exact hkind
    have hmkj : mk j = s₂.draft.marker j := (hmk j hj).trans hsame
    refine ⟨⟨fun hnone => ?_, fun i hi => ?_⟩, fun hcur => absurd hident hcur,
      fun _ => ⟨j, hmarker, by rw [hmkj, hmeans.offset, hfirst]⟩⟩
    · rw [hmarker] at hnone
      cases hnone
    · obtain rfl := Option.some.inj (hmarker.symm.trans hi)
      exact ⟨before, ts, after, leaf, rfl, by simp [hfirst],
        hast.same (k.ast.same hdata (by simp)) (by simp), hmkj ▸ hmeans⟩

variable {r : Rules} {s : ParseState}

/-! ### Functions -/

theorem block_ensures (hr : r.Records) (h : s.Fit) :
    r.block.Ensures s fun n s' => ReadsSome s [n] s' ∧ s'.ast.IsBlock n := by
  have hfinish {m : MarkerId} {s₁ s₂ : ParseState} {stmts : List NodeId} (start : Nat)
      (hw : Inside m s s₁ [] []) (hstmts : ReadsAll Ast.IsStmt s₁ stmts s₂) :
      (finish m start (.block stmts)).Ensures s₂
        fun n s' => ReadsSome s [n] s' ∧ s'.ast.IsBlock n := by
    obtain ⟨q, hq⟩ := hw.reads hstmts.reads
    exact Ensures.mono (finish_plain_ensures hq rfl rfl (by simp [NodeKind.of?]) hstmts.all)
      fun n s' hs' => ⟨hs'.reads_some (by simp), stmts, hs'.found⟩
  unfold block
  simp only [ensures_bind, ensures_here]
  refine (openMarker_ensures h).mono fun m s₁ hs₁ => ?_
  have hw := hs₁.1
  refine (expect_reads hw.fit (by decide) _ _).mono fun found s₂ hs₂ => ?_
  split
  · simp only [ensures_bind]
    refine (statementsUntil_ensures hr hs₂.fit _).mono fun stmts s₃ hs₃ => ?_
    refine (expect_reads hs₃.fit (by decide) _ _).mono fun _ s₄ hs₄ => ?_
    exact hfinish _ hw ((hs₃.before hs₂).behind lasting_isStmt hs₄)
  · exact hfinish _ hw (.none hs₂)

/-- The declaration is allocated after its parts, and the statement around it leads to its name. -/
theorem close_fun_ensures {s₀ s₁ s₂ s₃ s₅ : ParseState} {m mt j : MarkerId} {tt ts : List Token}
    {after : List Event} {f : FunDecl} {span : Span}
    (hin : Inside m s₀ s₅ (leafEvents mt tt ++ leafEvents j ts ++ after) (f.params ++ [f.body]))
    (htype : ReadsType s₁ s₂ mt tt) (hname : ReadsName s₂ s₃ f.name f.nameKind j ts)
    (k : Advances s₃ s₅) (hafter : Nameless s₅.draft.marker after)
    (hident : s₂.draft.current.kind = .ident) (hoffset : f.nameOffset = s₂.draft.current.offset)
    (hparams : ∀ n ∈ f.params, s₅.ast.IsVar n) (hbody : s₅.ast.IsBlock f.body) :
    (close m (s₅.allocated (.funDeclExpr f) span).ast.size).Ensures
      ((s₅.allocated (.funDeclExpr f) span).allocated (.funDecl s₅.ast.size) span) fun _ s' =>
      ReadsSome s₀ [(s₅.allocated (.funDeclExpr f) span).ast.size] s' ∧
        s'.ast.IsFun (s₅.allocated (.funDeclExpr f) span).ast.size := by
  have hin' : Inside m s₀ s₅ (leafEvents mt tt ++ leafEvents j ts ++ after)
      ([] ++ (NodeData.funDeclExpr f).parts) := hin
  have hbare : Inside m s₀ (s₅.allocated (.funDeclExpr f) span)
      (leafEvents mt tt ++ leafEvents j ts ++ after) [s₅.ast.size] :=
    hin'.bare rfl (fun _ => rfl) ⟨hparams, hbody⟩ (fun hsolid => by cases hsolid)
  have hdecl := s₅.data?_allocated (.funDeclExpr f) span
  have hsame := (hname.leaf.reads.toAdvances.trans k).marker mt
    (htype.leaf.reads.fresh mt (by simp [leafEvents])).2
  have hbefore : Nameless s₅.draft.marker (leafEvents mt tt) :=
    .leaf tt (hsame ▸ htype.isNoName)
  refine Ensures.mono (close_ensures hbare hbare.recorded.laid (.refl _) (by simp) rfl
    (by simp [NodeKind.of?]) ⟨f, hdecl⟩ (fun hsolid => by cases hsolid) (by simp)
      (by simp) (by simp) ?_)
    fun _ s' hs' => ?_
  · rintro mk hmk ⟨markers, hmarkers, hfound⟩
    refine ⟨fun i hi => ?_, fun f' hf' => ?_⟩
    · rw [hmk i (hin.ne hi)]
      exact hin.recorded.unmarked i hi
    · rw [(extends_allocated _ _ span).same hdecl (by simp)] at hf'
      obtain rfl := NodeData.funDeclExpr.inj (Option.some.inj hf')
      have hwanted : ((fun kind => kind == .functionName || kind == .methodName) : NodeKind → Bool)
          (.ofName f.nameKind) = true := by
        unfold FunDecl.nameKind
        cases f.isMethod <;> rfl
      obtain ⟨hnames, -, hnamed⟩ := hname.names k ((extends_allocated _ _ _).trans
        (extends_allocated _ _ _)) rfl hin.not_mem hin.recorded.balanced hmk hmarkers hfound hbefore
        hafter (fun kind hwanted => by cases kind <;> cases hwanted <;> rfl) hwanted
      rw [← hoffset] at hnamed
      exact ⟨hnames, hnamed hident⟩
  · exact ⟨hs'.reads_some (by simp), _, f, hs'.found, hs'.ast.same hdecl (by simp)⟩

/-- A function that a look ahead told of has a name. -/
theorem funDecl_ensures (hr : r.Records) (h : s.Fit)
    (hshape : declarationShape? s.draft.ahead = some .function) (isMethod : Bool) :
    (r.funDecl isMethod).Ensures s fun n s' => ReadsSome s [n] s' ∧ s'.ast.IsFun n := by
  unfold funDecl
  simp only [ensures_bind, ensures_here]
  refine (openMarker_ensures h).mono fun m s₁ hs₁ => ?_
  have hw := hs₁.1
  rw [hw.ahead] at hshape
  obtain ⟨kinds, hkinds, hident⟩ := Draft.typeRest?_of_shape hshape
  refine (type_ensures hw.fit).mono fun returnType s₂ hs₂ => ?_
  obtain ⟨mt, tt, htype⟩ := hs₂
  rw [← htype.rest kinds hkinds, Draft.getElem?_kindsAhead (by decide)] at hident
  refine (name_ensures htype.leaf.reads.fit _).mono fun found s₃ hs₃ => ?_
  obtain ⟨htext, j, ts, hname⟩ := hs₃
  refine (params_ensures hr hname.leaf.reads.fit).mono fun declared s₄ hs₄ => ?_
  obtain ⟨hparams, hvar⟩ := hs₄
  refine (block_ensures hr hparams.fit).mono fun body s₅ hs₅ => ?_
  obtain ⟨hbody, hblock⟩ := hs₅
  simp only [ensures_spanFrom, ensures_alloc, ensures_pure]
  obtain ⟨after, hafter, hnafter⟩ := hparams.trans hbody
  have hin := hw.trans ((htype.leaf.reads.trans hname.leaf.reads).trans hafter)
  exact close_fun_ensures (f := ⟨found.1, found.2, returnType, declared, body, isMethod⟩) hin
    htype hname hafter.toAdvances hnafter hident (congrArg Prod.snd (htext hident))
    (fun n hn => hbody.ast.isVar (hvar n hn)) hblock

/-! ### Statements -/

theorem extends_plainBlock {ast : Ast} {n body : NodeId} {isBlock : Bool}
    (h : ast.data? n = some (.closure [] body isBlock)) : ast.Extends (ast.plainBlock n body) := by
  intro i data hdata
  have hspan : (ast.plainBlock n body).span i = ast.span i := by
    unfold Ast.span Ast.node? Ast.plainBlock Ast.modify
    rw [Array.getElem?_modify]
    split
    · next heq =>
      subst heq
      rw [Option.map_map]
      rfl
    · rfl
  refine ⟨hspan, ?_⟩
  rw [Ast.data?_plainBlock h]
  by_cases hi : n = i
  · subst hi
    obtain rfl := Option.some.inj (hdata.symm.trans h)
    exact ⟨_, if_pos rfl, .inr ⟨[], body, isBlock, true, rfl, rfl⟩⟩
  · exact ⟨data, (if_neg hi).trans hdata, .refl data⟩

theorem bracedStatement_ensures (hr : r.Records) (h : s.Fit) :
    r.bracedStatement.Ensures s fun n s' => ReadsAll Ast.IsStmt s [n] s' := by
  unfold bracedStatement
  simp only [ensures_bind]
  refine (expression_ensures hr h).mono fun braces s₁ hs₁ => ?_
  obtain ⟨p, hp⟩ := hs₁
  refine (openBefore_ensures h hp).mono fun m s₂ hs₂ => ?_
  obtain ⟨hw, hexpr⟩ := hs₂
  simp only [ensures_get]
  split
  · next body isBlock hclosure =>
    have hextends := extends_plainBlock hclosure
    obtain ⟨stmts, hbody⟩ := hw.recorded.closure_body (by simp) hclosure
    have hbody' : (s₂.ast.modify braces.node fun node =>
        { node with data := .closure [] body true }).data? body = some (.block stmts) :=
      hextends.same hbody (by simp)
    simp only [ensures_bind, ensures_modify, ensures_pure, ensures_close]
    intro d hd
    unfold Draft.closeWith at hd
    rw [hbody'] at hd
    have hc := Draft.closeAs_closes (d := s₂.draft) hw.new.2 hw.events hw.not_mem hd
    have hmeans : (d.marker m).Means body (.block stmts)
        (.start braces.marker :: p ++ [.stop braces.marker]) := hc.means rfl
    have hlast : ({ s₂ with ast := s₂.ast.plainBlock braces.node body } : ParseState).lastEnd =
        s₂.lastEnd := rfl
    have hpoint : s₂.point.Precedes
        ({ s₂ with ast := s₂.ast.plainBlock braces.node body } : ParseState).point :=
      ⟨Nat.le_of_eq (s₂.ast.size_plainBlock braces.node body).symm, Nat.le_refl _⟩
    have hnoVar : (d.marker m).kind ≠ some .varDecl := by
      rw [hc.kind_eq]
      decide
    -- The closure is new, and so is the body.
    obtain ⟨hnew, hbraces⟩ := hw.recorded.laid.mem_lt (List.mem_singleton_self braces.node)
    obtain ⟨hbody₀, hbodyLt⟩ := hw.severed.parts braces.node _ hnew hclosure body
      (by simp [NodeData.parts])
    have hkept : s.ast.Keeps (s₂.ast.plainBlock braces.node body) := by
      intro n data hn
      rw [Ast.data?_plainBlock hclosure, if_neg, hw.kept n data hn]
      rintro rfl
      exact Nat.lt_irrefl _ (Nat.lt_of_lt_of_le (Ast.lt_size_of_data? hn) hnew)
    refine .one (.of_done (hw.ends hlast hextends hkept hc.toCloses (fun hvar => absurd hvar hnoVar)
      (fun hrecorded => ?_) (hw.severed.plainBody hnew hclosure) fun n hn => ?_) hmeans.state
      (isNoName_of_means hmeans (by simp)) hw.recorded.balanced) ⟨_, hbody', rfl⟩
    rotate_left
    · obtain rfl := Option.some.inj (hmeans.node.symm.trans hn)
      refine ⟨by rw [hmeans.state]; decide, hbody₀, ?_⟩
      exact Nat.lt_of_lt_of_eq (Nat.lt_trans hbodyLt hbraces) (s₂.ast.size_plainBlock _ _).symm
    obtain ⟨-, data', hclosure', rfl | ⟨params, body', f, f', hdata, rfl⟩⟩ :=
      hextends braces.node _ hclosure
    · exact (Recorded.braces hrecorded hclosure' hbody' hmeans).le hpoint
    · cases hdata
      exact (Recorded.braces hrecorded hclosure' hbody' hmeans).le hpoint
  · simp only [ensures_bind, ensures_get, ensures_alloc, ensures_pure]
    exact Ensures.mono (close_plain_ensures hw rfl rfl (by simp [NodeKind.of?]) hexpr)
      fun _ s' hs' => .one (hs'.reads_some (by simp)) ⟨_, hs'.found, rfl⟩

theorem branch_ensures (hr : r.Records) (h : s.Fit) :
    r.branch.Ensures s fun n s' => ReadsAll Ast.IsStmt s [n] s' := by
  unfold branch
  simp only [ensures_bind]
  refine (hr.statement s h).mono fun stmt s₁ hs₁ => ?_
  cases stmt with
  | some stmt => exact ensures_pure.mpr hs₁
  | none =>
    simp only [ensures_bind, ensures_get, ensures_allocFrom]
    obtain ⟨p, hp, hnp⟩ := hs₁.reads
    have hp : Reads s s₁ p ([] ++ (NodeData.block []).parts) := hp
    exact .one ⟨p, hp.bare rfl (fun _ => rfl) (by simp [NodeData.Formed])
      (fun hsolid => by cases hsolid), hnp⟩ ⟨_, data?_allocated _ _ _, rfl⟩

theorem condition_ensures (hr : r.Records) (h : s.Fit) :
    r.condition.Ensures s fun n s' => ReadsAll Ast.IsExpr s [n] s' := by
  unfold condition
  simp only [ensures_bind, ensures_pure]
  refine (expect_reads h (by decide) _ _).mono fun _ s₁ hs₁ => ?_
  refine (expression_ensures hr hs₁.fit).mono fun cond s₂ hs₂ => ?_
  refine (expect_reads hs₂.reads.fit (by decide) _ _).mono fun _ s₃ hs₃ => ?_
  exact (hs₂.reads.before hs₁).behind lasting_isExpr hs₃

/-- After its parts were read inside its marker, a plain node is a construct of its own. -/
theorem finish_reads {s₀ : ParseState} {m : MarkerId} {ns : List NodeId} {data : NodeData}
    {s₁ : ParseState} {start : Nat} (hw : Inside m s₀ s₁ [] []) (hns : ReadsSome s₁ ns s)
    (hplain : isPlain data = true) (hparts : ns = data.parts) (hkind : NodeKind.of? data ≠ none)
    (hformed : data.Formed s.ast) : (finish m start data).Ensures s fun n s' =>
      ReadsSome s₀ [n] s' ∧ s'.ast.data? n = some data := by
  obtain ⟨q, hq⟩ := hw.reads hns
  refine (finish_plain_ensures hq hplain hparts hkind hformed).mono
    fun n s' hs' => ⟨hs'.reads_some ?_, hs'.found⟩
  rintro text kind rfl
  cases hplain

theorem finish_stmt {s₀ : ParseState} {m : MarkerId} {ns : List NodeId} {data : NodeData}
    {s₁ : ParseState} {start : Nat} (hw : Inside m s₀ s₁ [] []) (hns : ReadsSome s₁ ns s)
    (hplain : isPlain data = true) (hstmt : data.isStmt = true) (hparts : ns = data.parts)
    (hkind : NodeKind.of? data ≠ none) (hformed : data.Formed s.ast) :
    (finish m start data).Ensures s fun n s' => ReadsAll Ast.IsStmt s₀ [n] s' :=
  (finish_reads hw hns hplain hparts hkind hformed).mono
    fun _ _ hs' => .one hs'.1 ⟨data, hs'.2, hstmt⟩

theorem ifStatement_ensures (hr : r.Records) (h : s.Fit) :
    r.ifStatement.Ensures s fun n s' => ReadsAll Ast.IsStmt s [n] s' := by
  unfold ifStatement
  simp only [ensures_bind, ensures_here]
  refine (openMarker_ensures h).mono fun m s₁ hs₁ => ?_
  have hw := hs₁.1
  refine (advance_reads hw.fit).mono fun _ s₂ hs₂ => ?_
  refine (condition_ensures hr hs₂.fit).mono fun cond s₃ hs₃ => ?_
  refine (branch_ensures hr hs₃.fit).mono fun thenBranch s₄ hs₄ => ?_
  refine (accept_reads hs₄.fit (by decide)).mono fun found s₅ hs₅ => ?_
  have hcond := hs₃.before hs₂
  have hthen := hs₄.behind lasting_isStmt hs₅
  have hcond' := hthen.reads.ast.isExpr (hcond.all cond (by simp))
  have hread := hcond.reads.trans hthen.reads
  split
  · simp only [ensures_bind, ensures_map]
    refine (branch_ensures hr hs₅.fit).mono fun elseBranch s₆ hs₆ => ?_
    refine finish_stmt hw (hread.trans hs₆.reads) rfl rfl rfl (by simp [NodeKind.of?])
      ⟨hs₆.reads.ast.isExpr hcond', hs₆.reads.ast.isStmt (hthen.all thenBranch (by simp)), ?_⟩
    simpa using hs₆.all elseBranch (by simp)
  · simp only [ensures_bind, ensures_pure]
    exact finish_stmt hw hread rfl rfl rfl (by simp [NodeKind.of?])
      ⟨hcond', hthen.all thenBranch (by simp), by simp⟩

theorem whileStatement_ensures (hr : r.Records) (h : s.Fit) :
    r.whileStatement.Ensures s fun n s' => ReadsAll Ast.IsStmt s [n] s' := by
  unfold whileStatement
  simp only [ensures_bind, ensures_here]
  refine (openMarker_ensures h).mono fun m s₁ hs₁ => ?_
  have hw := hs₁.1
  refine (advance_reads hw.fit).mono fun _ s₂ hs₂ => ?_
  refine (condition_ensures hr hs₂.fit).mono fun cond s₃ hs₃ => ?_
  refine (branch_ensures hr hs₃.fit).mono fun body s₄ hs₄ => ?_
  have hcond := hs₃.before hs₂
  exact finish_stmt hw (hcond.reads.trans hs₄.reads) rfl rfl rfl (by simp [NodeKind.of?])
    ⟨hs₄.reads.ast.isExpr (hcond.all cond (by simp)), hs₄.all body (by simp)⟩

theorem returnStatement_ensures (hr : r.Records) (h : s.Fit) :
    r.returnStatement.Ensures s fun n s' => ReadsAll Ast.IsStmt s [n] s' := by
  unfold returnStatement
  simp only [ensures_bind, ensures_here]
  refine (openMarker_ensures h).mono fun m s₁ hs₁ => ?_
  have hw := hs₁.1
  refine (advance_reads hw.fit).mono fun _ s₂ hs₂ => ?_
  rw [ensures_kind]
  split
  · simp only [ensures_bind, ensures_map]
    refine (expression_ensures hr hs₂.fit).mono fun value s₃ hs₃ => ?_
    have hread := hs₃.reads.before hs₂
    refine finish_stmt hw hread.reads rfl rfl rfl (by simp [NodeKind.of?]) ?_
    simpa [NodeData.Formed] using hread.all
  · simp only [ensures_bind, ensures_pure]
    exact finish_stmt hw hs₂ rfl rfl rfl (by simp [NodeKind.of?]) (by simp [NodeData.Formed])

theorem expressionStatement_ensures (hr : r.Records) (h : s.Fit) :
    r.expressionStatement.Ensures s fun n s' => ReadsAll Ast.IsStmt s [n] s' := by
  unfold expressionStatement
  simp only [ensures_bind, ensures_here]
  refine (openMarker_ensures h).mono fun m s₁ hs₁ => ?_
  have hw := hs₁.1
  refine (expression_ensures hr hw.fit).mono fun expr s₂ hs₂ => ?_
  exact finish_stmt hw hs₂.reads.reads rfl rfl rfl (by simp [NodeKind.of?])
    (hs₂.reads.all _ (by simp))

/-- A lone semicolon has a node that belongs to nothing. -/
theorem emptyStatement_ensures (h : s.Fit) :
    emptyStatement.Ensures s fun _ s' => ReadsSome s [] s' := by
  unfold emptyStatement finish
  simp only [ensures_bind, ensures_here, ensures_allocFrom, ensures_pure]
  refine (openMarker_ensures h).mono fun m s₁ hs₁ => ?_
  refine (advance_reads hs₁.1.fit).mono fun _ s₂ hs₂ => ?_
  obtain ⟨q, hq, hnq⟩ := hs₁.1.nameless hs₂
  refine ensures_close.mpr fun d hd => ?_
  unfold Draft.closeWith at hd
  rw [s₂.data?_allocated] at hd
  obtain ⟨hc, -, -, hnode, hkind⟩ := Draft.close_closes hq.new.2 hd
  have hkind := hkind.trans hq.kind
  generalize (⟨s₁.draft.current.offset, max s₂.lastEnd s₁.draft.current.offset⟩ : Span) =
    span at hc ⊢
  have hle : s₂.point.Precedes (s₂.allocated .noop span).point :=
    ⟨(s₂.keeps_allocated .noop span).size_le, Nat.le_refl _⟩
  have hlast : (s₂.allocated .noop span).lastEnd = s₂.lastEnd := rfl
  refine ⟨_, hq.ends hlast (extends_allocated s₂ .noop span)
    (hq.kept.trans (keeps_allocated _ _ _)) hc (fun hvar => by cases hkind.symm.trans hvar)
    (fun hrecorded => (Recorded.hidden (hnode.trans hq.node) (by simp [hkind]) hrecorded).le hle)
    (hq.severed_allocated (by simp [NodeData.parts]) (by simp) (by simp))
    (fun n hn => by cases (hnode.trans hq.node).symm.trans hn), ?_⟩
  exact (hnq.congr fun id hid => hc.marker id (hq.ne hid)).wrap (isNoName_of_none hkind)

theorem strayToken_ensures (h : s.Fit) : r.strayToken.Ensures s fun _ s' => ReadsSome s [] s' := by
  unfold strayToken
  simp only [ensures_bind, ensures_kind]
  have hreport : (do let m ← openMarker; reportHere r.source m "expression").Ensures s
      fun _ s' => ReadsSome s [] s' := by
    rw [ensures_bind]
    exact (openMarker_ensures h).mono fun m s₁ hs₁ => reportHere_reads hs₁.1 (.tokens []) _ _
  split
  · exact hreport
  · exact hreport
  · exact skipUnexpected_reads h _ _

/-- A declaration only stands ahead where a variable may start. -/
theorem startsVar_of_shape {ahead : List Token} {shape : DeclarationShape}
    (h : declarationShape? ahead = some shape) : StartsVar ahead := by
  unfold declarationShape? at h
  obtain ⟨rest, hrest, -⟩ := Option.bind_eq_some_iff.mp h
  clear h
  unfold StartsVar
  induction ahead with
  | nil => cases hrest
  | cons t ts ih =>
    unfold afterType? at hrest
    unfold nthSignificant
    split at hrest
    · next htrivia =>
      rw [if_pos htrivia]
      exact ih hrest
    · next htrivia =>
      rw [if_neg htrivia]
      refine ⟨t, rfl, ?_⟩
      split at hrest
      · next hkeyword => exact .inr hkeyword
      · split at hrest
        · next hident => exact .inl hident
        · cases hrest

theorem plainStatement_ensures (hr : r.Records) (h : s.Fit) :
    r.plainStatement.Ensures s fun stmt s' => ReadsAll Ast.IsStmt s stmt.toList s' := by
  unfold plainStatement declarationShape
  simp only [ensures_bind, ensures_get, ensures_pure]
  split
  · next hshape =>
    rw [ensures_map]
    refine (funDecl_ensures hr h hshape _).mono fun n s' hs' => ?_
    obtain ⟨decl, f, hdata, -⟩ := hs'.2
    exact .one hs'.1 ⟨_, hdata, rfl⟩
  · next hshape =>
    rw [ensures_map]
    refine (varDecl_ensures hr h _ _ (.inl (startsVar_of_shape hshape)) (by simp)).mono
      fun n s' hs' => ?_
    obtain ⟨decl, v, hdata, -⟩ := hs'.2
    exact .one hs'.1 ⟨_, hdata, rfl⟩
  · simp only [ensures_bind, ensures_kind]
    split
    · rw [ensures_map]
      exact expressionStatement_ensures hr h
    · simp only [ensures_bind, ensures_pure]
      exact (strayToken_ensures h).mono fun _ _ hs' => .none hs'

theorem aStatement_ensures (hr : r.Records) (h : s.Fit) :
    r.aStatement.Ensures s fun stmt s' => ReadsAll Ast.IsStmt s stmt.toList s' := by
  have hsemicolon {stmt : Option NodeId} {s₁ : ParseState}
      (hstmt : ReadsAll Ast.IsStmt s stmt.toList s₁) :
      (do
        if stmt.isSome then
          let _ ← accept .semicolon
        return stmt : Production (Option NodeId)).Ensures s₁
        fun stmt s' => ReadsAll Ast.IsStmt s stmt.toList s' := by
    split
    · simp only [ensures_bind, ensures_pure]
      exact (accept_reads hstmt.fit (by decide)).mono fun _ s₂ hs₂ =>
        hstmt.behind lasting_isStmt hs₂
    · exact ensures_pure.mpr hstmt
  unfold aStatement
  simp only [ensures_bind, ensures_kind]
  split
  · simp only [ensures_bind, ensures_pure]
    refine (emptyStatement_ensures h).mono fun _ s₁ hs₁ => hsemicolon (.none hs₁)
  · simp only [ensures_bind, ensures_map]
    exact (bracedStatement_ensures hr h).mono fun _ s₁ hs₁ => hsemicolon hs₁
  · simp only [ensures_bind, ensures_map]
    exact (ifStatement_ensures hr h).mono fun _ s₁ hs₁ => hsemicolon hs₁
  · simp only [ensures_bind, ensures_map]
    exact (whileStatement_ensures hr h).mono fun _ s₁ hs₁ => hsemicolon hs₁
  · simp only [ensures_bind, ensures_map]
    exact (returnStatement_ensures hr h).mono fun _ s₁ hs₁ => hsemicolon hs₁
  · simp only [ensures_bind]
    exact (plainStatement_ensures hr h).mono fun _ s₁ hs₁ => hsemicolon hs₁

end Rules

end ScriptAnalysis
