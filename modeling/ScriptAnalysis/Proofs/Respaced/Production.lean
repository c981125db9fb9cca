import ScriptAnalysis.Proofs.Grammar.Outcome
import ScriptAnalysis.Proofs.Respaced.Draft

/-!
# Productions on texts that differ in trivia

`Respaced text text' R p q` says that `p`, run on the one text, and `q`, run on the other, answer by
`R` and leave recordings and arenas that are alike, if both succeed from such.  The arenas differ
only in spans and in the offsets of names (`Ast.Respaced`).

Offsets may be anything, so nothing is asked of answers that are offsets or spans; tokens have to be
at the same place, which is what makes a loop that compares tokens to see whether it got on go on in
both runs.
-/

namespace ScriptAnalysis

/-- What a node means, without the place of a name. -/
def NodeData.placeless : NodeData → NodeData
  | .varDeclExpr decl => .varDeclExpr { decl with nameOffset := 0 }
  | .funDeclExpr decl => .funDeclExpr { decl with nameOffset := 0 }
  | data => data

/-- Arenas with the same nodes, up to the places of nodes and names. -/
structure Ast.Respaced (ast ast' : Ast) : Prop where
  size : ast.size = ast'.size
  data : ∀ id, (ast.data? id).map NodeData.placeless = (ast'.data? id).map NodeData.placeless

/-- States at the same place in parses of two texts. -/
structure ParseState.Respaced (text text' : String) (s t : ParseState) : Prop where
  draft : s.draft.Respaced text text' t.draft
  ast : s.ast.Respaced t.ast

/-! ### Meanings -/

/-- Only declarations tell the place of a name. -/
inductive NodeData.SameBut : NodeData → NodeData → Prop
  | same (data : NodeData) : SameBut data data
  | varDecl {decl decl' : VarDecl} (offset : Nat) :
      decl' = { decl with nameOffset := offset } →
      SameBut (.varDeclExpr decl) (.varDeclExpr decl')
  | funDecl {decl decl' : FunDecl} (offset : Nat) :
      decl' = { decl with nameOffset := offset } →
      SameBut (.funDeclExpr decl) (.funDeclExpr decl')

theorem NodeData.sameBut {data data' : NodeData} (h : data.placeless = data'.placeless) :
    SameBut data data' := by
  cases data with
  | varDeclExpr decl =>
    cases data' with
    | varDeclExpr decl' =>
      obtain ⟨name, offset, type, init, role⟩ := decl
      obtain ⟨name', offset', type', init', role'⟩ := decl'
      simp only [placeless, NodeData.varDeclExpr.injEq, VarDecl.mk.injEq, true_and] at h
      obtain ⟨rfl, rfl, rfl, rfl⟩ := h
      exact .varDecl offset' rfl
    | _ => cases h
  | funDeclExpr decl =>
    cases data' with
    | funDeclExpr decl' =>
      obtain ⟨name, offset, type, params, body, isMethod⟩ := decl
      obtain ⟨name', offset', type', params', body', isMethod'⟩ := decl'
      simp only [placeless, NodeData.funDeclExpr.injEq, FunDecl.mk.injEq, true_and] at h
      obtain ⟨rfl, rfl, rfl, rfl, rfl⟩ := h
      exact .funDecl offset' rfl
    | _ => cases h
  | _ =>
    cases data' <;> cases h
    exact .same _

theorem NodeData.SameBut.kind {data data' : NodeData} (h : SameBut data data') :
    NodeKind.of? data = NodeKind.of? data' := by
  cases h <;> rfl

namespace Ast.Respaced

variable {ast ast' : Ast}

/-- The meanings of a node in both arenas. -/
theorem cases (h : ast.Respaced ast') (id : NodeId) :
    (ast.data? id = none ∧ ast'.data? id = none) ∨
      ∃ data data', ast.data? id = some data ∧ ast'.data? id = some data' ∧ data.SameBut data' := by
  have hdata := h.data id
  cases hd : ast.data? id with
  | none =>
    rw [hd, Option.map_none, eq_comm, Option.map_eq_none_iff] at hdata
    exact .inl ⟨rfl, hdata⟩
  | some data =>
    rw [hd, Option.map_some, eq_comm, Option.map_eq_some_iff] at hdata
    obtain ⟨data', hd', heq⟩ := hdata
    exact .inr ⟨data, data', rfl, hd', NodeData.sameBut heq.symm⟩

theorem kind (h : ast.Respaced ast') (id : NodeId) :
    (ast.data? id).bind NodeKind.of? = (ast'.data? id).bind NodeKind.of? := by
  rcases h.cases id with ⟨hd, hd'⟩ | ⟨data, data', hd, hd', hsame⟩
  · rw [hd, hd']
  · rw [hd, hd']
    exact hsame.kind

theorem alloc (h : ast.Respaced ast') {data data' : NodeData}
    (hdata : data.placeless = data'.placeless) (span span' : Span) :
    (ast.alloc data span).2.Respaced (ast'.alloc data' span').2 where
  size := by
    have hsize := h.size
    unfold Ast.size at hsize
    simp [Ast.alloc, Ast.size, hsize]
  data id := by
    have hsize : ast.nodes.size = ast'.nodes.size := h.size
    have hold := h.data id
    unfold Ast.data? Ast.node? at hold ⊢
    simp only [Ast.alloc, Array.getElem?_push, hsize]
    split
    · simp [hdata]
    · exact hold

theorem setData (h : ast.Respaced ast') (node : NodeId) (data : NodeData) :
    (ast.modify node fun n => { n with data }).Respaced
      (ast'.modify node fun n => { n with data }) where
  size := by
    have hsize := h.size
    unfold Ast.size at hsize
    simp [Ast.modify, Ast.size, hsize]
  data id := by
    have hold := h.data id
    unfold Ast.data? Ast.node? at hold ⊢
    simp only [Ast.modify, Array.getElem?_modify]
    split
    · cases hn : ast.nodes[id]? with
      | none =>
        cases hn' : ast'.nodes[id]? with
        | none => rfl
        | some n' => simp [hn, hn'] at hold
      | some n =>
        cases hn' : ast'.nodes[id]? with
        | none => simp [hn, hn'] at hold
        | some n' => rfl
    · exact hold

end Ast.Respaced

namespace Production

variable {text text' : String} {α β γ δ : Type} {R : α → β → Prop} {S : γ → δ → Prop}
  {p : Production α} {q : Production β}

/-- From states at the same place the productions answer by `R` and go on to the same place. -/
def Respaced (text text' : String) (R : α → β → Prop) (p : Production α) (q : Production β) :
    Prop :=
  ∀ s t : ParseState, s.Respaced text text' t →
    p.Ensures s fun a s' => q.Ensures t fun b t' => R a b ∧ s'.Respaced text text' t'

/-! ### Sequences -/

theorem respaced_pure {a : α} {b : β} (h : R a b) :
    Respaced text text' R (pure a) (pure b) :=
  fun _ _ hst => ensures_pure.mpr (ensures_pure.mpr ⟨h, hst⟩)

theorem respaced_bind {f : α → Production γ} {g : β → Production δ}
    (hp : Respaced text text' R p q)
    (hf : ∀ a b, R a b → Respaced text text' S (f a) (g b)) :
    Respaced text text' S (p >>= f) (q >>= g) := by
  intro s t hst
  refine ensures_bind.mpr fun a s' ha c s'' hc => ensures_bind.mpr fun b t' hb d t'' hd => ?_
  obtain ⟨hab, hst'⟩ := hp s t hst a s' ha b t' hb
  exact hf a b hab s' t' hst' c s'' hc d t'' hd

/-- After answers that are the same. -/
theorem respaced_bind_eq {p q : Production α} {f : α → Production γ} {g : α → Production δ}
    (hp : Respaced text text' Eq p q) (hf : ∀ a, Respaced text text' S (f a) (g a)) :
    Respaced text text' S (p >>= f) (q >>= g) := by
  refine respaced_bind hp ?_
  rintro a _ rfl
  exact hf a

theorem respaced_mono {R' : α → β → Prop} (h : Respaced text text' R p q)
    (hR : ∀ a b, R a b → R' a b) : Respaced text text' R' p q := by
  intro s t hst a s' ha b t' hb
  obtain ⟨hab, hst'⟩ := h s t hst a s' ha b t' hb
  exact ⟨hR a b hab, hst'⟩

theorem respaced_map {f : α → γ} {g : β → δ} (hp : Respaced text text' R p q)
    (hf : ∀ a b, R a b → S (f a) (g b)) : Respaced text text' S (f <$> p) (g <$> q) := by
  rw [← bind_pure_comp, ← bind_pure_comp]
  exact respaced_bind hp fun a b hab => respaced_pure (hf a b hab)

theorem respaced_map_eq {p q : Production α} (f : α → γ) (hp : Respaced text text' Eq p q) :
    Respaced text text' Eq (f <$> p) (f <$> q) :=
  respaced_map hp fun _ _ h => congrArg f h

theorem respaced_ite {c : Prop} [Decidable c] {p' : Production α} {q' : Production β}
    (hp : Respaced text text' R p q) (hp' : Respaced text text' R p' q') :
    Respaced text text' R (if c then p else p') (if c then q else q') := by
  split
  · exact hp
  · exact hp'

/-! ### Reading the state -/

theorem respaced_get :
    Respaced text text' (ParseState.Respaced text text') (get : Production ParseState) get :=
  fun _ _ hst => ensures_get.mpr (ensures_get.mpr ⟨hst, hst⟩)

theorem respaced_read {f : ParseState → α} {g : ParseState → β}
    (h : ∀ s t : ParseState, s.Respaced text text' t → R (f s) (g t)) :
    Respaced text text' R (return f (← get)) (return g (← get)) :=
  respaced_bind respaced_get fun s t hst => respaced_pure (h s t hst)

theorem respaced_current : Respaced text text' (SameToken text text') current current :=
  respaced_read fun _ _ h => h.draft.current

theorem respaced_kind : Respaced text text' Eq kind kind :=
  respaced_read fun _ _ h => h.draft.current.kind

theorem respaced_kindAfter (n : Nat) : Respaced text text' Eq (kindAfter n) (kindAfter n) :=
  respaced_read fun _ _ h => (h.draft.lookahead n).kind

theorem respaced_at? (k : TokenKind) : Respaced text text' Eq (at? k) (at? k) :=
  respaced_read fun _ _ h => congrArg (· == k) h.draft.current.kind

theorem respaced_atEnd : Respaced text text' Eq atEnd atEnd := respaced_at? .eof

/-- Of offsets and spans nothing is known. -/
def Anything (_ : α) (_ : β) : Prop := True

theorem respaced_here : Respaced text text' Anything here here :=
  respaced_read fun _ _ _ => trivial

theorem respaced_spanFrom (start start' : Nat) :
    Respaced text text' Anything (spanFrom start) (spanFrom start') :=
  respaced_read fun _ _ _ => trivial

/-! ### Changing the state -/

theorem respaced_advance : Respaced text text' Eq advance advance :=
  fun _ _ h => ensures_modify.mpr (ensures_modify.mpr ⟨rfl, h.draft.advance, h.ast⟩)

theorem respaced_accept (k : TokenKind) : Respaced text text' Eq (accept k) (accept k) := by
  refine respaced_bind_eq (respaced_at? k) fun found => respaced_ite ?_ (respaced_pure rfl)
  exact respaced_bind_eq respaced_advance fun _ => respaced_pure rfl

/-- A loop that got on in the one run got on in the other. -/
theorem respaced_skipIfStuck {before before' : Token} (h : SameToken text text' before before') :
    Respaced text text' Eq (skipIfStuck before) (skipIfStuck before') := by
  refine respaced_bind respaced_current fun t t' ht => ?_
  by_cases heq : t = before
  · rw [if_pos heq, if_pos ((ht.eq_iff h).mp heq)]
    exact respaced_advance
  · rw [if_neg heq, if_neg fun heq' => heq ((ht.eq_iff h).mpr heq')]
    exact respaced_pure rfl

theorem respaced_record {f f' : Draft → Except Fault Draft}
    (h : ∀ d d' e e' : Draft, d.Respaced text text' d' → f d = .ok e → f' d' = .ok e' →
      e.Respaced text text' e') : Respaced text text' Eq (record f) (record f') :=
  fun _ _ hst => ensures_record.mpr fun _ hd => ensures_record.mpr fun _ hd' =>
    ⟨rfl, h _ _ _ _ hst.draft hd hd', hst.ast⟩

theorem respaced_recordNew {f f' : Draft → Except Fault (MarkerId × Draft)}
    (h : ∀ d d' e e' : Draft, ∀ id id' : MarkerId, d.Respaced text text' d' → f d = .ok (id, e) →
      f' d' = .ok (id', e') → id = id' ∧ e.Respaced text text' e') :
    Respaced text text' Eq (recordNew f) (recordNew f') := by
  refine fun _ _ hst => ensures_recordNew.mpr fun id _ hd => ensures_recordNew.mpr
    fun id' _ hd' => ?_
  obtain ⟨hid, hdraft⟩ := h _ _ _ _ _ _ hst.draft hd hd'
  exact ⟨hid, hdraft, hst.ast⟩

theorem respaced_openMarker : Respaced text text' Eq openMarker openMarker :=
  respaced_recordNew fun _ _ _ _ _ _ h hopen hopen' => h.openMarker hopen hopen'

theorem respaced_openBefore (inner : MarkerId) :
    Respaced text text' Eq (openBefore inner) (openBefore inner) :=
  respaced_recordNew fun _ _ _ _ _ _ h hopen hopen' => h.openBefore hopen hopen'

theorem respaced_close (id : MarkerId) (node : NodeId) :
    Respaced text text' Eq (close id node) (close id node) := by
  refine fun s t hst => ensures_close.mpr fun d hd => ensures_close.mpr fun d' hd' => ?_
  refine ⟨rfl, ?_, hst.ast⟩
  unfold Draft.closeWith at hd hd'
  rw [← hst.ast.kind] at hd'
  split at hd
  · next hkind =>
    rw [hkind] at hd'
    exact hst.draft.closeAs hd hd'
  · next hkind =>
    rw [hkind] at hd'
    exact hst.draft.dissolve hd hd'

theorem respaced_closeGroup (id : MarkerId) :
    Respaced text text' Eq (closeGroup id) (closeGroup id) :=
  respaced_record fun _ _ _ _ h hclose hclose' => h.closeGroup hclose hclose'

theorem respaced_dissolve (id : MarkerId) :
    Respaced text text' Eq (dissolve id) (dissolve id) :=
  respaced_record fun _ _ _ _ h hclose hclose' => h.dissolve hclose hclose'

theorem respaced_report (id : MarkerId) (message : String) (span span' : Span) :
    Respaced text text' Eq (report id message span) (report id message span') := by
  have hmessage : (Diagnostic.ofParse message span).message =
      (Diagnostic.ofParse message span').message := rfl
  exact respaced_record fun _ _ _ _ h hclose hclose' => h.closeError hmessage hclose hclose'

theorem respaced_undo (id : MarkerId) (lastEnd lastEnd' : Nat) :
    Respaced text text' Eq (undo id lastEnd) (undo id lastEnd') := by
  refine respaced_bind_eq
    (respaced_record fun _ _ _ _ h hundo hundo' => h.undo hundo hundo') fun _ => ?_
  exact fun _ _ h => ensures_modify.mpr (ensures_modify.mpr ⟨rfl, h.draft, h.ast⟩)

theorem respaced_alloc {data data' : NodeData} (h : data.placeless = data'.placeless)
    (span span' : Span) : Respaced text text' Eq (alloc data span) (alloc data' span') :=
  fun _ _ hst => ensures_alloc.mpr (ensures_alloc.mpr
    ⟨hst.ast.size, hst.draft, hst.ast.alloc h span span'⟩)

theorem respaced_allocFrom (start start' : Nat) {data data' : NodeData}
    (h : data.placeless = data'.placeless) :
    Respaced text text' Eq (allocFrom start data) (allocFrom start' data') :=
  respaced_bind (respaced_spanFrom start start') fun _ _ _ => respaced_alloc h _ _

theorem respaced_finish (id : MarkerId) (start start' : Nat) {data data' : NodeData}
    (h : data.placeless = data'.placeless) :
    Respaced text text' Eq (finish id start data) (finish id start' data') :=
  respaced_bind_eq (respaced_allocFrom start start' h) fun node =>
    respaced_bind_eq (respaced_close id node) fun _ => respaced_pure rfl

/-! ### Faults of the text -/

theorem unexpected_eq {t t' : Token} (h : SameToken text text' t t') (what : String) :
    unexpected text t what = unexpected text' t' what := by
  unfold unexpected
  rw [h.kind, h.spelled]

theorem respaced_reportHere (id : MarkerId) (what : String) :
    Respaced text text' Eq (reportHere text id what) (reportHere text' id what) := by
  refine respaced_bind respaced_current fun t t' ht => ?_
  rw [unexpected_eq ht]
  exact respaced_report _ _ _ _

theorem respaced_expect (k : TokenKind) (what : String) :
    Respaced text text' Eq (expect text k what) (expect text' k what) := by
  refine respaced_bind_eq (respaced_accept k) fun found => respaced_ite (respaced_pure rfl) ?_
  refine respaced_bind_eq respaced_openMarker fun m => ?_
  exact respaced_bind_eq (respaced_reportHere m what) fun _ => respaced_pure rfl

theorem respaced_skipUnexpected (what : String) :
    Respaced text text' Eq (skipUnexpected text what) (skipUnexpected text' what) := by
  refine respaced_bind_eq respaced_openMarker fun m => ?_
  refine respaced_bind respaced_current fun t t' ht => ?_
  rw [unexpected_eq ht, ht.kind]
  have hreport : Respaced text text' Eq (report m (unexpected text' t' what) t.span)
      (report m (unexpected text' t' what) t'.span) := respaced_report _ _ _ _
  split
  · exact respaced_bind_eq respaced_advance fun _ => hreport
  · exact hreport

/-! ### Loops -/

/-- By induction on the bounds, which may differ: a text with more trivia has more tokens. -/
theorem respaced_iterate {step : α → Production (α ⊕ γ)} {step' : β → Production (β ⊕ δ)}
    (hstep : ∀ a b, R a b → Respaced text text' (Sum.LiftRel R S) (step a) (step' b))
    (bound bound' : Nat) {a : α} {b : β} (h : R a b) :
    Respaced text text' S (iterate step bound a) (iterate step' bound' b) := by
  induction bound generalizing bound' a b with
  | zero => exact fun _ _ _ => ensures_throw
  | succ bound ih =>
    cases bound' with
    | zero => exact fun _ _ _ _ _ _ => ensures_throw
    | succ bound' =>
      refine respaced_bind (hstep a b h) fun r r' hr => ?_
      cases hr with
      | inl h => exact ih bound' h
      | inr h => exact respaced_pure h

theorem respaced_repeatFrom {step : α → Production (α ⊕ γ)} {step' : β → Production (β ⊕ δ)}
    (hstep : ∀ a b, R a b → Respaced text text' (Sum.LiftRel R S) (step a) (step' b))
    {a : α} {b : β} (h : R a b) :
    Respaced text text' S (repeatFrom step a) (repeatFrom step' b) :=
  respaced_bind respaced_get fun _ _ _ => respaced_iterate hstep _ _ h

/-- Loops that answer the same. -/
theorem respaced_repeat {step step' : α → Production (α ⊕ γ)}
    (hstep : ∀ a, Respaced text text' Eq (step a) (step' a)) (a : α) :
    Respaced text text' Eq (repeatFrom step a) (repeatFrom step' a) := by
  refine respaced_repeatFrom (R := Eq) ?_ rfl
  rintro a _ rfl
  refine respaced_mono (hstep a) ?_
  rintro r _ rfl
  cases r with
  | inl _ => exact .inl rfl
  | inr _ => exact .inr rfl

theorem respaced_separated {item item' : Production α}
    (h : Respaced text text' Eq item item') :
    Respaced text text' Eq (separated item) (separated item') := by
  refine respaced_repeat (fun read => ?_) []
  refine respaced_bind_eq h fun a => respaced_bind_eq (respaced_accept .comma) fun found => ?_
  exact respaced_ite (respaced_pure rfl) (respaced_pure rfl)

end Production

end ScriptAnalysis
