import ScriptAnalysis.Grammar.Production
import ScriptAnalysis.Proofs.Recording.Operations

/-!
# What productions guarantee

`p.Yields s Q` says that `p` succeeds from `s` and that `Q` holds of its answer and of the state
that it leaves; so every statement of this form says that no operation is misused and that no loop
runs out of its bound.  The laws for sequences and loops come first, then one guarantee for each
building block of productions.

A production of the grammar only ever adds to the recording (`Draft.Grows`), and it is `Ready` to go
on afterwards.  Where it also reads a token, it `Consumes`; every loop and every circle of
productions does, which is what bounds them.
-/

namespace ScriptAnalysis

namespace Draft

/-- The recording grew by a token at least. -/
structure Consumes (d d' : Draft) : Prop where
  grows : d.Grows d'
  started : d'.Started
  length_lt : d'.ahead.length < d.ahead.length

theorem Consumes.trans_grows {d₁ d₂ d₃ : Draft} (h : d₁.Consumes d₂) (k : d₂.Grows d₃) :
    d₁.Consumes d₃ :=
  ⟨h.grows.trans k, k.started h.started, Nat.lt_of_le_of_lt k.length_le h.length_lt⟩

theorem Grows.trans_consumes {d₁ d₂ d₃ : Draft} (h : d₁.Grows d₂) (k : d₂.Consumes d₃) :
    d₁.Consumes d₃ :=
  ⟨h.trans k.grows, k.started, Nat.lt_of_lt_of_le k.length_lt h.length_le⟩

/-- If a marker holds a token, then it consumes it. -/
theorem Ends.consumes {m : MarkerId} {d d₁ d₂ d₃ : Draft} (h : d.Ends m d₂ d₃)
    (hw : d.Within m d₁) (hc : d₁.Consumes d₂) : d.Consumes d₃ := by
  refine ⟨h.wraps.grows, h.started hc.started, ?_⟩
  rw [h.ahead]
  exact Nat.lt_of_lt_of_le hc.length_lt hw.length_le

/-- There is a token ahead that is no trivia, so the end of the text does not matter. -/
theorem current_congr {d d' : Draft} (h : EndsWithEof d.ahead) (ha : d'.ahead = d.ahead) :
    d'.current = d.current := by
  rcases consume_cases d.ahead [] with ⟨_, t, _, _, _, _, hs, _⟩ | ⟨hb, -, -⟩
  · simp [current, lookahead, ha, hs]
  · exact absurd hb h.not_all_trivia

theorem lookahead_kind_congr {d d' : Draft} (ha : d'.ahead = d.ahead) (n : Nat) :
    (d'.lookahead n).kind = (d.lookahead n).kind := by
  unfold lookahead
  rw [ha]
  cases nthSignificant d.ahead n <;> rfl

/-- After a token is recorded, the one after it is the next. -/
theorem current_advance (d : Draft) : d.advance.current = d.lookahead 1 := by
  have hskip (blank ts : List Token) (hb : ∀ b ∈ blank, b.isTrivia = true) :
      nthSignificant (blank ++ ts) 1 = nthSignificant ts 1 := by
    induction blank with
    | nil => rfl
    | cons u us ih =>
      rw [List.cons_append, nthSignificant, if_pos (hb u (by simp))]
      exact ih fun b hu => hb b (List.mem_cons_of_mem _ hu)
  rcases advance_cases d with ⟨blank, t, rest, he, hb, ht, -, hadv⟩ | ⟨hb, hadv⟩
  · have hnext : nthSignificant d.ahead 1 = nthSignificant rest 0 := by
      rw [he, hskip blank _ hb]
      simp [nthSignificant, ht]
    simp [current, lookahead, hadv, hnext]
  · have hnone : nthSignificant d.ahead 1 = none := by
      rw [← List.append_nil d.ahead, hskip d.ahead [] hb]
      rfl
    simp [current, lookahead, hadv, hnone, nthSignificant]

end Draft

namespace Production

variable {α β : Type} {s : ParseState}

/-- From `s` the production succeeds, and `Q` holds of its answer and of the state it leaves. -/
def Yields (p : Production α) (s : ParseState) (Q : α → ParseState → Prop) : Prop :=
  ∃ a s', p.run s = .ok (a, s') ∧ Q a s'

/-! ### Sequences -/

theorem Yields.mono {p : Production α} {Q R : α → ParseState → Prop} (h : p.Yields s Q)
    (hQR : ∀ a s', Q a s' → R a s') : p.Yields s R := by
  obtain ⟨a, s', hrun, hQ⟩ := h
  exact ⟨a, s', hrun, hQR a s' hQ⟩

@[simp] theorem yields_pure {a : α} {Q : α → ParseState → Prop} :
    (pure a : Production α).Yields s Q ↔ Q a s := by
  constructor
  · rintro ⟨_, _, hrun, hQ⟩
    cases hrun
    exact hQ
  · intro hQ
    exact ⟨a, s, rfl, hQ⟩

@[simp] theorem yields_bind {p : Production α} {f : α → Production β}
    {Q : β → ParseState → Prop} :
    (p >>= f).Yields s Q ↔ p.Yields s fun a s' => (f a).Yields s' Q := by
  constructor
  · rintro ⟨b, s'', hrun, hQ⟩
    rw [StateT.run_bind] at hrun
    cases hp : p.run s with
    | error e =>
      rw [hp] at hrun
      cases hrun
    | ok r =>
      rw [hp] at hrun
      exact ⟨r.1, r.2, hp, b, s'', hrun, hQ⟩
  · rintro ⟨a, s', hp, b, s'', hf, hQ⟩
    refine ⟨b, s'', ?_, hQ⟩
    rw [StateT.run_bind, hp]
    exact hf

/-- Both branches go on in the same way. -/
theorem ite_bind (c : Prop) [Decidable c] (p q : Production α) (f : α → Production β) :
    (if c then p >>= f else q >>= f) = (if c then p else q) >>= f := by
  split <;> rfl

@[simp] theorem yields_map {p : Production α} {f : α → β} {Q : β → ParseState → Prop} :
    (f <$> p).Yields s Q ↔ p.Yields s fun a s' => Q (f a) s' := by
  rw [← bind_pure_comp]
  simp only [yields_bind, yields_pure]

/-! ### Reading the state -/

@[simp] theorem yields_get {Q : ParseState → ParseState → Prop} :
    (get : Production ParseState).Yields s Q ↔ Q s s := yields_pure (a := s)

@[simp] theorem yields_current {Q : Token → ParseState → Prop} :
    current.Yields s Q ↔ Q s.draft.current s := by
  simp [current]

@[simp] theorem yields_kind {Q : TokenKind → ParseState → Prop} :
    kind.Yields s Q ↔ Q s.draft.current.kind s := by
  simp [kind]

@[simp] theorem yields_kindAfter {n : Nat} {Q : TokenKind → ParseState → Prop} :
    (kindAfter n).Yields s Q ↔ Q (s.draft.lookahead n).kind s := by
  simp [kindAfter]

@[simp] theorem yields_at? {k : TokenKind} {Q : Bool → ParseState → Prop} :
    (at? k).Yields s Q ↔ Q (s.draft.at? k) s := by
  simp [at?]

@[simp] theorem yields_atEnd {Q : Bool → ParseState → Prop} :
    atEnd.Yields s Q ↔ Q s.draft.atEnd s := by
  simp [atEnd]

@[simp] theorem yields_here {Q : Nat → ParseState → Prop} :
    here.Yields s Q ↔ Q s.draft.current.offset s := by
  simp [here]

@[simp] theorem yields_spanFrom {start : Nat} {Q : Span → ParseState → Prop} :
    (spanFrom start).Yields s Q ↔ Q ⟨start, max s.lastEnd start⟩ s := by
  simp [spanFrom]

@[simp] theorem yields_modify {f : ParseState → ParseState} {Q : Unit → ParseState → Prop} :
    (modify f : Production Unit).Yields s Q ↔ Q () (f s) := by
  constructor
  · rintro ⟨_, _, hrun, hQ⟩
    cases hrun
    exact hQ
  · intro hQ
    exact ⟨(), f s, rfl, hQ⟩

/-- A new node is found in the arena, and the recording is as before. -/
theorem alloc_yields (data : NodeData) (span : Span) :
    (alloc data span).Yields s fun node s' =>
      s'.draft = s.draft ∧ s'.ast.data? node = some data := by
  refine ⟨_, _, rfl, rfl, ?_⟩
  simp [Ast.data?, Ast.node?]

/-! ### Changing the recording -/

theorem record_yields {f : Draft → Except Fault Draft} {P : Draft → Prop}
    (h : ∃ d, f s.draft = .ok d ∧ P d) : (record f).Yields s fun _ s' => P s'.draft := by
  obtain ⟨d, hf, hP⟩ := h
  refine ⟨(), { s with draft := d }, ?_, hP⟩
  unfold record
  rw [StateT.run, hf]
  rfl

theorem recordNew_yields {f : Draft → Except Fault (MarkerId × Draft)}
    {P : MarkerId → Draft → Prop} (h : ∃ m d, f s.draft = .ok (m, d) ∧ P m d) :
    (recordNew f).Yields s fun m s' => P m s'.draft := by
  obtain ⟨m, d, hf, hP⟩ := h
  refine ⟨m, { s with draft := d }, ?_, hP⟩
  unfold recordNew
  rw [StateT.run, hf]
  rfl

variable {m : MarkerId} {d : Draft}

theorem advance_yields (h : s.draft.Ready) (hk : s.draft.current.kind ≠ .eof) :
    advance.Yields s fun _ s' => s.draft.Consumes s'.draft := by
  obtain ⟨hg, hs, hl⟩ := Draft.advance_grows h hk
  exact yields_modify.mpr ⟨hg, hs, hl⟩

/-- After a token is consumed, the one after it is the next. -/
theorem advance_yields_lookahead (h : s.draft.Ready) (hk : s.draft.current.kind ≠ .eof) :
    advance.Yields s fun _ s' =>
      s.draft.Consumes s'.draft ∧ s'.draft.current = s.draft.lookahead 1 := by
  obtain ⟨hg, hs, hl⟩ := Draft.advance_grows h hk
  exact yields_modify.mpr ⟨⟨hg, hs, hl⟩, s.draft.current_advance⟩

theorem openMarker_yields (h : s.draft.Ready) :
    openMarker.Yields s fun m s' => s.draft.Within m s'.draft ∧
      s'.draft.ahead = s.draft.ahead ∧ s'.draft.current = s.draft.current := by
  refine recordNew_yields (f := Draft.openMarker) (P := fun m d' => s.draft.Within m d' ∧
    d'.ahead = s.draft.ahead ∧ d'.current = s.draft.current) ?_
  obtain ⟨m, d', hok, hw, ha⟩ := Draft.openMarker_within h
  exact ⟨m, d', hok, hw, ha, Draft.current_congr h.endsWithEof ha⟩

theorem openBefore_yields (h : d.Ready) (hw : d.Wraps m s.draft) :
    (openBefore m).Yields s fun m' s' => d.Within m' s'.draft ∧
      s'.draft.ahead = s.draft.ahead ∧ s'.draft.current = s.draft.current := by
  refine recordNew_yields (f := (·.openBefore m)) (P := fun m' d' => d.Within m' d' ∧
    d'.ahead = s.draft.ahead ∧ d'.current = s.draft.current) ?_
  obtain ⟨m', d', hok, hw', ha⟩ := Draft.openBefore_within h hw
  exact ⟨m', d', hok, hw', ha, Draft.current_congr hw.ready.endsWithEof ha⟩

theorem close_yields (hw : d.Within m s.draft) (hs : s.draft.Started) (node : NodeId) :
    (close m node).Yields s fun _ s' => d.Ends m s.draft s'.draft :=
  record_yields (f := (·.closeWith m node s.ast)) (Draft.closeWith_ends hw hs node s.ast)

theorem closeGroup_yields (hw : d.Within m s.draft) (hs : s.draft.Started) :
    (closeGroup m).Yields s fun _ s' => d.Ends m s.draft s'.draft :=
  record_yields (f := (·.closeGroup m)) (Draft.closeGroup_ends hw hs)

theorem dissolve_yields (hw : d.Within m s.draft) :
    (dissolve m).Yields s fun _ s' => d.Ends m s.draft s'.draft :=
  record_yields (f := (·.dissolve m)) (Draft.dissolve_ends hw)

theorem report_yields (hw : d.Within m s.draft) (message : String) (span : Span) :
    (report m message span).Yields s fun _ s' => d.Ends m s.draft s'.draft :=
  record_yields (f := (·.closeError m (.ofParse message span))) (Draft.closeError_ends hw _)

theorem undo_yields (h : d.Ready) (hw : d.Within m s.draft) (lastEnd : Nat) :
    (undo m lastEnd).Yields s fun _ s' => d.Grows s'.draft := by
  unfold undo
  rw [yields_bind]
  have hundo := Draft.undo_grows h hw
  refine (record_yields (P := fun d' => d.Grows d') ?_).mono fun _ s' hs' => ?_
  · obtain ⟨d', hok, hg, -⟩ := hundo
    exact ⟨d', hok, hg⟩
  · exact yields_modify.mpr hs'

/-! ### Building blocks -/

theorem finish_yields (hw : d.Within m s.draft) (hs : s.draft.Started) (start : Nat)
    (data : NodeData) :
    (finish m start data).Yields s fun _ s' => d.Ends m s.draft s'.draft := by
  unfold finish allocFrom
  simp only [yields_bind, yields_spanFrom]
  apply (alloc_yields _ _).mono
  intro node s₁ h₁
  rw [← h₁.1] at hw hs ⊢
  apply (close_yields hw hs node).mono
  intro _ s₂ h₂
  exact yields_pure.mpr h₂

theorem reportHere_yields (hw : d.Within m s.draft) (source what : String) :
    (reportHere source m what).Yields s fun _ s' => d.Ends m s.draft s'.draft := by
  unfold reportHere
  simp only [yields_bind, yields_current]
  exact report_yields hw _ _

theorem accept_yields {k : TokenKind} (h : s.draft.Ready) (hk : k ≠ .eof) :
    (accept k).Yields s fun found s' =>
      s.draft.Grows s'.draft ∧ (found = true → s.draft.Consumes s'.draft) := by
  unfold accept
  simp only [yields_bind, yields_at?]
  split
  · next hat =>
    have hcur : s.draft.current.kind = k := by simpa [Draft.at?] using hat
    rw [yields_bind]
    apply (advance_yields h (hcur ▸ hk)).mono
    intro _ s' hs'
    rw [yields_pure]
    exact ⟨hs'.grows, fun _ => hs'⟩
  · rw [yields_pure]
    exact ⟨Draft.Grows.refl h, by simp⟩

theorem expect_yields {k : TokenKind} (h : s.draft.Ready) (hk : k ≠ .eof) (source what : String) :
    (expect source k what).Yields s fun found s' =>
      s.draft.Grows s'.draft ∧ (found = true → s.draft.Consumes s'.draft) := by
  unfold expect
  rw [yields_bind]
  apply (accept_yields h hk).mono
  intro found s₁ h₁
  split
  · next hf => exact yields_pure.mpr ⟨h₁.1, fun _ => h₁.2 hf⟩
  · simp only [yields_bind]
    apply (openMarker_yields h₁.1.ready).mono
    intro m s₂ h₂
    apply (reportHere_yields h₂.1 _ _).mono
    intro _ s₃ h₃
    exact yields_pure.mpr ⟨h₁.1.trans h₃.wraps.grows, by simp⟩

theorem skipUnexpected_yields (h : s.draft.Ready) (source what : String) :
    (skipUnexpected source what).Yields s fun _ s' => s.draft.Grows s'.draft := by
  unfold skipUnexpected
  simp only [yields_bind, yields_current]
  apply (openMarker_yields h).mono
  intro m s₁ h₁
  split
  · next hk =>
    rw [yields_bind]
    apply (advance_yields h₁.1.ready hk).mono
    intro _ s₂ h₂
    exact (report_yields (h₁.1.trans h₂.grows) _ _).mono fun _ _ h₃ => h₃.wraps.grows
  · exact (report_yields h₁.1 _ _).mono fun _ _ h₂ => h₂.wraps.grows

/-- After a step of a loop the loop has got on, even if the step did not consume anything. -/
theorem skipIfStuck_yields {s₀ : ParseState} (h : s₀.draft.Ready) (hg : s₀.draft.Grows s.draft)
    (hk : s₀.draft.current.kind ≠ .eof) :
    (skipIfStuck s₀.draft.current).Yields s fun _ s' => s₀.draft.Grows s'.draft ∧
      s'.draft.ahead.length < s₀.draft.ahead.length := by
  unfold skipIfStuck
  simp only [yields_bind, yields_current]
  split
  · next heq =>
    apply (advance_yields hg.ready (heq ▸ hk)).mono
    intro _ s' hs'
    exact ⟨hg.trans hs'.grows, (hg.trans_consumes hs').length_lt⟩
  · next hne =>
    rcases hg.eq_or_length_lt with ha | hl
    · exact absurd (Draft.current_congr h.endsWithEof ha) hne
    · exact yields_pure.mpr ⟨hg, hl⟩

/-! ### Loops -/

/-- What a step of a loop has to leave: a smaller instance of the invariant `I`, or a result. -/
def Continues (I : α → ParseState → Prop) (Q : β → ParseState → Prop) (s : ParseState) :
    α ⊕ β → ParseState → Prop
  | .inl a, s' => I a s' ∧ s'.draft.ahead.length < s.draft.ahead.length
  | .inr b, s' => Q b s'

theorem iterate_yields {step : α → Production (α ⊕ β)} {I : α → ParseState → Prop}
    {Q : β → ParseState → Prop}
    (hstep : ∀ a s, I a s → (step a).Yields s (Continues I Q s)) (bound : Nat) {a : α}
    (h : I a s) (hb : s.draft.ahead.length < bound) : (iterate step bound a).Yields s Q := by
  induction bound generalizing a s with
  | zero => exact absurd hb (Nat.not_lt_zero _)
  | succ bound ih =>
    unfold iterate
    rw [yields_bind]
    apply (hstep a s h).mono
    intro r s' hr
    cases r with
    | inl next => exact ih hr.1 (Nat.lt_of_lt_of_le hr.2 (Nat.le_of_lt_succ hb))
    | inr result => exact yields_pure.mpr hr

/-- A loop ends, and keeps an invariant, if every step but the last consumes a token. -/
theorem repeatFrom_yields {step : α → Production (α ⊕ β)} (I : α → ParseState → Prop)
    {Q : β → ParseState → Prop} {a : α} (h : I a s)
    (hstep : ∀ a s, I a s → (step a).Yields s (Continues I Q s)) :
    (repeatFrom step a).Yields s Q := by
  unfold repeatFrom
  simp only [yields_bind, yields_get]
  exact iterate_yields hstep _ h (Nat.lt_succ_self _)

theorem separated_yields {item : Production α} (h : s.draft.Ready)
    (hitem : ∀ s', s.draft.Grows s'.draft →
      item.Yields s' fun _ s'' => s'.draft.Grows s''.draft) :
    (separated item).Yields s fun _ s' => s.draft.Grows s'.draft := by
  unfold separated
  refine repeatFrom_yields (fun _ s' => s.draft.Grows s'.draft) (Draft.Grows.refl h) ?_
  intro read s' hs'
  simp only [yields_bind]
  apply (hitem s' hs').mono
  intro _ s₁ h₁
  apply (accept_yields h₁.ready (by decide)).mono
  intro found s₂ h₂
  split
  · next hf =>
    exact yields_pure.mpr ⟨hs'.trans (h₁.trans h₂.1), (h₁.trans_consumes (h₂.2 hf)).length_lt⟩
  · exact yields_pure.mpr (hs'.trans (h₁.trans h₂.1))

end Production

end ScriptAnalysis
