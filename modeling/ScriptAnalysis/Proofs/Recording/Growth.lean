import ScriptAnalysis.Proofs.Recording.Brackets
import ScriptAnalysis.Recording.Draft

/-!
# How a recording grows

A production changes a recording in one of three ways, all of them extensions of what is recorded:

* `Draft.Grows`: it adds a balanced piece and leaves the opened markers as they are;
* `Draft.Within m`: it opens `m`, adds a balanced piece and has not yet ended `m`;
* `Draft.Wraps m`: it adds a piece that starts with `m` and ends it, so that a marker may still be
  put around `m`.

Every operation leads from one of these to another: `openMarker_within` and `openBefore_within`
open, `Within.trans` goes on inside, `close_ends` ends, `undo_grows` takes back.  A grammar that
uses the operations in this order never misuses a marker.
-/

namespace ScriptAnalysis

/-- The tokens end with the end of the text, which stands nowhere else. -/
def EndsWithEof (ts : List Token) : Prop :=
  ∃ body last, ts = body ++ [last] ∧ last.kind = .eof ∧ ∀ t ∈ body, t.kind ≠ .eof

/-- The end of the text is no trivia. -/
theorem EndsWithEof.not_all_trivia {ts : List Token} (h : EndsWithEof ts) :
    ¬ ∀ t ∈ ts, t.isTrivia = true := by
  obtain ⟨body, last, rfl, hlast, -⟩ := h
  intro hall
  have := hall last (by simp)
  simp [Token.isTrivia, hlast, TokenKind.isTrivia] at this

/-! ### Recording tokens -/

/-- Recording takes the trivia ahead and the token after it, or all trivia if no token is left. -/
theorem consume_cases (ts : List Token) (history : List Event) :
    (∃ blank t rest, ts = blank ++ t :: rest ∧ (∀ b ∈ blank, b.isTrivia = true) ∧
      t.isTrivia = false ∧ nthSignificant ts 0 = some t ∧
      consume ts history = (rest, ((blank ++ [t]).map .token).reverse ++ history)) ∨
    ((∀ b ∈ ts, b.isTrivia = true) ∧ nthSignificant ts 0 = none ∧
      consume ts history = ([], (ts.map .token).reverse ++ history)) := by
  induction ts generalizing history with
  | nil => exact Or.inr ⟨by simp, rfl, rfl⟩
  | cons u us ih =>
    by_cases hu : u.isTrivia = true
    · have hn : nthSignificant (u :: us) 0 = nthSignificant us 0 := by simp [nthSignificant, hu]
      have hc : consume (u :: us) history = consume us (.token u :: history) := by
        simp [consume, hu]
      rcases ih (.token u :: history) with ⟨blank, t, rest, rfl, hb, ht, hs, he⟩ | ⟨hb, hs, he⟩
      · refine Or.inl ⟨u :: blank, t, rest, rfl, ?_, ht, hn.trans hs, ?_⟩
        · intro b h
          rcases List.mem_cons.mp h with rfl | h
          · exact hu
          · exact hb b h
        · rw [hc, he]
          simp
      · refine Or.inr ⟨?_, hn.trans hs, ?_⟩
        · intro b h
          rcases List.mem_cons.mp h with rfl | h
          · exact hu
          · exact hb b h
        · rw [hc, he]
          simp
    · have hu : u.isTrivia = false := by simpa using hu
      exact Or.inl ⟨[], u, us, rfl, by simp, hu, by simp [nthSignificant, hu],
        by simp [consume, hu]⟩

namespace Draft

/-! ### Records of markers -/

theorem marker_push (d : Draft) (m : Marker) (id : MarkerId) :
    (d.markers.push m).getD id {} = if id = d.markers.size then m else d.marker id := by
  simp only [marker, Array.getD_eq_getD_getElem?, Array.getElem?_push]
  split <;> rfl

theorem marker_setIfInBounds (d : Draft) (i id : MarkerId) (m : Marker) (h : i < d.markers.size) :
    (d.markers.setIfInBounds i m).getD id {} = if i = id then m else d.marker id := by
  simp only [marker, Array.getD_eq_getD_getElem?, Array.getElem?_setIfInBounds]
  by_cases hid : i = id
  · subst hid
    simp [h]
  · simp [hid]

theorem marker_modify (d : Draft) (i id : MarkerId) (f : Marker → Marker)
    (h : i < d.markers.size) :
    (d.modifyMarker i f).marker id = if i = id then f (d.marker i) else d.marker id := by
  simp only [marker, modifyMarker, Array.getD_eq_getD_getElem?, Array.getElem?_modify]
  by_cases hid : i = id
  · subst hid
    simp [h]
  · simp [hid]

/-- An unknown marker has no state but that of a new one. -/
theorem lt_size_of_state {d : Draft} {id : MarkerId} (h : (d.marker id).state ≠ .opened) :
    id < d.markers.size := by
  by_contra hid
  have hnone : d.markers[id]? = none := Array.getElem?_eq_none (Nat.le_of_not_lt hid)
  exact h (by simp [marker, Array.getD_eq_getD_getElem?, hnone])

/-! ### Drafts that a grammar may go on with -/

/-- No node of the tree ends before the first token. -/
def NoEarlyNode (d : Draft) : Prop :=
  ∀ id, .stop id ∈ leadIn d.events → (d.marker id).state = .dropped ∨ (d.marker id).state = .error

/-- What holds between any two steps of a grammar. -/
structure Ready (d : Draft) : Prop where
  uncancelled : d.marksLeft = none
  known : ∀ id ∈ d.opened, id < d.markers.size
  noEarlyNode : d.NoEarlyNode
  endsWithEof : EndsWithEof d.ahead

/-- Some token has been recorded. -/
def Started (d : Draft) : Prop := tokensIn d.events ≠ []

/-- The draft `d'` records `piece` after what `d` records, and knows as much of the markers of `d`
    as `d` does. -/
structure Adds (d : Draft) (piece : List Event) (d' : Draft) : Prop where
  ready : d'.Ready
  events : d'.events = d.events ++ piece
  tokens : d.ahead = tokensIn piece ++ d'.ahead
  marker : ∀ id < d.markers.size, d'.marker id = d.marker id
  size : d.markers.size ≤ d'.markers.size
  fresh : ∀ id, .start id ∈ piece → d.markers.size ≤ id ∧ id < d'.markers.size

/-- A balanced piece was added. -/
def Grows (d d' : Draft) : Prop :=
  ∃ piece, d.Adds piece d' ∧ Balanced piece ∧ d'.opened = d.opened

/-- The marker `m` was opened, and a balanced piece was added after its start. -/
def Within (m : MarkerId) (d d' : Draft) : Prop :=
  ∃ piece, d.Adds (.start m :: piece) d' ∧ Balanced piece ∧ .start m ∉ piece ∧
    d'.opened = m :: d.opened ∧ (d'.marker m).state = .opened ∧ (d'.marker m).resume = d.ahead

/-- The marker `m` was opened and ended. -/
def Wraps (m : MarkerId) (d d' : Draft) : Prop :=
  ∃ body, d.Adds (.start m :: body) d' ∧ (∀ σ, openedAfter (m :: σ) body = some σ) ∧
    .start m ∉ body ∧ d'.opened = d.opened ∧ (d'.marker m).resume = d.ahead

/-- What the end of `m` makes of a draft `d'` that grew within `m`. -/
structure Ends (m : MarkerId) (d d' d'' : Draft) : Prop where
  wraps : d.Wraps m d''
  ahead : d''.ahead = d'.ahead
  started : d'.Started → d''.Started

theorem Adds.trans {d₁ d₂ d₃ : Draft} {p q : List Event} (h : d₁.Adds p d₂) (k : d₂.Adds q d₃) :
    d₁.Adds (p ++ q) d₃ where
  ready := k.ready
  events := by rw [k.events, h.events, List.append_assoc]
  tokens := by rw [h.tokens, k.tokens, tokensIn_append, List.append_assoc]
  marker id hid := by rw [k.marker id (Nat.lt_of_lt_of_le hid h.size), h.marker id hid]
  size := Nat.le_trans h.size k.size
  fresh id hid := by
    rcases List.mem_append.mp hid with hid | hid
    · obtain ⟨h₁, h₂⟩ := h.fresh id hid
      exact ⟨h₁, Nat.lt_of_lt_of_le h₂ k.size⟩
    · obtain ⟨h₁, h₂⟩ := k.fresh id hid
      exact ⟨Nat.le_trans h.size h₁, h₂⟩

theorem Adds.started {d d' : Draft} {p : List Event} (h : d.Adds p d') (s : d.Started) :
    d'.Started := by
  unfold Started
  rw [h.events, tokensIn_append]
  exact List.append_ne_nil_of_left_ne_nil s _

theorem Adds.length_le {d d' : Draft} {p : List Event} (h : d.Adds p d') :
    d'.ahead.length ≤ d.ahead.length := by
  rw [h.tokens, List.length_append]
  omega

/-- If fewer tokens are ahead, some were recorded. -/
theorem Adds.started_of_length_lt {d d' : Draft} {p : List Event} (h : d.Adds p d')
    (hl : d'.ahead.length < d.ahead.length) : d'.Started := by
  intro hnone
  rw [h.events, tokensIn_append] at hnone
  rw [h.tokens, (List.append_eq_nil_iff.mp hnone).2] at hl
  exact Nat.lt_irrefl _ hl

/-- If tokens were recorded since, fewer are ahead. -/
theorem Adds.eq_or_length_lt {d d' : Draft} {p : List Event} (h : d.Adds p d') :
    d'.ahead = d.ahead ∨ d'.ahead.length < d.ahead.length := by
  cases hp : tokensIn p with
  | nil => exact Or.inl (by simpa [hp] using h.tokens.symm)
  | cons t ts =>
    right
    rw [h.tokens, hp, List.length_append, List.length_cons]
    omega

namespace Grows

variable {m : MarkerId} {d d₁ d₂ d₃ : Draft}

theorem refl (h : d.Ready) : d.Grows d :=
  ⟨[], ⟨h, by simp, by simp, fun _ _ => rfl, Nat.le_refl _, by simp⟩, Balanced.nil, rfl⟩

theorem trans (h : d₁.Grows d₂) (k : d₂.Grows d₃) : d₁.Grows d₃ := by
  obtain ⟨p, hp, bp, op⟩ := h
  obtain ⟨q, hq, bq, oq⟩ := k
  exact ⟨p ++ q, hp.trans hq, bp.append bq, oq.trans op⟩

theorem ready (h : d₁.Grows d₂) : d₂.Ready := by
  obtain ⟨_, hp, _⟩ := h
  exact hp.ready

theorem started (h : d₁.Grows d₂) (s : d₁.Started) : d₂.Started := by
  obtain ⟨_, hp, _⟩ := h
  exact hp.started s

theorem length_le (h : d₁.Grows d₂) : d₂.ahead.length ≤ d₁.ahead.length := by
  obtain ⟨_, hp, _⟩ := h
  exact hp.length_le

theorem eq_or_length_lt (h : d₁.Grows d₂) :
    d₂.ahead = d₁.ahead ∨ d₂.ahead.length < d₁.ahead.length := by
  obtain ⟨_, hp, _⟩ := h
  exact hp.eq_or_length_lt

end Grows

namespace Within

variable {m : MarkerId} {d d₁ d₂ d₃ : Draft}

/-- Inside a marker a recording grows as it does elsewhere. -/
theorem trans (h : Within m d₁ d₂) (k : d₂.Grows d₃) : Within m d₁ d₃ := by
  obtain ⟨p, hp, bp, fp, op, sp, rp⟩ := h
  obtain ⟨q, hq, bq, oq⟩ := k
  have hm : m < d₂.markers.size := (hp.fresh m (by simp)).2
  refine ⟨p ++ q, hp.trans hq, bp.append bq, ?_, oq.trans op, ?_, ?_⟩
  · intro hmem
    rcases List.mem_append.mp hmem with hmem | hmem
    · exact fp hmem
    · exact absurd (hq.fresh m hmem).1 (Nat.not_le.mpr hm)
  · rw [hq.marker m hm, sp]
  · rw [hq.marker m hm, rp]

theorem ready (h : Within m d₁ d₂) : d₂.Ready := by
  obtain ⟨_, hp, _⟩ := h
  exact hp.ready

theorem started (h : Within m d₁ d₂) (s : d₁.Started) : d₂.Started := by
  obtain ⟨_, hp, _⟩ := h
  exact hp.started s

theorem started_of_length_lt (h : Within m d₁ d₂) (hl : d₂.ahead.length < d₁.ahead.length) :
    d₂.Started := by
  obtain ⟨_, hp, _⟩ := h
  exact hp.started_of_length_lt hl

theorem length_le (h : Within m d₁ d₂) : d₂.ahead.length ≤ d₁.ahead.length := by
  obtain ⟨_, hp, _⟩ := h
  exact hp.length_le

end Within

namespace Wraps

variable {m : MarkerId} {d d₁ d₂ d₃ : Draft}

/-- A marker that is open and ended again is a balanced piece. -/
theorem grows (h : Wraps m d₁ d₂) : d₁.Grows d₂ := by
  obtain ⟨body, hb, nb, -, ob, -⟩ := h
  refine ⟨.start m :: body, hb, ?_, ob⟩
  intro σ
  rw [openedAfter_start]
  exact nb σ

theorem ready (h : Wraps m d₁ d₂) : d₂.Ready := h.grows.ready

end Wraps

end Draft

end ScriptAnalysis
