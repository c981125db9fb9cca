import ScriptAnalysis.Proofs.Recording.Growth

/-!
# The operations of a recording

For each operation on a draft, the way in which it extends what is recorded, and that it is no
misuse where a grammar calls it.
-/

namespace ScriptAnalysis

theorem EndsWithEof.of_append {a b : List Token} {t : Token} (h : EndsWithEof (a ++ t :: b))
    (ht : t.kind ≠ .eof) : EndsWithEof b := by
  obtain ⟨body, last, heq, hlast, hbody⟩ := h
  rcases List.eq_nil_or_concat b with rfl | ⟨init, x, rfl⟩
  · have := (List.append_inj' heq rfl).2
    cases this
    exact absurd hlast ht
  · rw [List.concat_eq_append, ← List.cons_append, ← List.append_assoc] at heq
    obtain ⟨rfl, hx⟩ := List.append_inj' heq rfl
    cases hx
    refine ⟨init, last, List.concat_eq_append, hlast, ?_⟩
    intro u hu
    exact hbody u (by simp [hu])

namespace Draft

variable {m : MarkerId} {d d' : Draft}

/-- A draft that only ends nodes after the first token, and has not changed what it knew of the
    markers ended before it, still has no early node. -/
theorem NoEarlyNode.append {piece : List Event} (h : d.NoEarlyNode)
    (hevents : d'.events = d.events ++ piece)
    (hmarker : ∀ id, (d.marker id).state ≠ .opened → (d'.marker id).state = (d.marker id).state)
    (hpiece : ∀ id, .stop id ∈ piece →
      d.Started ∨ (d'.marker id).state = .dropped ∨ (d'.marker id).state = .error) :
    d'.NoEarlyNode := by
  intro id hid
  rw [hevents] at hid
  rcases mem_leadIn_append hid with hid | ⟨hd, hid⟩
  · have hstate := h id hid
    rw [hmarker id (by rcases hstate with hs | hs <;> simp [hs])]
    exact hstate
  · rcases hpiece id (leadIn_subset _ hid) with hs | hs
    · exact absurd hd hs
    · exact hs

/-! ### Recording tokens -/

/-- What is recorded with the next token that is no trivia. -/
theorem advance_cases (d : Draft) :
    (∃ blank t rest, d.ahead = blank ++ t :: rest ∧ (∀ b ∈ blank, b.isTrivia = true) ∧
      t.isTrivia = false ∧ d.current = t ∧
      d.advance = { d with
        ahead := rest, history := ((blank ++ [t]).map .token).reverse ++ d.history }) ∨
    ((∀ b ∈ d.ahead, b.isTrivia = true) ∧
      d.advance = { d with
        ahead := [], history := (d.ahead.map .token).reverse ++ d.history }) := by
  rcases consume_cases d.ahead d.history with ⟨blank, t, rest, he, hb, ht, hs, hc⟩ | ⟨hb, -, hc⟩
  · exact Or.inl ⟨blank, t, rest, he, hb, ht, by simp [current, lookahead, hs],
      by simp [advance, hc]⟩
  · exact Or.inr ⟨hb, by simp [advance, hc]⟩

theorem advance_grows (h : d.Ready) (hk : d.current.kind ≠ .eof) :
    d.Grows d.advance ∧ d.advance.Started ∧ d.advance.ahead.length < d.ahead.length := by
  rcases advance_cases d with ⟨blank, t, rest, he, -, -, hcur, hadv⟩ | ⟨hb, -⟩
  · rw [hcur] at hk
    have hevents : d.advance.events = d.events ++ (blank ++ [t]).map .token := by
      simp [hadv, events]
    have hahead : d.advance.ahead = rest := by rw [hadv]
    have hmarkers : d.advance.markers = d.markers := by rw [hadv]
    have hopened : d.advance.opened = d.opened := by rw [hadv]
    have hmarker : ∀ id, d.advance.marker id = d.marker id := fun id => by
      rw [marker, hmarkers, marker]
    have hready : d.advance.Ready := by
      refine ⟨?_, ?_, ?_, ?_⟩
      · rw [hadv]; exact h.uncancelled
      · rw [hopened, hmarkers]; exact h.known
      · refine h.noEarlyNode.append hevents (fun id _ => by rw [hmarker]) ?_
        intro id hid
        simp at hid
      · rw [hahead]
        exact (he ▸ h.endsWithEof).of_append hk
    refine ⟨⟨(blank ++ [t]).map .token, ⟨hready, hevents, ?_, fun id _ => hmarker id, ?_, ?_⟩,
      Balanced.tokens _, hopened⟩, ?_, ?_⟩
    · rw [tokensIn_map_token, hahead, he]
      simp
    · exact Nat.le_of_eq (congrArg Array.size hmarkers.symm)
    · intro id hid
      simp at hid
    · unfold Started
      rw [hevents, tokensIn_append, tokensIn_map_token]
      simp
    · rw [hahead, he, List.length_append, List.length_cons]
      omega
  · exact absurd hb h.endsWithEof.not_all_trivia

/-! ### Opening markers -/

theorem openMarker_within (h : d.Ready) :
    ∃ m d', d.openMarker = .ok (m, d') ∧ d.Within m d' ∧ d'.ahead = d.ahead := by
  let id := d.markers.size
  let d' : Draft := { d with
    markers := d.markers.push { resume := d.ahead }
    history := .start id :: d.history
    opened := id :: d.opened
    marksLeft := d.marksLeft.map (· - 1) }
  have hok : d.openMarker = .ok (id, d') := by simp [openMarker, h.uncancelled, id, d']
  have hevents : d'.events = d.events ++ [.start id] := by simp [d', events]
  have hmarker : ∀ j, d'.marker j = if j = id then { resume := d.ahead } else d.marker j :=
    fun j => d.marker_push _ j
  have hsize : d'.markers.size = d.markers.size + 1 := by simp [d']
  have hready : d'.Ready := by
    refine ⟨by simp [d', h.uncancelled], ?_, ?_, h.endsWithEof⟩
    · intro j hj
      rw [hsize]
      rcases List.mem_cons.mp hj with rfl | hj
      · exact Nat.lt_succ_self _
      · exact Nat.lt_succ_of_lt (h.known j hj)
    · refine h.noEarlyNode.append hevents ?_ (by simp)
      intro j hj
      rw [hmarker, if_neg (Nat.ne_of_lt (lt_size_of_state hj))]
  refine ⟨id, d', hok, ⟨[], ⟨hready, hevents, rfl, ?_, ?_, ?_⟩, Balanced.nil, by simp, rfl, ?_, ?_⟩,
    rfl⟩
  · intro j hj
    rw [hmarker, if_neg (Nat.ne_of_lt hj)]
  · rw [hsize]
    exact Nat.le_succ _
  · intro j hj
    have : j = id := by simpa using hj
    rw [this, hsize]
    exact ⟨Nat.le_refl _, Nat.lt_succ_self _⟩
  · simp [hmarker]
  · simp [hmarker]

/-- Where the start of a marker stands in the events, the latest first. -/
theorem since_upTo_eq {later earlier : List Event} (h : d.history = later ++ .start m :: earlier)
    (hm : .start m ∉ later) : d.since m = later ∧ d.upTo m = .start m :: earlier := by
  have hp : ∀ e ∈ later, (!e.isStart m) = true := by
    intro e he
    cases e with
    | token t => rfl
    | stop j => rfl
    | start j =>
      have : j ≠ m := by
        rintro rfl
        exact hm he
      simp [Event.isStart, this]
  unfold since upTo
  rw [h, List.takeWhile_append_of_pos hp, List.dropWhile_append_of_pos hp]
  simp [Event.isStart]

/-- The first offset after the start of a marker. -/
theorem startOffset_eq {p earlier : List Event}
    (h : d.history = p.reverse ++ .start m :: earlier) (hm : .start m ∉ p) :
    d.startOffset m = firstOffset p := by
  obtain ⟨hsince, hupTo⟩ := since_upTo_eq h (by simpa using hm)
  unfold startOffset
  rw [hsince, hupTo]
  simp

/-- The latest events are those of a piece that was added. -/
theorem Adds.history {p : List Event} (h : d.Adds p d') : d'.history = p.reverse ++ d.history := by
  have hrev := congrArg List.reverse h.events
  simp only [Draft.events, List.reverse_reverse, List.reverse_append] at hrev
  exact hrev

/-- The start of a marker does not matter to what comes before the first token. -/
theorem mem_leadIn_of_insert {j : MarkerId} {earlier later : List Event}
    (h : .stop j ∈ leadIn (earlier ++ .start m :: later)) :
    .stop j ∈ leadIn (earlier ++ later) := by
  by_cases hd : tokensIn earlier = []
  · rw [leadIn_append_of_no_tokens hd] at h ⊢
    simpa [leadIn, Event.token?] using h
  · rw [leadIn_append_of_tokens hd] at h ⊢
    exact h

theorem insertOutside_append {inner outer : MarkerId} {α β : List MarkerId} (h : inner ∉ α) :
    insertOutside inner outer (α ++ inner :: β) = α ++ inner :: outer :: β := by
  induction α with
  | nil => simp [insertOutside]
  | cons m α ih =>
    rw [List.mem_cons, not_or] at h
    rw [List.cons_append, insertOutside, if_neg (Ne.symm h.1), ih h.2]
    rfl

/-- The stack below a marker. -/
theorem tail_dropWhile_append {α β : List MarkerId} (h : m ∉ α) :
    ((α ++ m :: β).dropWhile (· ≠ m)).tail = β := by
  have hcut : ∀ j ∈ α, decide (j ≠ m) = true := by
    intro j hj
    rw [decide_eq_true_iff]
    rintro rfl
    exact h hj
  rw [List.dropWhile_append_of_pos hcut]
  simp

/-- A marker around a closed one is the innermost open one. -/
theorem openBefore_eq {later earlier : List Event}
    (hhistory : d.history = later ++ .start m :: earlier) (hfirst : .start m ∉ later)
    (hclosed : m ∉ d.opened) :
    d.openBefore m = .ok (d.markers.size, { d with
      markers := d.markers.push { resume := (d.marker m).resume }
      history := later ++ .start m :: .start d.markers.size :: earlier
      opened := d.markers.size :: d.opened }) := by
  obtain ⟨hsince, hupTo⟩ := since_upTo_eq hhistory hfirst
  unfold openBefore
  rw [hupTo, hsince]
  dsimp only
  rw [if_neg hclosed]

theorem openBefore_within (h : d.Ready) (hw : d.Wraps m d') :
    ∃ m' d'', d'.openBefore m = .ok (m', d'') ∧ d.Within m' d'' ∧ d''.ahead = d'.ahead := by
  obtain ⟨body, hb, nb, fb, ob, rb⟩ := hw
  let id := d'.markers.size
  have hhist : d'.history = body.reverse ++ .start m :: d.history := by
    simpa using hb.history
  have hnew : m ∉ d'.opened := by
    rw [ob]
    intro hmem
    exact absurd (h.known m hmem) (Nat.not_lt.mpr (hb.fresh m (by simp)).1)
  let d'' : Draft := { d' with
    markers := d'.markers.push { resume := (d'.marker m).resume }
    history := body.reverse ++ .start m :: .start id :: d.history
    opened := id :: d'.opened }
  have hok : d'.openBefore m = .ok (id, d'') :=
    openBefore_eq hhist (by simpa using fb) hnew
  have hevents : d''.events = d.events ++ .start id :: .start m :: body := by
    simp [d'', events]
  have hmarker : ∀ j, d''.marker j = if j = id then { resume := d.ahead } else d'.marker j := by
    intro j
    rw [← rb]
    exact d'.marker_push _ j
  have hsize : d''.markers.size = d'.markers.size + 1 := by simp [d'']
  have hknown : ∀ j ∈ d''.opened, j < d''.markers.size := by
    intro j hj
    rw [hsize]
    rcases List.mem_cons.mp hj with rfl | hj
    · exact Nat.lt_succ_self _
    · exact Nat.lt_succ_of_lt (hb.ready.known j hj)
  have hearly : d''.NoEarlyNode := by
    intro j hj
    have hj' : .stop j ∈ leadIn d'.events := by
      rw [hb.events]
      rw [hevents] at hj
      exact mem_leadIn_of_insert hj
    have hstate := hb.ready.noEarlyNode j hj'
    have hlt : j < d'.markers.size := lt_size_of_state (by rcases hstate with hs | hs <;> simp [hs])
    rw [hmarker, if_neg (Nat.ne_of_lt hlt)]
    exact hstate
  refine ⟨id, d'', hok, ⟨.start m :: body, ⟨⟨hb.ready.uncancelled, hknown, hearly,
    hb.ready.endsWithEof⟩, hevents, hb.tokens, ?_, ?_, ?_⟩, ?_, ?_, ?_, ?_, ?_⟩, rfl⟩
  · intro j hj
    rw [hmarker, if_neg (Nat.ne_of_lt (Nat.lt_of_lt_of_le hj hb.size)), hb.marker j hj]
  · rw [hsize]
    exact Nat.le_succ_of_le hb.size
  · intro j hj
    rw [hsize]
    rcases List.mem_cons.mp hj with hj | hj
    · cases hj
      exact ⟨hb.size, Nat.lt_succ_self _⟩
    · obtain ⟨h₁, h₂⟩ := hb.fresh j hj
      exact ⟨h₁, Nat.lt_succ_of_lt h₂⟩
  · intro σ
    rw [openedAfter_start]
    exact nb σ
  · intro hmem
    exact absurd (hb.fresh id hmem).2 (Nat.lt_irrefl _)
  · rw [← ob]
  · simp [hmarker]
  · simp [hmarker]

/-! ### Ending markers -/

/-- What ending the innermost open marker makes of a draft. -/
theorem close_cases {state : MarkerState} (h : d.close m state = .ok d') :
    (d.marker m).state = .opened ∧ ∃ outer, d.opened = m :: outer ∧
      d' = { d with
        markers := d.markers.setIfInBounds m { d.marker m with state, offset := d.startOffset m }
        history := .stop m :: d.history
        opened := outer } := by
  unfold close at h
  dsimp only at h
  split at h
  · cases h
  · next hstate =>
    split at h
    · cases h
    · next innermost outer hopened =>
      split at h
      · cases h
      · next hinner =>
        cases h
        exact ⟨not_not.mp hstate, outer, not_not.mp hinner ▸ hopened, rfl⟩

theorem mem_opened_of_close {state : MarkerState} (h : d.close m state = .ok d') :
    m ∈ d.opened := by
  obtain ⟨-, outer, hopened, -⟩ := close_cases h
  rw [hopened]
  exact List.mem_cons_self

theorem closeAs_cases {n : NodeId} {kind : NodeKind} (h : d.closeAs m n kind = .ok d') :
    ∃ d₁, d.close m .done = .ok d₁ ∧ d' = d₁.modifyMarker m fun r =>
      { r with kind := some kind, node := some n, nameMarker := d₁.nameMarker? m kind } := by
  unfold closeAs at h
  cases hclose : d.close m .done with
  | error e =>
    rw [hclose] at h
    cases h
  | ok d₁ =>
    rw [hclose] at h
    cases h
    exact ⟨d₁, rfl, rfl⟩

theorem closeGroup_cases (h : d.closeGroup m = .ok d') :
    ∃ d₁, d.close m .done = .ok d₁ ∧
      d' = d₁.modifyMarker m fun r => { r with kind := some .group } := by
  unfold closeGroup at h
  cases hclose : d.close m .done with
  | error e =>
    rw [hclose] at h
    cases h
  | ok d₁ =>
    rw [hclose] at h
    cases h
    exact ⟨d₁, rfl, rfl⟩

/-- A message that was reported before is not reported again. -/
theorem closeError_cases {diagnostic : Diagnostic} (h : d.closeError m diagnostic = .ok d') :
    (d.messages.insert? diagnostic.message = none ∧ d.dissolve m = .ok d') ∨
      ∃ messages d₁, d.messages.insert? diagnostic.message = some messages ∧
        close { d with messages } m .error = .ok d₁ ∧
        d' = d₁.modifyMarker m fun r => { r with diagnostic := some diagnostic } := by
  unfold closeError at h
  split at h
  · next hnone => exact .inl ⟨hnone, h⟩
  · next messages hinsert =>
    cases hclose : close { d with messages } m .error with
    | error e =>
      rw [hclose] at h
      cases h
    | ok d₁ =>
      rw [hclose] at h
      cases h
      exact .inr ⟨messages, d₁, hinsert, hclose, rfl⟩

/-- What a draft knows besides its reported messages is the same with other messages. -/
theorem Within.withMessages (h : d.Within m d') (messages : MessageSet) :
    d.Within m { d' with messages } := by
  obtain ⟨p, ⟨⟨r₁, r₂, r₃, r₄⟩, hp₂, hp₃, hp₄, hp₅, hp₆⟩, bp, fp, op, sp, rp⟩ := h
  exact ⟨p, ⟨⟨r₁, r₂, r₃, r₄⟩, hp₂, hp₃, hp₄, hp₅, hp₆⟩, bp, fp, op, sp, rp⟩

/-- Ending the innermost marker.  It may become a node only after the first token. -/
theorem close_ends (state : MarkerState) (hw : d.Within m d')
    (hstate : d'.Started ∨ state = .dropped ∨ state = .error) :
    ∃ d'', d'.close m state = .ok d'' ∧ d.Ends m d' d'' := by
  obtain ⟨p, hp, bp, fp, op, sp, rp⟩ := hw
  have hm : m < d'.markers.size := (hp.fresh m (by simp)).2
  let record : Marker := { d'.marker m with state, offset := d'.startOffset m }
  let d'' : Draft := { d' with
    markers := d'.markers.setIfInBounds m record
    history := .stop m :: d'.history
    opened := d.opened }
  have hok : d'.close m state = .ok d'' := by simp [close, sp, op, record, d'']
  have hevents : d''.events = d'.events ++ [.stop m] := by simp [d'', events]
  have hmarker : ∀ j, d''.marker j = if m = j then record else d'.marker j :=
    fun j => d'.marker_setIfInBounds m j record hm
  have hsize : d''.markers.size = d'.markers.size := by simp [d'']
  have hknown : ∀ j ∈ d''.opened, j < d''.markers.size := by
    intro j hj
    rw [hsize]
    exact hp.ready.known j (by rw [op]; exact List.mem_cons_of_mem _ hj)
  have hearly : d''.NoEarlyNode := by
    refine hp.ready.noEarlyNode.append hevents ?_ ?_
    · intro j hj
      rw [hmarker, if_neg]
      rintro rfl
      exact hj sp
    · intro j hj
      have : j = m := by simpa using hj
      rw [hmarker, if_pos this.symm]
      exact hstate
  have hstarted : d'.Started → d''.Started := by
    unfold Started
    rw [hevents]
    simp
  refine ⟨d'', hok, ⟨p ++ [.stop m], ⟨⟨hp.ready.uncancelled, hknown, hearly,
    hp.ready.endsWithEof⟩, ?_, ?_, ?_, ?_, ?_⟩, ?_, ?_, rfl, ?_⟩, rfl, hstarted⟩
  · rw [hevents, hp.events, List.append_assoc, List.cons_append]
  · rw [hp.tokens]
    simp [d'']
  · intro j hj
    rw [hmarker, if_neg, hp.marker j hj]
    rintro rfl
    exact absurd (hp.fresh m (by simp)).1 (Nat.not_le.mpr hj)
  · rw [hsize]
    exact hp.size
  · intro j hj
    rw [hsize]
    exact hp.fresh j (by simpa using hj)
  · intro σ
    rw [openedAfter_append, bp]
    simp
  · simpa using fp
  · rw [hmarker, if_pos rfl]
    exact rp

/-- The record of an ended marker may be completed. -/
theorem Ends.modifyMarker {d₀ : Draft} (he : d.Ends m d₀ d') {f : Marker → Marker}
    (hstate : ∀ r, (f r).state = r.state) (hresume : ∀ r, (f r).resume = r.resume) :
    d.Ends m d₀ (d'.modifyMarker m f) := by
  refine ⟨?_, he.ahead, he.started⟩
  obtain ⟨body, hb, nb, fb, ob, rb⟩ := he.wraps
  obtain ⟨hlo, hhi⟩ := hb.fresh m (by simp)
  have hmarker := fun j => d'.marker_modify m j f hhi
  have hsize : (d'.modifyMarker m f).markers.size = d'.markers.size := by
    simp [Draft.modifyMarker]
  have hstate' : ∀ j, ((d'.modifyMarker m f).marker j).state = (d'.marker j).state := by
    intro j
    rw [hmarker]
    split
    · next hj => rw [hstate, hj]
    · rfl
  refine ⟨body, ⟨⟨hb.ready.uncancelled, ?_, ?_, hb.ready.endsWithEof⟩, hb.events, hb.tokens, ?_,
    ?_, ?_⟩, nb, fb, ob, ?_⟩
  · rw [hsize]
    exact hb.ready.known
  · intro j hj
    rw [hstate']
    exact hb.ready.noEarlyNode j hj
  · intro j hj
    rw [hmarker, if_neg, hb.marker j hj]
    rintro rfl
    exact absurd hlo (Nat.not_le.mpr hj)
  · rw [hsize]
    exact hb.size
  · rw [hsize]
    exact hb.fresh
  · rw [hmarker, if_pos rfl, hresume, rb]

/-- The innermost opened marker was ended; no other marker was touched. -/
structure Closes (m : MarkerId) (d d' : Draft) : Prop where
  marker : ∀ j, j ≠ m → d'.marker j = d.marker j
  size : d'.markers.size = d.markers.size
  textEnd : d'.textEnd = d.textEnd
  ahead : d'.ahead = d.ahead
  history : d'.history = .stop m :: d.history
  opened : d.opened = m :: d'.opened
  resume : (d'.marker m).resume = (d.marker m).resume

/-- The messages do not matter to what is ended. -/
theorem Closes.of_messages {messages : MessageSet} (h : Closes m { d with messages } d') :
    d.Closes m d' :=
  ⟨h.marker, h.size, h.textEnd, h.ahead, h.history, h.opened, h.resume⟩

theorem close_closes {state : MarkerState} (hm : m < d.markers.size)
    (h : d.close m state = .ok d') :
    d.Closes m d' ∧ (d'.marker m).state = state ∧ (d'.marker m).offset = d.startOffset m ∧
      (d'.marker m).node = (d.marker m).node ∧ (d'.marker m).kind = (d.marker m).kind := by
  obtain ⟨-, outer, hopened, rfl⟩ := close_cases h
  have hmarker := fun j => d.marker_setIfInBounds m j
    { d.marker m with state, offset := d.startOffset m } hm
  have hself := (hmarker m).trans (if_pos rfl)
  refine ⟨⟨?_, ?_, rfl, rfl, rfl, hopened, ?_⟩, ?_, ?_, ?_, ?_⟩
  · intro j hj
    exact (hmarker j).trans (if_neg (Ne.symm hj))
  · simp
  · exact (congrArg Marker.resume hself :)
  · exact (congrArg Marker.state hself :)
  · exact (congrArg Marker.offset hself :)
  · exact (congrArg Marker.node hself :)
  · exact (congrArg Marker.kind hself :)

theorem Closes.modifyMarker (h : d.Closes m d') (hm : m < d.markers.size) {f : Marker → Marker}
    (hresume : ∀ r, (f r).resume = r.resume) : d.Closes m (d'.modifyMarker m f) := by
  have hmarker := fun j => d'.marker_modify m j f (h.size ▸ hm)
  refine ⟨?_, ?_, h.textEnd, h.ahead, h.history, h.opened, ?_⟩
  · intro j hj
    rw [hmarker, if_neg (Ne.symm hj), h.marker j hj]
  · rw [← h.size]
    simp [Draft.modifyMarker]
  · rw [hmarker, if_pos rfl, hresume, h.resume]

theorem closeAs_ends (hw : d.Within m d') (hs : d'.Started) (node : NodeId) (kind : NodeKind) :
    ∃ d'', d'.closeAs m node kind = .ok d'' ∧ d.Ends m d' d'' := by
  obtain ⟨d₁, hok, he⟩ := close_ends .done hw (Or.inl hs)
  refine ⟨_, ?_, he.modifyMarker (f := fun r =>
    { r with kind := some kind, node := some node, nameMarker := d₁.nameMarker? m kind })
    (fun _ => rfl) (fun _ => rfl)⟩
  simp only [closeAs, hok]
  rfl

theorem dissolve_ends (hw : d.Within m d') :
    ∃ d'', d'.dissolve m = .ok d'' ∧ d.Ends m d' d'' :=
  close_ends .dropped hw (Or.inr (Or.inl rfl))

theorem closeWith_ends (hw : d.Within m d') (hs : d'.Started) (node : NodeId) (ast : Ast) :
    ∃ d'', d'.closeWith m node ast = .ok d'' ∧ d.Ends m d' d'' := by
  unfold closeWith
  split
  · exact closeAs_ends hw hs node _
  · exact dissolve_ends hw

theorem closeGroup_ends (hw : d.Within m d') (hs : d'.Started) :
    ∃ d'', d'.closeGroup m = .ok d'' ∧ d.Ends m d' d'' := by
  obtain ⟨d₁, hok, he⟩ := close_ends .done hw (Or.inl hs)
  refine ⟨_, ?_, he.modifyMarker (f := fun r => { r with kind := some .group })
    (fun _ => rfl) (fun _ => rfl)⟩
  simp only [closeGroup, hok]
  rfl

theorem closeError_ends (hw : d.Within m d') (diagnostic : Diagnostic) :
    ∃ d'', d'.closeError m diagnostic = .ok d'' ∧ d.Ends m d' d'' := by
  unfold closeError
  split
  · exact dissolve_ends hw
  · next messages _ =>
    obtain ⟨d₁, hok, he⟩ := close_ends .error (hw.withMessages messages) (Or.inr (Or.inr rfl))
    have he' : d.Ends m d' d₁ := ⟨he.wraps, he.ahead, he.started⟩
    refine ⟨_, ?_, he'.modifyMarker (f := fun r => { r with diagnostic := some diagnostic })
      (fun _ => rfl) (fun _ => rfl)⟩
    rw [hok]
    rfl

/-! ### Taking markers back -/

/-- Retracting markers changes nothing but their records and the messages. -/
theorem foldl_retract (ids : List MarkerId) (d : Draft) :
    (ids.foldl retract d).history = d.history ∧ (ids.foldl retract d).opened = d.opened ∧
      (ids.foldl retract d).marksLeft = d.marksLeft ∧
      (ids.foldl retract d).markers.size = d.markers.size ∧
      ∀ j ∉ ids, (ids.foldl retract d).marker j = d.marker j := by
  induction ids generalizing d with
  | nil => exact ⟨rfl, rfl, rfl, rfl, fun _ _ => rfl⟩
  | cons i ids ih =>
    obtain ⟨h₁, h₂, h₃, h₄, h₅⟩ := ih (d.retract i)
    refine ⟨h₁, h₂, h₃, h₄.trans (by simp [retract]), ?_⟩
    intro j hj
    rw [List.foldl_cons, h₅ j (fun h => hj (List.mem_cons_of_mem _ h))]
    have hij : i ≠ j := by
      rintro rfl
      exact hj (by simp)
    simp [retract, marker, Array.getD_eq_getD_getElem?, hij]

/-- Retracting marks the markers as taken back and changes the state of no other. -/
theorem foldl_retract_state (ids : List MarkerId) (d : Draft) {j : MarkerId}
    (hj : j < d.markers.size) : ((ids.foldl retract d).marker j).state =
      if j ∈ ids then .rolledBack else (d.marker j).state := by
  induction ids generalizing d with
  | nil => rfl
  | cons i ids ih =>
    have hsize : (d.retract i).markers.size = d.markers.size := Array.size_setIfInBounds
    rw [List.foldl_cons, ih (d.retract i) (hsize ▸ hj)]
    by_cases hmem : j ∈ ids
    · rw [if_pos hmem, if_pos (List.mem_cons_of_mem i hmem)]
    · rw [if_neg hmem]
      by_cases hij : i = j
      · subst hij
        rw [if_pos (by simp)]
        have hrecord := d.marker_setIfInBounds i i
          { d.marker i with state := .rolledBack, diagnostic := none } hj
        rw [if_pos rfl] at hrecord
        exact congrArg Marker.state hrecord
      · rw [if_neg (by simp [hmem, Ne.symm hij])]
        exact congrArg Marker.state ((foldl_retract [i] d).2.2.2.2 j (by simpa using Ne.symm hij))

/-- A marker that is taken back keeps its node. -/
theorem foldl_retract_node (ids : List MarkerId) (d : Draft) (j : MarkerId) :
    ((ids.foldl retract d).marker j).node = (d.marker j).node := by
  induction ids generalizing d with
  | nil => rfl
  | cons i ids ih =>
    rw [List.foldl_cons, ih]
    by_cases hi : i < d.markers.size
    · have hrecord := d.marker_setIfInBounds i j
        { d.marker i with state := .rolledBack, diagnostic := none } hi
      split at hrecord
      · next heq =>
        subst heq
        exact (congrArg Marker.node hrecord :)
      · exact (congrArg Marker.node hrecord :)
    · have hsame : (d.retract i).markers = d.markers :=
        Array.setIfInBounds_eq_of_size_le (Nat.le_of_not_lt hi)
      rw [Draft.marker, hsame, Draft.marker]

theorem foldl_retract_textEnd (ids : List MarkerId) (d : Draft) :
    (ids.foldl retract d).textEnd = d.textEnd := by
  induction ids generalizing d with
  | nil => rfl
  | cons i ids ih => exact ih (d.retract i)

/-- What an open marker leaves when it is taken back. -/
theorem undo_eq {later earlier : List Event} {α β : List MarkerId}
    (hstate : (d.marker m).state = .opened) (hhistory : d.history = later ++ .start m :: earlier)
    (hfirst : .start m ∉ later) (hopened : d.opened = α ++ m :: β) (hα : m ∉ α) :
    d.undo m = .ok { ((later ++ [Event.start m]).filterMap Event.started?).foldl retract d with
      history := earlier, opened := β, ahead := (d.marker m).resume } := by
  obtain ⟨hsince, hupTo⟩ := since_upTo_eq hhistory hfirst
  have hmem : m ∈ d.opened := by
    rw [hopened]
    simp
  have hbelow : (d.opened.dropWhile (· ≠ m)).tail = β := by
    rw [hopened, tail_dropWhile_append hα]
  unfold undo
  simp only [hstate, hupTo, hsince, if_pos hmem, hbelow, ne_eq, not_true_eq_false, if_false]

theorem undo_grows (h : d.Ready) (hw : d.Within m d') :
    ∃ d'', d'.undo m = .ok d'' ∧ d.Grows d'' ∧ d''.ahead = d.ahead ∧ d''.events = d.events := by
  obtain ⟨p, hp, bp, fp, op, sp, rp⟩ := hw
  have hhist : d'.history = p.reverse ++ .start m :: d.history := by
    simpa using hp.history
  let ids := (p.reverse ++ [Event.start m]).filterMap Event.started?
  have hids : ∀ j ∈ ids, d.markers.size ≤ j := by
    intro j hj
    refine (hp.fresh j ?_).1
    simpa [or_comm] using mem_started_iff.mp hj
  obtain ⟨-, -, hmarks, hsize, hmarker⟩ := foldl_retract ids d'
  let d'' : Draft := { ids.foldl retract d' with
    history := d.history, opened := d.opened, ahead := d.ahead }
  have hok : d'.undo m = .ok d'' := by
    rw [undo_eq sp hhist (by simpa using fp) (α := []) op List.not_mem_nil, rp]
  have hold : ∀ j < d.markers.size, d''.marker j = d.marker j := by
    intro j hj
    have hnot : j ∉ ids := fun hmem => absurd (hids j hmem) (Nat.not_le.mpr hj)
    exact (hmarker j hnot).trans (hp.marker j hj)
  have hsize' : d.markers.size ≤ d''.markers.size := by
    rw [show d''.markers.size = d'.markers.size from hsize]
    exact hp.size
  have hready : d''.Ready := by
    refine ⟨hmarks.trans hp.ready.uncancelled, ?_, ?_, h.endsWithEof⟩
    · intro j hj
      exact Nat.lt_of_lt_of_le (h.known j hj) hsize'
    · have hevents : d''.events = d.events ++ [] := (List.append_nil _).symm
      refine h.noEarlyNode.append hevents ?_ (by simp)
      intro j hj
      rw [hold j (lt_size_of_state hj)]
  exact ⟨d'', hok, ⟨[], ⟨hready, (List.append_nil _).symm, rfl, hold, hsize', by simp⟩,
    Balanced.nil, rfl⟩, rfl, rfl⟩

end Draft

end ScriptAnalysis
