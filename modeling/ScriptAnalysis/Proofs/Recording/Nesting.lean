import ScriptAnalysis.Proofs.Recording.Naming
import ScriptAnalysis.Proofs.Recording.Offsets

/-!
# Constructs in a list of events

A `Construct` is a node that has a marker, with the events before the marker, in it and behind it.
Two constructs of one list of events are nested or stand one behind the other.  The key of a
construct has the offset of the first token behind its start that is no trivia, so of two constructs
with the same offset that stand one behind the other, the first one holds no such token.
-/

namespace ScriptAnalysis

/-! ### Brackets -/

/-- The marker that ends at an event. -/
def Event.stopped? : Event → Option MarkerId
  | .stop m => some m
  | _ => none

/-- The ids of the markers that end among some events. -/
theorem mem_stopped_iff {p : List Event} {id : MarkerId} :
    id ∈ p.filterMap Event.stopped? ↔ .stop id ∈ p := by
  rw [List.mem_filterMap]
  constructor
  · rintro ⟨e, he, hstop⟩
    cases e with
    | stop j => exact Option.some.inj hstop ▸ he
    | token t => cases hstop
    | start j => cases hstop
  · exact fun h => ⟨_, h, rfl⟩

section

variable {p q : List Event}

/-- Balanced events do not end a marker that was opened before them. -/
theorem not_balanced_of_stop {m : MarkerId} (hp : Balanced p) : ¬ Balanced (p ++ .stop m :: q) := by
  intro h
  have hnone := h []
  rw [openedAfter_append, hp []] at hnone
  cases hnone

/-- The markers that are open before some events or start among them are those that end among them
    or are open afterwards. -/
theorem started_perm_stopped {σ τ : List MarkerId} (h : openedAfter σ p = some τ) :
    (p.filterMap Event.started? ++ σ).Perm (p.filterMap Event.stopped? ++ τ) := by
  induction p generalizing σ with
  | nil =>
    rw [openedAfter_nil] at h
    cases h
    rfl
  | cons e p ih =>
    cases e with
    | token t =>
      rw [openedAfter_token] at h
      exact ih h
    | start id =>
      rw [openedAfter_start] at h
      exact List.perm_middle.symm.trans (ih h)
    | stop id =>
      cases σ with
      | nil => cases h
      | cons top σ =>
        rw [openedAfter] at h
        split at h
        · next htop =>
          subst htop
          exact List.perm_middle.trans ((ih h).cons top)
        · cases h

/-- The end of a marker is where the events behind its start are no longer balanced. -/
theorem body_unique {p' q' : List Event} {m m' : MarkerId} (hp : Balanced p) (hp' : Balanced p')
    (heq : p ++ .stop m :: q = p' ++ .stop m' :: q') : p = p' ∧ q = q' := by
  rcases List.append_eq_append_iff.mp heq with ⟨more, rfl, hmore⟩ | ⟨more, rfl, hmore⟩
  · cases more with
    | nil =>
      rw [List.nil_append] at hmore
      exact ⟨(List.append_nil _).symm, (List.cons.inj hmore).2⟩
    | cons e more =>
      obtain ⟨rfl, -⟩ := List.cons.inj hmore
      exact absurd hp' (not_balanced_of_stop hp)
  · cases more with
    | nil =>
      rw [List.nil_append] at hmore
      exact ⟨List.append_nil _, (List.cons.inj hmore).2.symm⟩
    | cons e more =>
      obtain ⟨rfl, -⟩ := List.cons.inj hmore
      exact absurd hp (not_balanced_of_stop hp')

end

/-- What occurs once in a list divides it in one way. -/
theorem split_unique {α β : Type} {f : α → Option β} {l p q p' q' : List α} {x y : α} {v : β}
    (hnodup : (l.filterMap f).Nodup) (h : l = p ++ x :: q) (h' : l = p' ++ y :: q')
    (hx : f x = some v) (hy : f y = some v) : p = p' ∧ q = q' := by
  have hone : ∀ {p q r : List α} {x y : α}, l = p ++ x :: (q ++ y :: r) → f x = some v →
      f y ≠ some v := by
    rintro p q r x y rfl hx hy
    simp [List.filterMap_append, hx, hy, List.nodup_append] at hnodup
  rcases List.append_eq_append_iff.mp (h.symm.trans h') with ⟨more, rfl, hmore⟩ | ⟨more, rfl, hmore⟩
  · cases more with
    | nil => exact ⟨(List.append_nil p).symm, (List.cons.inj hmore).2⟩
    | cons z more =>
      rw [List.cons_append] at hmore
      obtain ⟨rfl, rfl⟩ := List.cons.inj hmore
      exact absurd hy (hone h hx)
  · cases more with
    | nil => exact ⟨List.append_nil p', (List.cons.inj hmore).2.symm⟩
    | cons z more =>
      rw [List.cons_append] at hmore
      obtain ⟨rfl, rfl⟩ := List.cons.inj hmore
      exact absurd hx (hone h' hy)

/-! ### Constructs -/

/-- A node that has a marker, and the events before the marker, in it and behind it. -/
structure Construct where
  marker : MarkerId
  node : NodeId
  data : NodeData
  before : List Event
  body : List Event
  after : List Event

namespace Construct

/-- The events from the start of the marker to its end. -/
def whole (c : Construct) : List Event := .start c.marker :: c.body ++ [.stop c.marker]

/-- How many events stand before the construct. -/
def start (c : Construct) : Nat := c.before.length

/-- How many events stand before the construct or belong to it. -/
def stop (c : Construct) : Nat := c.start + c.whole.length

/-- The offset of the first token behind the start that is no trivia. -/
def offset? (c : Construct) : Option Nat := firstOffset (c.body ++ c.after)

/-- More events around the same construct. -/
def widen (c : Construct) (p q : List Event) : Construct :=
  { c with before := p ++ c.before, after := c.after ++ q }

/-- The construct is among these events, and its marker became a node of the tree. -/
structure In (ast : Ast) (mk : MarkerId → Marker) (events : List Event) (c : Construct) : Prop where
  eq : events = c.before ++ c.whole ++ c.after
  balanced : Balanced c.body
  means : (mk c.marker).Means c.node c.data c.body
  found : ast.data? c.node = some c.data

/-- The first construct stands in the second one, behind the events `p` and before the events
    `q`. -/
structure Inside (inner outer : Construct) (p q : List Event) : Prop where
  body : outer.body = p ++ inner.whole ++ q
  before : inner.before = outer.before ++ .start outer.marker :: p
  after : inner.after = q ++ .stop outer.marker :: outer.after

/-- The first construct stands in front of the second one, with the events `p` between them. -/
structure Precedes (first second : Construct) (p : List Event) : Prop where
  after : first.after = p ++ second.whole ++ second.after
  before : second.before = first.before ++ first.whole ++ p

variable {ast : Ast} {mk : MarkerId → Marker} {events p q : List Event}
  {c d : Construct} {o o' : Nat}

theorem length_whole (c : Construct) : c.whole.length = c.body.length + 2 := by
  simp [whole]

theorem start_lt_stop (c : Construct) : c.start < c.stop := by
  unfold stop
  rw [length_whole]
  omega

theorem Inside.lt (h : d.Inside c p q) : c.start < d.start ∧ d.stop < c.stop := by
  have hbefore := congrArg List.length h.before
  have hbody := congrArg List.length h.body
  simp only [List.length_append, List.length_cons, length_whole] at hbefore hbody
  unfold stop start
  simp only [length_whole]
  omega

theorem Precedes.le (h : c.Precedes d p) : c.stop ≤ d.start := by
  have hbefore := congrArg List.length h.before
  simp only [List.length_append, length_whole] at hbefore
  unfold stop start
  simp only [length_whole]
  omega

/-! ### Two constructs -/

namespace In

theorem split (h : c.In ast mk events) :
    events = c.before ++ .start c.marker :: (c.body ++ .stop c.marker :: c.after) := by
  rw [h.eq]
  simp [whole]

theorem widen (h : c.In ast mk events) (p q : List Event) :
    (c.widen p q).In ast mk (p ++ events ++ q) where
  eq := by
    rw [h.eq]
    simp [Construct.widen, whole]
  balanced := h.balanced
  means := h.means
  found := h.found

theorem start_mem (h : c.In ast mk events) : .start c.marker ∈ events := by
  rw [h.split]
  simp

theorem getElem?_start (h : c.In ast mk events) : events[c.start]? = some (.start c.marker) := by
  rw [h.split, start, List.getElem?_append_right (Nat.le_refl _)]
  simp

theorem getElem?_stop (h : c.In ast mk events) :
    events[c.stop - 1]? = some (.stop c.marker) := by
  have hpos : c.stop - 1 = (c.before ++ .start c.marker :: c.body).length := by
    unfold stop start
    rw [length_whole]
    simp
  rw [h.split, hpos, ← List.cons_append, ← List.append_assoc,
    List.getElem?_append_right (Nat.le_refl _)]
  simp

theorem stop_le (h : c.In ast mk events) : c.stop ≤ events.length := by
  rw [h.eq, List.length_append, List.length_append]
  exact Nat.le_add_right _ _

/-- The end of a construct is the one end of its marker. -/
theorem stop_eq (h : c.In ast mk events) (hnodup : (events.filterMap Event.stopped?).Nodup)
    (heq : events = p ++ .stop c.marker :: q) : c.stop = p.length + 1 := by
  have hsplit : events = (c.before ++ .start c.marker :: c.body) ++ .stop c.marker :: c.after := by
    rw [h.split]
    simp
  obtain ⟨rfl, -⟩ := split_unique hnodup heq hsplit rfl rfl
  unfold stop start
  rw [length_whole]
  simp
  omega

/-- A marker that starts once belongs to one construct. -/
theorem eq_of_marker (hc : c.In ast mk events) (hd : d.In ast mk events)
    (hnodup : (events.filterMap Event.started?).Nodup) (hmarker : c.marker = d.marker) : c = d := by
  have hsplit := hd.split
  rw [← hmarker] at hsplit
  obtain ⟨hbefore, hrest⟩ := split_unique hnodup hc.split hsplit rfl rfl
  obtain ⟨marker, node, data, before, body, after⟩ := c
  obtain ⟨marker', node', data', before', body', after'⟩ := d
  dsimp only at hmarker hbefore
  subst hmarker hbefore
  obtain ⟨rfl, rfl⟩ := body_unique hc.balanced hd.balanced hrest
  obtain rfl : node = node' := Option.some.inj (hc.means.node.symm.trans hd.means.node)
  obtain rfl : data = data' := Option.some.inj (hc.found.symm.trans hd.found)
  rfl

/-- Of two constructs the one that starts first holds the other one or stands in front of it. -/
theorem inside_or_precedes (hc : c.In ast mk events) (hd : d.In ast mk events)
    (hmarker : c.marker ≠ d.marker) (hbefore : d.before = c.before ++ .start c.marker :: p) :
    (∃ x y, d.Inside c x y) ∨ ∃ x, c.Precedes d x := by
  have hrest : c.body ++ .stop c.marker :: c.after = p ++ (d.whole ++ d.after) := by
    have heq := hc.split.symm.trans hd.eq
    rw [hbefore, List.append_assoc, List.append_assoc] at heq
    exact (List.cons.inj (List.append_cancel_left heq)).2
  rcases List.append_eq_append_iff.mp hrest with ⟨more, hp, hmore⟩ | ⟨more, hbody, hmore⟩
  · cases more with
    | nil => simp [whole] at hmore
    | cons e more =>
      rw [List.cons_append] at hmore
      obtain ⟨rfl, hafter⟩ := List.cons.inj hmore
      refine .inr ⟨more, ?_, ?_⟩
      · rw [hafter, List.append_assoc]
      · rw [hbefore, hp]
        simp [whole]
  · cases more with
    | nil => simp [whole] at hmore
    | cons e more =>
      have hinner : d.body ++ .stop d.marker :: d.after = more ++ .stop c.marker :: c.after := by
        simp only [whole, List.cons_append, List.append_assoc, List.cons.injEq] at hmore
        exact hmore.2
      obtain rfl : e = .start d.marker := by
        simp only [whole, List.cons_append, List.cons.injEq] at hmore
        exact hmore.1.symm
      rcases List.append_eq_append_iff.mp hinner with ⟨rest, hmore', hafter⟩ | ⟨rest, hd', hrest'⟩
      · cases rest with
        | nil => exact absurd (Event.stop.inj (List.cons.inj hafter).1).symm hmarker
        | cons e rest =>
          rw [List.cons_append] at hafter
          obtain ⟨rfl, hafter'⟩ := List.cons.inj hafter
          refine .inl ⟨p, rest, ?_, hbefore, hafter'⟩
          rw [hbody, hmore']
          simp [whole]
      · cases rest with
        | nil => exact absurd (Event.stop.inj (List.cons.inj hrest').1) hmarker
        | cons e rest =>
          -- The end of `c` would stand in `d`, but whatever is open in `c` before it was opened in
          -- `d`.
          obtain ⟨rfl, -⟩ := List.cons.inj hrest'
          have hc' := hc.balanced []
          rw [hbody, openedAfter_append] at hc'
          obtain ⟨τ, -, hτ⟩ := Option.bind_eq_some_iff.mp hc'
          rw [openedAfter_start] at hτ
          have hd'' := hd.balanced (d.marker :: τ)
          rw [hd', openedAfter_append, hτ] at hd''
          cases hd''

/-- Two constructs are nested, or one stands in front of the other. -/
theorem nested_or_apart (hc : c.In ast mk events) (hd : d.In ast mk events)
    (hmarker : c.marker ≠ d.marker) : (∃ x y, d.Inside c x y) ∨ (∃ x y, c.Inside d x y) ∨
      (∃ x, c.Precedes d x) ∨ ∃ x, d.Precedes c x := by
  rcases List.append_eq_append_iff.mp (hc.split.symm.trans hd.split) with
    ⟨more, hmore, hrest⟩ | ⟨more, hmore, hrest⟩
  · cases more with
    | nil => exact absurd (Event.start.inj (List.cons.inj hrest).1) hmarker
    | cons e more =>
      obtain ⟨rfl, -⟩ := List.cons.inj hrest
      rcases hc.inside_or_precedes hd hmarker hmore with h | h
      · exact .inl h
      · exact .inr (.inr (.inl h))
  · cases more with
    | nil => exact absurd (Event.start.inj (List.cons.inj hrest).1).symm hmarker
    | cons e more =>
      obtain ⟨rfl, -⟩ := List.cons.inj hrest
      rcases hd.inside_or_precedes hc hmarker.symm hmore with h | h
      · exact .inr (.inl h)
      · exact .inr (.inr (.inr h))

end In

/-! ### Offsets of constructs -/

/-- A construct that holds a token which is no trivia has the offset of the first one. -/
theorem offset?_of_body (h : firstOffset c.body = some o) : c.offset? = some o := by
  unfold offset?
  rw [firstOffset_append, h]
  rfl

/-- Whatever stands in front of a construct has smaller offsets. -/
theorem In.lt_offset (h : c.In ast mk events) (hascending : Ascending events)
    (ho : o ∈ offsetsIn c.before) (ho' : c.offset? = some o') : o < o' := by
  rw [h.split] at hascending
  refine hascending.lt ho ?_
  have hmem := mem_offsetsIn ho'
  rw [offsetsIn_append] at hmem
  show o' ∈ offsetsIn ([.start c.marker] ++ (c.body ++ ([.stop c.marker] ++ c.after)))
  rw [offsetsIn_append, offsetsIn_append, offsetsIn_append]
  exact List.mem_append_right _ ((List.mem_append.mp hmem).elim (List.mem_append_left _)
    fun hafter => List.mem_append_right _ (List.mem_append_right _ hafter))

/-- If a construct has the offset of the one around it, no token stands between their starts but
    trivia. -/
theorem Inside.firstOffset_eq_none (h : d.Inside c p q) (hd : d.In ast mk events)
    (hascending : Ascending events) (ho : c.offset? = some o) (ho' : d.offset? = some o) :
    firstOffset p = none := by
  by_contra hsome
  obtain ⟨o₁, ho₁⟩ := Option.ne_none_iff_exists'.mp hsome
  have hfirst : c.offset? = some o₁ := by
    unfold offset?
    rw [h.body, List.append_assoc, List.append_assoc, firstOffset_append, ho₁]
    rfl
  obtain rfl := Option.some.inj (ho.symm.trans hfirst)
  refine Nat.lt_irrefl o (hd.lt_offset hascending ?_ ho')
  rw [h.before, offsetsIn_append]
  exact List.mem_append_right _ (mem_offsetsIn ho₁)

theorem Inside.firstOffset_body (h : d.Inside c p q) (hp : firstOffset p = none)
    (ho : firstOffset d.body = some o) : firstOffset c.body = some o := by
  rw [h.body, firstOffset_append, firstOffset_append, hp, whole, firstOffset_wrap, ho]
  rfl

/-- If a construct has the offset of one behind it, it holds no token but trivia, and none stands
    between them. -/
theorem Precedes.firstOffset_eq_none (h : c.Precedes d p) (hd : d.In ast mk events)
    (hascending : Ascending events) (ho : c.offset? = some o) (ho' : d.offset? = some o) :
    firstOffset c.body = none ∧ firstOffset p = none := by
  have hnone : firstOffset (c.body ++ p) = none := by
    by_contra hsome
    obtain ⟨o₁, ho₁⟩ := Option.ne_none_iff_exists'.mp hsome
    have hfirst : c.offset? = some o₁ := by
      unfold offset?
      rw [h.after, List.append_assoc, ← List.append_assoc, firstOffset_append, ho₁]
      rfl
    obtain rfl := Option.some.inj (ho.symm.trans hfirst)
    refine Nat.lt_irrefl o (hd.lt_offset hascending ?_ ho')
    have hmem := mem_offsetsIn ho₁
    rw [offsetsIn_append] at hmem
    rw [h.before, offsetsIn_append, offsetsIn_append, whole, offsetsIn_wrap]
    exact (List.mem_append.mp hmem).elim
      (fun hbody => List.mem_append_left _ (List.mem_append_right _ hbody))
      (List.mem_append_right _)
  rw [firstOffset_append] at hnone
  exact Option.or_eq_none_iff.mp hnone

/-- What holds a token that is no trivia does not stand in front of a construct with its offset. -/
theorem Precedes.ne_offset (h : c.Precedes d p) (hd : d.In ast mk events)
    (hascending : Ascending events) (ho : firstOffset c.body = some o) : d.offset? ≠ some o := by
  intro ho'
  have hnone := (h.firstOffset_eq_none hd hascending (offset?_of_body ho) ho').1
  rw [hnone] at ho
  cases ho

end Construct

end ScriptAnalysis
