import ScriptAnalysis.Proofs.Recording.Reported

/-!
# Taking a marker back restores the draft

A draft is rewound in four places by different means: the events and the opened markers are cut off,
the tokens are those that the marker kept, and messages are forgotten one marker at a time.  While a
marker `m` is open, all that happens stays behind its start as long as no marker is put around `m`
or around an older one (`Draft.Behind`).  Therefore the cuts fall where `m` was opened, whatever was
opened, wrapped, closed and taken back in between.
-/

namespace ScriptAnalysis

/-! ### Lists that are cut in two places -/

section

variable {α : Type} {xs ys zs ws : List α} {a b : α}

/-- The same list in two splittings: an element that the second part of one does not have stands in
    the first part. -/
theorem split_before (h : xs ++ a :: ys = zs ++ ws) (ha : a ∉ ws) :
    ∃ between, zs = xs ++ a :: between ∧ ys = between ++ ws := by
  rcases List.append_eq_append_iff.mp h with ⟨between, rfl, hrest⟩ | ⟨between, -, rfl⟩
  · cases between with
    | nil =>
      rw [List.nil_append] at hrest
      exact absurd (hrest ▸ List.mem_cons_self) ha
    | cons c between =>
      rw [List.cons_append] at hrest
      cases hrest
      exact ⟨between, rfl, rfl⟩
  · exact absurd (by simp) ha

/-- An element that the first part of one does not have stands no earlier than the second part. -/
theorem split_behind (h : xs ++ a :: ys = zs ++ b :: ws) (ha : a ∉ zs) : b ∈ xs ++ [a] := by
  rcases List.append_eq_append_iff.mp h with ⟨between, rfl, hrest⟩ | ⟨between, rfl, hrest⟩
  · cases between with
    | nil =>
      cases hrest
      simp
    | cons c between =>
      cases hrest
      exact absurd (by simp) ha
  · cases between with
    | nil =>
      cases hrest
      simp
    | cons c between =>
      cases hrest
      simp

/-- A list without repetition has nothing in front of a suffix that has all its elements. -/
theorem eq_of_suffix (h : ys <:+ xs) (hnodup : xs.Nodup) (hsub : xs ⊆ ys) : xs = ys := by
  obtain ⟨front, rfl⟩ := h
  cases front with
  | nil => rfl
  | cons x front =>
    exact absurd rfl ((List.nodup_append.mp hnodup).2.2 x (by simp) x (hsub (by simp)))

theorem suffix_erase [DecidableEq α] (h : ys <:+ xs) (ha : a ∉ ys) : ys <:+ xs.erase a := by
  obtain ⟨front, rfl⟩ := h
  by_cases hfront : a ∈ front
  · rw [List.erase_append_left _ hfront]
    exact List.suffix_append _ _
  · rw [List.erase_append_right _ hfront, List.erase_of_not_mem ha]
    exact List.suffix_append _ _

end

theorem MessageSet.eq_of_messages {a b : MessageSet} (h : a.messages = b.messages) : a = b := by
  cases a
  cases b
  cases h
  rfl

namespace Draft

variable {d d' d'' : Draft} {m : MarkerId} {action : RecordAction}

/-- Messages that none of some markers reports stay in front when these are taken back. -/
theorem suffix_foldl_retract {old : List String} (ids : List MarkerId) (d : Draft)
    (hunsaid : ∀ id ∈ ids, ∀ diagnostic, (d.marker id).diagnostic = some diagnostic →
      diagnostic.message ∉ old)
    (hold : old <:+ d.messages.messages) :
    old <:+ (ids.foldl retract d).messages.messages := by
  induction ids generalizing d with
  | nil => exact hold
  | cons id ids ih =>
    refine ih (d.retract id) ?_ ?_
    · intro j hj diagnostic hdiagnostic
      rw [retract_diagnostic] at hdiagnostic
      split at hdiagnostic
      · cases hdiagnostic
      · exact hunsaid j (List.mem_cons_of_mem id hj) diagnostic hdiagnostic
    · have hself := hunsaid id List.mem_cons_self
      unfold retract
      dsimp only
      cases hdiagnostic : (d.marker id).diagnostic with
      | none => exact hold
      | some diagnostic => exact suffix_erase hold (hself diagnostic hdiagnostic)

/-! ### Behind the start of a marker -/

/-- The marker `m` was opened in `d` and is still among the opened ones, and all that happened since
    is behind its start. -/
structure Behind (m : MarkerId) (d d' : Draft) : Prop where
  first : m = d.markers.size
  history : ∃ later, d'.history = later ++ .start m :: d.history ∧ ∀ j, .start j ∈ later → m < j
  opened : ∃ above, d'.opened = above ++ m :: d.opened ∧ ∀ j ∈ above, m < j
  size : m < d'.markers.size
  resume : (d'.marker m).resume = d.ahead
  older : ∀ j < m, d'.marker j = d.marker j
  messages : d.messages.messages <:+ d'.messages.messages

theorem openMarker_behind (hok : d.openMarker = .ok (m, d')) : Behind m d d' := by
  unfold openMarker at hok
  split at hok
  · cases hok
  · cases hok
    have hmarker := d.marker_push { resume := d.ahead }
    refine ⟨rfl, ⟨[], rfl, by simp⟩, ⟨[], rfl, by simp⟩, ?_, ?_, fun j hj => ?_,
      List.suffix_rfl⟩
    · simp
    · exact congrArg Marker.resume ((hmarker d.markers.size).trans (if_pos rfl))
    · exact (hmarker j).trans (if_neg (Nat.ne_of_lt hj))

namespace Behind

/-- An older marker does not start behind `m`. -/
theorem older_of_mem (h : Behind m d d') (hplaced : d.Placed) {id : MarkerId}
    (hid : .start id ∈ Event.start m :: d.history) : id ≤ m := by
  rcases List.mem_cons.mp hid with hid | hid
  · exact Nat.le_of_eq (Event.start.inj hid)
  · have := hplaced.known id hid
    rw [← h.first] at this
    exact Nat.le_of_lt this

theorem older_of_opened (h : Behind m d d') (hplaced : d.Placed) {id : MarkerId}
    (hid : id ∈ m :: d.opened) : id ≤ m := by
  rcases List.mem_cons.mp hid with rfl | hid
  · exact Nat.le_refl _
  · have := hplaced.stacked id hid
    rw [← h.first] at this
    exact Nat.le_of_lt this

/-- A marker that starts behind `m` and is still among the opened ones stands above `m` there. -/
theorem mem_above (h : Behind m d d') (hplaced : d.Placed) {above : List MarkerId}
    (habove : d'.opened = above ++ m :: d.opened) {id : MarkerId} (hlt : m < id)
    (hid : id ∈ d'.opened) : id ∈ above := by
  rw [habove] at hid
  refine (List.mem_append.mp hid).resolve_right fun hmem => ?_
  exact Nat.not_lt.mpr (h.older_of_opened hplaced hmem) hlt

/-- What a marker reports that is not older than `m` was not reported before `m` was opened. -/
theorem unsaid (h : Behind m d d') (hr : d.Remembers) (hr' : d'.Remembers) {id : MarkerId}
    (hid : m ≤ id) (diagnostic : Diagnostic)
    (hdiagnostic : (d'.marker id).diagnostic = some diagnostic) :
    diagnostic.message ∉ d.messages.messages := by
  intro hmem
  obtain ⟨j, hj⟩ := (hr.messages_iff _).mp hmem
  have hlt : j < m := by
    rw [h.first]
    exact lt_size_of_state (by simp [(Marker.mem_reported.mp hj).1])
  rw [← h.older j hlt] at hj
  have herror : (d'.marker id).state = .error := (hr'.error_iff id).mpr (by simp [hdiagnostic])
  have hself := Marker.mem_reported.mpr ⟨herror, diagnostic, hdiagnostic, rfl⟩
  exact Nat.not_lt.mpr hid (hr'.once id j _ hself hj ▸ hlt)

/-- A new marker that starts and opens behind `m`. -/
theorem push (h : Behind m d d') {resume : List Token} {p : List Event} {σ : List MarkerId}
    (hmarkers : d''.markers = d'.markers.push { resume })
    (hhistory : d''.history = p ++ .start m :: d.history) (hlater : ∀ j, .start j ∈ p → m < j)
    (hopened : d''.opened = σ ++ m :: d.opened) (habove : ∀ j ∈ σ, m < j)
    (hmessages : d''.messages = d'.messages) : Behind m d d'' := by
  have hmarker : ∀ j ≤ m, d''.marker j = d'.marker j := by
    intro j hj
    unfold marker
    rw [hmarkers, marker_push, if_neg (Nat.ne_of_lt (Nat.lt_of_le_of_lt hj h.size))]
    rfl
  refine ⟨h.first, ⟨p, hhistory, hlater⟩, ⟨σ, hopened, habove⟩, ?_, ?_, ?_, ?_⟩
  · rw [hmarkers, Array.size_push]
    exact Nat.lt_succ_of_lt h.size
  · rw [hmarker m (Nat.le_refl m)]
    exact h.resume
  · intro j hj
    rw [hmarker j (Nat.le_of_lt hj)]
    exact h.older j hj
  · rw [hmessages]
    exact h.messages

/-- A marker that is put around one behind the start of `m` starts there as well. -/
theorem around (h : Behind m d d') (hplaced : d.Placed) {inner : MarkerId} (hinner : m < inner)
    {later earlier : List Event} (hhistory : d'.history = later ++ .start inner :: earlier)
    (hmarkers : d''.markers = d'.markers.push { resume := (d'.marker inner).resume })
    (hhistory' : d''.history = later ++ .start inner :: .start d'.markers.size :: earlier)
    (hopened : d''.opened = if inner ∈ d'.opened then
      insertOutside inner d'.markers.size d'.opened else d'.markers.size :: d'.opened)
    (hmessages : d''.messages = d'.messages) : Behind m d d'' := by
  obtain ⟨behind, hbehind, hstarts⟩ := h.history
  obtain ⟨above, habove, hstack⟩ := h.opened
  have hinner_behind : .start inner ∉ Event.start m :: d.history := fun hmem =>
    Nat.not_lt.mpr (h.older_of_mem hplaced hmem) hinner
  obtain ⟨between, rfl, rfl⟩ := split_before (hhistory.symm.trans hbehind) hinner_behind
  have hlater : ∀ j, .start j ∈ later ++ .start inner :: .start d'.markers.size :: between →
      m < j := by
    intro j hj
    simp only [List.mem_append, List.mem_cons, Event.start.injEq] at hj hstarts
    rcases hj with hj | hj | hj | hj
    · exact hstarts j (.inl hj)
    · exact hj ▸ hinner
    · exact hj ▸ h.size
    · exact hstarts j (.inr (.inr hj))
  by_cases hmem : inner ∈ d'.opened
  · have hin : inner ∈ above := h.mem_above hplaced habove hinner hmem
    obtain ⟨front, back, rfl, hfront⟩ := List.eq_append_cons_of_mem hin
    refine h.push (σ := front ++ inner :: d'.markers.size :: back) hmarkers ?_ hlater ?_ ?_
      hmessages
    · simp [hhistory']
    · rw [hopened, if_pos hmem, habove, List.append_assoc, List.cons_append,
        insertOutside_append hfront]
      simp
    · intro j hj
      simp only [List.mem_append, List.mem_cons] at hj hstack
      rcases hj with hj | hj | hj | hj
      · exact hstack j (.inl hj)
      · exact hj ▸ hinner
      · exact hj ▸ h.size
      · exact hstack j (.inr (.inr hj))
  · refine h.push (σ := d'.markers.size :: above) hmarkers ?_ hlater ?_ ?_ hmessages
    · simp [hhistory']
    · rw [hopened, if_neg hmem, habove, List.cons_append]
    · intro j hj
      rcases List.mem_cons.mp hj with rfl | hj
      · exact h.size
      · exact hstack j hj

/-- Taking back a marker that starts behind `m`. -/
theorem takeBack (h : Behind m d d') (hplaced : d.Placed) (hr : d.Remembers) (hr' : d'.Remembers)
    {id : MarkerId} {later earlier : List Event} {ids : List MarkerId}
    (hhistory : d'.history = later ++ .start id :: earlier)
    (hids : ids = (later ++ [Event.start id]).filterMap Event.started?)
    (hmarkers : d''.markers = (ids.foldl retract d').markers)
    (hmessages : d''.messages = (ids.foldl retract d').messages)
    (hhistory' : d''.history = earlier)
    (hopened : d''.opened =
      if id ∈ d'.opened then (d'.opened.dropWhile (· ≠ id)).tail else d'.opened)
    (hstate : (d''.marker m).state = .opened) : Behind m d d'' := by
  obtain ⟨behind, hbehind, hstarts⟩ := h.history
  obtain ⟨above, habove, hstack⟩ := h.opened
  obtain ⟨-, -, -, hsize, hkept⟩ := foldl_retract ids d'
  have hmarker : ∀ j, d''.marker j = (ids.foldl retract d').marker j := by
    intro j
    unfold marker
    rw [hmarkers]
  have hm : m ∉ ids := by
    intro hmem
    rw [hmarker, foldl_retract_state ids d' h.size, if_pos hmem] at hstate
    cases hstate
  -- A marker that starts before `m` cannot be taken back without `m`.
  have hid : .start id ∈ behind := by
    by_contra hno
    refine hm ?_
    rw [hids, mem_started_iff]
    exact split_behind (hhistory.symm.trans hbehind) hno
  have hlt : m < id := hstarts id hid
  have hid_behind : .start id ∉ Event.start m :: d.history := fun hmem =>
    Nat.not_lt.mpr (h.older_of_mem hplaced hmem) hlt
  obtain ⟨between, rfl, rfl⟩ := split_before (hhistory.symm.trans hbehind) hid_behind
  have hnew : ∀ j ∈ ids, m < j := by
    intro j hj
    rw [hids, mem_started_iff] at hj
    refine hstarts j ?_
    rw [List.append_cons]
    exact List.mem_append_left _ hj
  refine ⟨h.first, ⟨between, hhistory', fun j hj => hstarts j (by simp [hj])⟩, ?_, ?_, ?_, ?_, ?_⟩
  · by_cases hmem : id ∈ d'.opened
    · have hin : id ∈ above := h.mem_above hplaced habove hlt hmem
      obtain ⟨front, back, rfl, hfront⟩ := List.eq_append_cons_of_mem hin
      refine ⟨back, ?_, fun j hj => hstack j (by simp [hj])⟩
      rw [hopened, if_pos hmem, habove, List.append_assoc, List.cons_append,
        tail_dropWhile_append hfront]
    · exact ⟨above, by rw [hopened, if_neg hmem, habove], hstack⟩
  · rw [hmarkers, hsize]
    exact h.size
  · rw [hmarker, hkept m hm]
    exact h.resume
  · intro j hj
    rw [hmarker, hkept j fun hmem => Nat.lt_asymm hj (hnew j hmem)]
    exact h.older j hj
  · rw [hmessages]
    refine suffix_foldl_retract ids d' (fun j hj => ?_) h.messages
    exact h.unsaid hr hr' (Nat.le_of_lt (hnew j hj))

/-- Closing a marker that was opened after `m`. -/
theorem finish (h : Behind m d d') {id : MarkerId} (hf : d'.Finishes id d'')
    (hstate : (d''.marker m).state = .opened) : Behind m d d'' := by
  have hc := hf.closes
  obtain ⟨behind, hbehind, hstarts⟩ := h.history
  obtain ⟨above, habove, hstack⟩ := h.opened
  have hne : id ≠ m := by
    rintro rfl
    have hclosed := hf.isClosed
    rw [hstate] at hclosed
    cases hclosed
  have hopened := hc.opened.symm.trans habove
  cases above with
  | nil => exact absurd (List.cons.inj hopened).1 hne
  | cons top above =>
    rw [List.cons_append] at hopened
    obtain ⟨rfl, houter⟩ := List.cons.inj hopened
    have hlt : m < id := hstack id List.mem_cons_self
    refine ⟨h.first, ⟨.stop id :: behind, ?_, ?_⟩, ⟨above, houter, ?_⟩, ?_, ?_, ?_, ?_⟩
    · rw [hc.history, hbehind]
      rfl
    · intro j hj
      exact hstarts j (by simpa using hj)
    · intro j hj
      exact hstack j (List.mem_cons_of_mem id hj)
    · rw [hc.size]
      exact h.size
    · rw [hc.marker m hne.symm]
      exact h.resume
    · intro j hj
      rw [hc.marker j (Nat.ne_of_lt (Nat.lt_trans hj hlt))]
      exact h.older j hj
    · rcases hf with hsettles | ⟨diagnostic, htells⟩
      · rw [hsettles.messages]
        exact h.messages
      · rw [htells.messages]
        exact h.messages.trans (List.suffix_cons _ _)

/-- As long as `m` is open, a step that puts no marker around an older one stays behind `m`. -/
theorem step (h : Behind m d d') (hplaced : d.Placed) (hr : d.Remembers) (hr' : d'.Remembers)
    (hs : d'.Step action d'') (haction : ∀ inner, action = .openBefore inner → m < inner)
    (hstate : (d''.marker m).state = .opened) : Behind m d d'' := by
  obtain ⟨behind, hbehind, hstarts⟩ := h.history
  obtain ⟨above, habove, hstack⟩ := h.opened
  cases hs with
  | idle => exact h
  | record ts ahead _ =>
    refine ⟨h.first, ⟨(ts.map .token).reverse ++ behind, ?_, ?_⟩, h.opened, h.size, h.resume,
      h.older, h.messages⟩
    · dsimp only
      rw [hbehind, List.append_assoc]
    · intro j hj
      exact hstarts j (by simpa using hj)
  | opens marksLeft =>
    refine h.push (p := .start d'.markers.size :: behind) (σ := d'.markers.size :: above)
      rfl ?_ ?_ ?_ ?_ rfl
    · dsimp only
      rw [hbehind, List.cons_append]
    · intro j hj
      rcases List.mem_cons.mp hj with hj | hj
      · exact Event.start.inj hj ▸ h.size
      · exact hstarts j hj
    · dsimp only
      rw [habove, List.cons_append]
    · intro j hj
      rcases List.mem_cons.mp hj with rfl | hj
      · exact h.size
      · exact hstack j hj
  | around hhistory _ =>
    exact h.around hplaced (haction _ rfl) hhistory rfl rfl rfl rfl
  | takesBack _ hhistory _ =>
    exact h.takeBack hplaced hr hr' hhistory rfl rfl rfl rfl rfl hstate
  | closes hfinishes => exact h.finish hfinishes hstate

end Behind

/-! ### Going back -/

/-- The draft `d'` is what `d` was, but for markers that were opened since.  These are taken
    back. -/
structure Restores (d d' : Draft) : Prop where
  events : d'.events = d.events
  ahead : d'.ahead = d.ahead
  opened : d'.opened = d.opened
  messages : d'.messages = d.messages
  older : ∀ id < d.markers.size, d'.marker id = d.marker id
  newer : ∀ id, d.markers.size ≤ id → id < d'.markers.size →
    (d'.marker id).state = .rolledBack ∧ (d'.marker id).diagnostic = none

/-- All that is not older than `m` is taken back with it, or was taken back before. -/
theorem Behind.rolledBack (h : Behind m d d') (hplaced : d.Placed) (hplaced' : d'.Placed)
    {behind : List Event} (hbehind : d'.history = behind ++ .start m :: d.history)
    {id : MarkerId} (hid : m ≤ id) (hlt : id < d'.markers.size) :
    ((((behind ++ [Event.start m]).filterMap Event.started?).foldl retract d').marker id).state
      = .rolledBack := by
  rw [foldl_retract_state _ d' hlt]
  split
  · rfl
  · next hno =>
    by_contra hstate
    refine hno (mem_started_iff.mpr ?_)
    have hmem := hplaced'.starts id hlt hstate
    rw [hbehind, List.append_cons] at hmem
    refine (List.mem_append.mp hmem).resolve_right fun hmem => ?_
    have := hplaced.known id hmem
    rw [← h.first] at this
    exact Nat.not_lt.mpr hid this

/-- Where the markers older than `m` are the same and the others are taken back, the messages are
    the same as well. -/
theorem Remembers.messages_eq (hr : d.Remembers) (hr' : d'.Remembers)
    (holder : ∀ id < m, d'.marker id = d.marker id)
    (hnewer : ∀ id, m ≤ id → id < d'.markers.size → (d'.marker id).state = .rolledBack)
    (hkept : d.messages.messages <:+ d'.messages.messages) : d'.messages = d.messages := by
  refine MessageSet.eq_of_messages (eq_of_suffix hkept d'.messages.nodup ?_)
  intro message hmessage
  obtain ⟨id, hid⟩ := (hr'.messages_iff message).mp hmessage
  have herror := (Marker.mem_reported.mp hid).1
  have hlt : id < m := by
    by_contra hno
    rw [hnewer id (Nat.not_lt.mp hno) (lt_size_of_state (by simp [herror]))] at herror
    cases herror
  rw [holder id hlt] at hid
  exact (hr.messages_iff message).mpr ⟨id, hid⟩

theorem Behind.undo (h : Behind m d d') (hplaced : d.Placed) (hr : d.Remembers)
    (hplaced' : d'.Placed) (hr' : d'.Remembers) (hstate : (d'.marker m).state = .opened) :
    ∃ d'', d'.undo m = .ok d'' ∧ m < d''.markers.size ∧ d.Restores d'' := by
  obtain ⟨behind, hbehind, hstarts⟩ := h.history
  obtain ⟨above, habove, hstack⟩ := h.opened
  have hfirst : .start m ∉ behind := fun hmem => Nat.lt_irrefl m (hstarts m hmem)
  have hmem : m ∉ above := fun hmem => Nat.lt_irrefl m (hstack m hmem)
  let ids := (behind ++ [Event.start m]).filterMap Event.started?
  let d'' : Draft := { ids.foldl retract d' with
    history := d.history, opened := d.opened, ahead := d.ahead }
  have hok : d'.undo m = .ok d'' := by
    rw [undo_eq hstate hbehind hfirst habove hmem, h.resume]
  obtain ⟨-, -, -, hsize, hkept⟩ := foldl_retract ids d'
  have hnew : ∀ id ∈ ids, m ≤ id := by
    intro id hid
    rcases List.mem_append.mp (mem_started_iff.mp hid) with hid | hid
    · exact Nat.le_of_lt (hstarts id hid)
    · exact Nat.le_of_eq (Event.start.inj (List.mem_singleton.mp hid)).symm
  have holder : ∀ id < m, d''.marker id = d.marker id := by
    intro id hid
    exact (hkept id fun hmem => Nat.not_lt.mpr (hnew id hmem) hid).trans (h.older id hid)
  have hgone : ∀ id, m ≤ id → id < d''.markers.size → (d''.marker id).state = .rolledBack :=
    fun id hid hlt => h.rolledBack hplaced hplaced' hbehind hid (hsize ▸ hlt)
  have hr'' : d''.Remembers :=
    (hr'.foldl_retract ids).congr rfl (fun _ => rfl) fun _ => Iff.rfl
  have hmessages : d''.messages = d.messages := hr.messages_eq hr'' holder hgone
    (suffix_foldl_retract ids d' (fun id hid => h.unsaid hr hr' (hnew id hid)) h.messages)
  refine ⟨d'', hok, hsize ▸ h.size, rfl, rfl, rfl, hmessages, ?_, ?_⟩
  · rw [← h.first]
    exact holder
  · intro id hid hlt
    rw [← h.first] at hid
    have hstate := hgone id hid hlt
    refine ⟨hstate, ?_⟩
    by_contra hdiagnostic
    rw [(hr''.error_iff id).mpr hdiagnostic] at hstate
    cases hstate

/-- A marker is opened in any draft that came about without misuse.  Whatever is done then, if no
    marker is put around it or around an older one and it is still open, it can be taken back, and
    this restores the draft. -/
theorem undo_restores (tokens : List Token) (marksLeft : Option Nat) (before : List RecordAction)
    (d : Draft) (hd : (Draft.ofTokens tokens marksLeft).applyAll before = .ok d)
    (m : MarkerId) (d₀ : Draft) (hopen : d.openMarker = .ok (m, d₀))
    (inside : List RecordAction) (haims : ∀ inner, .openBefore inner ∈ inside → m < inner)
    (d₁ : Draft) (hd₁ : d₀.applyAll inside = .ok d₁) (hstate : (d₁.marker m).state = .opened) :
    ∃ d₂, d₁.undo m = .ok d₂ ∧ m < d₂.markers.size ∧ d.Restores d₂ := by
  obtain ⟨hplaced, hr⟩ := (Placed.ofTokens tokens marksLeft).applyAll
    (Remembers.ofTokens tokens marksLeft) (fun _ _ h hs => h.step hs) hd
  have hbehind := openMarker_behind hopen
  have hstep₀ : d.Step .openMarker d₀ := apply_step hplaced.stacked (by simp [apply, hopen])
  let P : Draft → Prop := fun d' => d'.Remembers ∧ m < d'.markers.size ∧
    ((d'.marker m).state = .opened → Behind m d d')
  have hstep : ∀ {d' action d''}, action ∈ inside → d'.Placed → P d' → d'.Step action d'' →
      P d'' := by
    intro d' action d'' hmem _ hP hs
    obtain ⟨hr', hsize, hbehind'⟩ := hP
    refine ⟨hr'.step hs, Nat.lt_of_lt_of_le hsize hs.size_le, fun hstate' => ?_⟩
    -- A marker that is open afterwards was open before.
    refine (hbehind' (hs.opened_before hsize hstate')).step hplaced hr hr' hs ?_ hstate'
    intro inner haction
    exact haims inner (haction ▸ hmem)
  obtain ⟨hplaced₁, hr₁, -, hbehind₁⟩ := (hplaced.step hstep₀).applyAll
    (⟨hr.step hstep₀, hbehind.size, fun _ => hbehind⟩ : P d₀) hstep hd₁
  exact (hbehind₁ hstate).undo hplaced hr hplaced₁ hr₁ hstate

/-- A marker is taken back in which another one was put around a fault, and a third was taken
    back. -/
theorem undo_restores_across_faults :
    ∃ (inside : List RecordAction) (d d₀ d₁ : Draft),
      inside = [.openMarker, .advance, .closeError 3 (.ofParse "second" ⟨0, 1⟩), .openBefore 3,
        .openMarker, .undo 5, .closeGroup 4] ∧
      (Draft.ofTokens [⟨.ident, ⟨0, 1⟩⟩] none).applyAll
        [.openMarker, .openMarker, .closeError 1 (.ofParse "first" ⟨0, 1⟩)] = .ok d ∧
      d.openMarker = .ok (2, d₀) ∧ (∀ inner, .openBefore inner ∈ inside → 2 < inner) ∧
      d₀.applyAll inside = .ok d₁ ∧ (d₁.marker 2).state = .opened ∧
      ∃ d₂, d₁.undo 2 = .ok d₂ ∧ 2 < d₂.markers.size ∧ d.Restores d₂ := by
  have haims : ∀ inner, .openBefore inner ∈ [RecordAction.openMarker, .advance,
      .closeError 3 (.ofParse "second" ⟨0, 1⟩), .openBefore 3, .openMarker, .undo 5,
      .closeGroup 4] → 2 < inner := by
    simp
  exact ⟨_, _, _, _, rfl, rfl, rfl, haims, rfl, rfl,
    undo_restores [⟨.ident, ⟨0, 1⟩⟩] none
      [.openMarker, .openMarker, .closeError 1 (.ofParse "first" ⟨0, 1⟩)] _ rfl 2 _ rfl _ haims _
      rfl rfl⟩

end Draft

end ScriptAnalysis
