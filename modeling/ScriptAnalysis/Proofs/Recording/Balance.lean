import ScriptAnalysis.Proofs.Recording.AnyOrder
import ScriptAnalysis.Proofs.Recording.Nesting
import ScriptAnalysis.Proofs.Tree.Acceptance

/-!
# Recordings that stay balanced

A draft may be used in any order as long as a marker is only put around an open marker or around a
closed one that stands directly in the innermost open marker (`RecordAction.Aimed`).  Then its
events are those of a stack of markers at any time: `Draft.Disciplined` says so in the terms of
`openedAfter`, every action keeps it, and `Draft.Orderly` is what it means for each single marker.
-/

namespace ScriptAnalysis

/-- Whether a marker in this state was ended, and not taken back. -/
def MarkerState.isClosed : MarkerState → Bool
  | done | dropped | error => true
  | opened | rolledBack => false

/-- The innermost of the markers that start before `inner` and do not end before it. -/
def innermostAround (events : List Event) (inner : MarkerId) : Option MarkerId :=
  let before := events.takeWhile (!·.isStart inner)
  (before.reverse.filterMap Event.started?).find? fun id => .stop id ∉ before

/-- A marker is put around an open one, or around a closed one that stands directly in the innermost
    open marker, or in none if none is open. -/
def RecordAction.Aimed (d : Draft) : RecordAction → Prop
  | .openBefore inner => (d.marker inner).state = .opened ∨
      ((d.marker inner).state.isClosed = true ∧ innermostAround d.events inner = d.opened.head?)
  | _ => True

/-- Each of some actions, one after the other, is aimed at a marker that allows it. -/
def Draft.AimsWell (d : Draft) : List RecordAction → Prop
  | [] => True
  | action :: actions =>
    action.Aimed d ∧ match d.apply action with
      | .ok d' => d'.AimsWell actions
      | .error _ => True

instance RecordAction.decidableAimed (d : Draft) (action : RecordAction) :
    Decidable (action.Aimed d) := by
  cases action <;> unfold Aimed <;> infer_instance

instance Draft.decidableAimsWell : (d : Draft) → (actions : List RecordAction) →
    Decidable (d.AimsWell actions)
  | _, [] => isTrue trivial
  | d, action :: actions =>
    match h : d.apply action with
    | .ok d' =>
      have := decidableAimsWell d' actions
      decidable_of_iff (action.Aimed d ∧ d'.AimsWell actions) (by rw [AimsWell, h])
    | .error _ => decidable_of_iff (action.Aimed d) (by rw [AimsWell, h, and_true])

/-! ### Starts without an end -/

section

variable {es pre rest : List Event} {σ α β : List MarkerId} {id inner m : MarkerId}

theorem count_le_one {f : Event → Option MarkerId} {e : Event} (h : (es.filterMap f).Nodup)
    (hf : f e = some id) : es.count e ≤ 1 := by
  by_contra hcount
  have htwice : (List.replicate 2 e).Sublist es := List.replicate_sublist_iff.mpr (by omega)
  have hnodup := h.sublist (htwice.filterMap f)
  simp [List.replicate, hf] at hnodup

/-- The starts are the ends and the open markers. -/
theorem started_perm (h : openedAfter [] es = some σ) :
    (es.filterMap Event.started?).Perm (es.filterMap Event.stopped? ++ σ) := by
  have hperm := started_perm_stopped h
  rwa [List.append_nil] at hperm

/-- By induction from the last event: the starts without an end are the open markers. -/
theorem unended_starts (h : openedAfter [] es = some σ)
    (hnodup : (es.filterMap Event.started?).Nodup) :
    (es.filterMap Event.started?).filter (fun id => .stop id ∉ es) = σ.reverse := by
  induction es using List.reverseRecOn generalizing σ with
  | nil =>
    rw [openedAfter_nil, Option.some.injEq] at h
    subst h
    rfl
  | append_singleton es e ih =>
    rw [openedAfter_append] at h
    obtain ⟨ρ, hρ, hlast⟩ := Option.bind_eq_some_iff.mp h
    rw [List.filterMap_append] at hnodup ⊢
    have hbefore := ih hρ (List.nodup_append.mp hnodup).1
    cases e with
    | token t =>
      rw [openedAfter_token, openedAfter_nil, Option.some.injEq] at hlast
      subst hlast
      rw [List.filterMap_cons_none rfl, List.filterMap_nil, List.append_nil]
      simpa using hbefore
    | start id =>
      rw [openedAfter_start, openedAfter_nil, Option.some.injEq] at hlast
      subst hlast
      have hnew : .stop id ∉ es := by
        intro hstop
        have hmem := (started_perm hρ).mem_iff.mpr
          (List.mem_append_left _ (mem_stopped_iff.mpr hstop))
        exact (List.nodup_append.mp hnodup).2.2 id hmem id (by simp [Event.started?]) rfl
      simpa [Event.started?, hnew] using hbefore
    | stop id =>
      cases ρ with
      | nil => cases hlast
      | cons top ρ =>
        rw [openedAfter] at hlast
        split at hlast
        · next htop =>
          subst htop
          rw [openedAfter_nil, Option.some.injEq] at hlast
          subst hlast
          -- The marker that ends is the last one of those that have no end before it.
          have hne : ∀ j ∈ ρ, j ≠ top := by
            have hcons := (started_perm hρ).nodup_iff.mp (List.nodup_append.mp hnodup).1
            rintro j hj rfl
            exact (List.nodup_cons.mp (List.nodup_append.mp hcons).2.1).1 hj
          have hfilter : ∀ l : List MarkerId, l.filter (fun j => .stop j ∉ es ++ [.stop top]) =
              (l.filter fun j => .stop j ∉ es).filter (· ≠ top) := by
            intro l
            rw [List.filter_filter]
            exact List.filter_congr fun j _ => by simp [and_comm]
          rw [List.filterMap_cons_none rfl, List.filterMap_nil, List.append_nil, hfilter, hbefore,
            List.reverse_cons, List.filter_append,
            List.filter_eq_self.mpr (by simpa using hne)]
          simp
        · cases hlast

theorem innermostAround_eq (h : es = pre ++ .start inner :: rest)
    (hopen : openedAfter [] pre = some σ) (hnodup : (es.filterMap Event.started?).Nodup) :
    innermostAround es inner = σ.head? := by
  subst h
  have hbefore : (pre ++ .start inner :: rest).takeWhile (!·.isStart inner) = pre := by
    have hpre : ∀ e ∈ pre, (!e.isStart inner) = true := by
      intro e he
      cases e with
      | token t => rfl
      | stop j => rfl
      | start j =>
        have hne : j ≠ inner := by
          rintro rfl
          rw [List.filterMap_append] at hnodup
          exact (List.nodup_append.mp hnodup).2.2 j (mem_started_iff.mpr he) j
            (by simp [Event.started?]) rfl
        simp [Event.isStart, hne]
    rw [List.takeWhile_append_of_pos hpre]
    simp [Event.isStart]
  rw [List.filterMap_append] at hnodup
  have hunended := unended_starts hopen (List.nodup_append.mp hnodup).1
  unfold innermostAround
  rw [hbefore]
  dsimp only
  rw [List.filterMap_reverse, ← List.head?_filter, List.filter_reverse, hunended,
    List.reverse_reverse]

/-- Where an open marker starts, if it starts only once. -/
theorem opened_around (h : openedAfter [] es = some (α ++ m :: β))
    (hes : es = pre ++ .start m :: rest) (hnodup : (es.filterMap Event.started?).Nodup) :
    openedAfter [] pre = some β ∧ openedAfter [] rest = some α := by
  obtain ⟨before, body, hsplit, hbefore, hbody⟩ := openedAfter_split h
  obtain ⟨rfl, rfl⟩ := split_unique hnodup hes hsplit rfl rfl
  exact ⟨hbefore, hbody⟩

/-- If the same marker is the innermost one before and after some events, they are balanced. -/
theorem openedAfter_same_top (h : openedAfter [] (pre ++ rest) = some σ)
    (hpre : openedAfter [] pre = some β) (htop : β.head? = σ.head?)
    (hnodup : ((pre ++ rest).filterMap Event.started?).Nodup) :
    β = σ ∧ openedAfter [] rest = some [] := by
  have hperm := (started_perm h).nodup_iff.mp hnodup
  rw [openedAfter_append, hpre, Option.bind_some] at h
  cases β with
  | nil =>
    have hnil : σ = [] := by simpa using htop.symm
    rw [hnil] at h
    exact ⟨hnil.symm, h⟩
  | cons m β =>
    rcases openedAfter_top h with ⟨inner, hin, rfl⟩ | ⟨body, later, rfl, -, -⟩
    · cases inner with
      | nil => exact ⟨rfl, hin⟩
      | cons j inner =>
        obtain rfl : m = j := by simpa using htop
        exact absurd (by simp) (List.nodup_cons.mp (List.nodup_append.mp hperm).2.1).1
    · -- The marker cannot have ended, for it is open in the end.
      obtain ⟨σ, rfl⟩ := List.head?_eq_some_iff.mp (htop.symm.trans rfl)
      refine absurd rfl ((List.nodup_append.mp hperm).2.2 m (mem_stopped_iff.mpr ?_) m (by simp))
      simp

end

namespace Draft

variable {d d' : Draft} {id inner : MarkerId}

/-- The events around the start of a marker. -/
theorem events_around {later earlier : List Event}
    (h : d.history = later ++ .start id :: earlier) :
    d.events = earlier.reverse ++ .start id :: later.reverse := by
  unfold events
  rw [h]
  simp

/-! ### Closing a marker -/

/-- The innermost open marker was closed. -/
structure Shuts (d : Draft) (id : MarkerId) (d' : Draft) : Prop extends d.Stops id d' where
  opened : d.opened = id :: d'.opened
  closed : id < d.markers.size → (d'.marker id).state.isClosed = true
  others : ∀ j ≠ id, (d'.marker j).state = (d.marker j).state

theorem close_shuts {state : MarkerState} (hstate : state.isClosed = true)
    (hok : d.close id state = .ok d') : d.Shuts id d' := by
  have hstops := close_stops hok
  obtain ⟨-, outer, hopened, rfl⟩ := close_cases hok
  have hrecord : ∀ j, ((d.markers.setIfInBounds id
      { d.marker id with state, offset := d.startOffset id }).getD j {}).state =
      if id = j ∧ id < d.markers.size then state else (d.marker j).state := by
    intro j
    by_cases hlt : id < d.markers.size
    · rw [d.marker_setIfInBounds id j _ hlt]
      by_cases hj : id = j
      · rw [if_pos hj, if_pos ⟨hj, hlt⟩]
      · rw [if_neg hj, if_neg fun h => hj h.1]
    · rw [Array.setIfInBounds_eq_of_size_le (Nat.le_of_not_lt hlt), if_neg fun h => hlt h.2]
      rfl
  refine ⟨hstops, hopened, fun hlt => ?_, fun j hj => ?_⟩
  · refine Eq.trans (congrArg MarkerState.isClosed (hrecord id)) ?_
    rw [if_pos ⟨rfl, hlt⟩, hstate]
  · exact (hrecord j).trans (if_neg fun h => hj h.1.symm)

theorem Shuts.modifyMarker (h : d.Shuts id d') {f : Marker → Marker}
    (hresume : ∀ m, (f m).resume = m.resume) (hstate : ∀ m, (f m).state = m.state) :
    d.Shuts id (d'.modifyMarker id f) := by
  have hsame : ∀ j, ((d'.modifyMarker id f).marker j).state = (d'.marker j).state := by
    intro j
    simp only [Draft.modifyMarker, marker, Array.getD_eq_getD_getElem?, Array.getElem?_modify]
    split
    · cases d'.markers[j]? with
      | none => rfl
      | some m => exact hstate m
    · rfl
  refine ⟨h.toStops.modifyMarker hresume, h.opened, fun hlt => ?_, fun j hj => ?_⟩
  · rw [hsame]
    exact h.closed hlt
  · rw [hsame]
    exact h.others j hj

theorem closeAs_shuts {node : NodeId} {kind : NodeKind} (hok : d.closeAs id node kind = .ok d') :
    d.Shuts id d' := by
  obtain ⟨d₁, hclose, rfl⟩ := closeAs_cases hok
  exact (close_shuts rfl hclose).modifyMarker (fun _ => rfl) fun _ => rfl

theorem closeGroup_shuts (hok : d.closeGroup id = .ok d') : d.Shuts id d' := by
  obtain ⟨d₁, hclose, rfl⟩ := closeGroup_cases hok
  exact (close_shuts rfl hclose).modifyMarker (fun _ => rfl) fun _ => rfl

theorem dissolve_shuts (hok : d.dissolve id = .ok d') : d.Shuts id d' := close_shuts rfl hok

theorem closeWith_shuts {node : NodeId} {ast : Ast} (hok : d.closeWith id node ast = .ok d') :
    d.Shuts id d' := by
  unfold closeWith at hok
  split at hok
  · exact closeAs_shuts hok
  · exact dissolve_shuts hok

theorem closeError_shuts {diagnostic : Diagnostic} (hok : d.closeError id diagnostic = .ok d') :
    d.Shuts id d' := by
  rcases closeError_cases hok with ⟨-, hdissolve⟩ | ⟨messages, d₁, -, hclose, rfl⟩
  · exact dissolve_shuts hdissolve
  · obtain ⟨⟨hhistory, hahead, hsize, hresume⟩, hopened, hclosed, hothers⟩ :=
      close_shuts rfl hclose
    have hs : d.Shuts id d₁ := ⟨⟨hhistory, hahead, hsize, hresume⟩, hopened, hclosed, hothers⟩
    exact hs.modifyMarker (fun _ => rfl) fun _ => rfl

/-! ### What the actions keep -/

/-- The events are those of a stack of markers, and the records of the markers agree with them. -/
structure Disciplined (d : Draft) : Prop where
  stack : openedAfter [] d.events = some d.opened
  once : (d.events.filterMap Event.started?).Nodup
  known : ∀ id, .start id ∈ d.events → id < d.markers.size
  opened : ∀ id ∈ d.opened, (d.marker id).state = .opened
  closed : ∀ id, .start id ∈ d.events → id ∉ d.opened → (d.marker id).state.isClosed = true
  gone : ∀ id < d.markers.size, .start id ∉ d.events → (d.marker id).state = .rolledBack

namespace Disciplined

theorem ofTokens (tokens : List Token) (marksLeft : Option Nat) :
    (ofTokens tokens marksLeft).Disciplined := by
  refine ⟨rfl, List.nodup_nil, ?_, ?_, ?_, ?_⟩
  · intro id hid
    cases hid
  · intro id hid
    cases hid
  · intro id hid
    cases hid
  · intro id hid
    cases hid

theorem started (h : d.Disciplined) (hid : id ∈ d.opened) : .start id ∈ d.events :=
  mem_started_iff.mp ((started_perm h.stack).mem_iff.mpr (List.mem_append_right _ hid))

theorem nodup (h : d.Disciplined) : (d.events.filterMap Event.stopped? ++ d.opened).Nodup :=
  (started_perm h.stack).nodup_iff.mp h.once

theorem nodup_opened (h : d.Disciplined) : d.opened.Nodup := (List.nodup_append.mp h.nodup).2.1

theorem opened_iff (h : d.Disciplined) :
    id ∈ d.opened ↔ id < d.markers.size ∧ (d.marker id).state = .opened := by
  constructor
  · intro hid
    exact ⟨h.known id (h.started hid), h.opened id hid⟩
  · rintro ⟨hlt, hstate⟩
    by_contra hno
    by_cases hstart : .start id ∈ d.events
    · have hclosed := h.closed id hstart hno
      rw [hstate] at hclosed
      cases hclosed
    · rw [h.gone id hlt hstart] at hstate
      cases hstate

/-- The stack of open markers is cut where an open marker starts. -/
theorem cut (h : d.Disciplined) (hid : id ∈ d.opened) {pre rest : List Event}
    (hevents : d.events = pre ++ .start id :: rest) :
    ∃ α β, d.opened = α ++ id :: β ∧ id ∉ α ∧ openedAfter [] pre = some β ∧
      openedAfter [] rest = some α := by
  obtain ⟨α, β, hopened⟩ := List.append_of_mem hid
  have hnodup := h.nodup_opened
  rw [hopened] at hnodup
  have hnot : id ∉ α := fun hα => (List.nodup_append.mp hnodup).2.2 id hα id (by simp) rfl
  obtain ⟨hpre, hrest⟩ := opened_around (hopened ▸ h.stack) hevents h.once
  exact ⟨α, β, hopened, hnot, hpre, hrest⟩

/-- Recording tokens opens and closes nothing. -/
theorem record (h : d.Disciplined) {ts ahead : List Token} :
    Disciplined { d with ahead, history := (ts.map .token).reverse ++ d.history } := by
  have hevents :
      ({ d with ahead, history := (ts.map .token).reverse ++ d.history } : Draft).events =
      d.events ++ ts.map .token := by simp [events]
  have hstart : ∀ id, .start id ∈ d.events ++ ts.map Event.token ↔ .start id ∈ d.events := by
    simp
  have hstarts : (d.events ++ ts.map Event.token).filterMap Event.started? =
      d.events.filterMap Event.started? := by
    rw [List.filterMap_append, List.append_right_eq_self, List.filterMap_eq_nil_iff]
    intro e he
    obtain ⟨t, -, rfl⟩ := List.mem_map.mp he
    rfl
  refine ⟨?_, ?_, ?_, h.opened, ?_, ?_⟩
  · rw [hevents, openedAfter_append, h.stack]
    exact Balanced.tokens ts d.opened
  · rw [hevents, hstarts]
    exact h.once
  · rw [hevents]
    exact fun id hid => h.known id ((hstart id).mp hid)
  · rw [hevents]
    exact fun id hid hno => h.closed id ((hstart id).mp hid) hno
  · rw [hevents]
    exact fun id hlt hno => h.gone id hlt fun hid => hno ((hstart id).mpr hid)

theorem advance (h : d.Disciplined) : d.advance.Disciplined := by
  rcases advance_cases d with ⟨blank, t, rest, -, -, -, -, hadv⟩ | ⟨-, hadv⟩
  · rw [hadv]
    exact h.record
  · rw [hadv]
    exact h.record

/-- A new marker is opened with its start among the events. -/
theorem insert (h : d.Disciplined) {pre rest : List Event} {resume : List Token}
    (hevents : d.events = pre ++ rest)
    (hmarkers : d'.markers = d.markers.push { resume })
    (hevents' : d'.events = pre ++ .start d.markers.size :: rest)
    (hopened : ∀ id, id ∈ d'.opened ↔ id = d.markers.size ∨ id ∈ d.opened)
    (hstack : openedAfter [] d'.events = some d'.opened) : d'.Disciplined := by
  have hstart : ∀ id, .start id ∈ d'.events ↔ id = d.markers.size ∨ .start id ∈ d.events := by
    intro id
    rw [hevents', hevents]
    simp only [List.mem_append, List.mem_cons, Event.start.injEq]
    tauto
  have hnew : .start d.markers.size ∉ d.events := fun hmem => Nat.lt_irrefl _ (h.known _ hmem)
  have hmarker : ∀ id, (d'.marker id).state =
      if id = d.markers.size then .opened else (d.marker id).state := by
    intro id
    unfold marker
    rw [hmarkers, marker_push]
    split <;> rfl
  have hold : ∀ id, .start id ∈ d.events → (d'.marker id).state = (d.marker id).state := by
    intro id hid
    rw [hmarker, if_neg (Nat.ne_of_lt (h.known id hid))]
  refine ⟨hstack, ?_, ?_, ?_, ?_, ?_⟩
  · have hperm : (d'.events.filterMap Event.started?).Perm
        (d.markers.size :: d.events.filterMap Event.started?) := by
      rw [hevents', hevents, List.filterMap_append, List.filterMap_append]
      exact List.perm_middle
    rw [hperm.nodup_iff]
    exact List.nodup_cons.mpr ⟨mt mem_started_iff.mp hnew, h.once⟩
  · intro id hid
    rw [hmarkers, Array.size_push]
    rcases (hstart id).mp hid with rfl | hid
    · exact Nat.lt_succ_self _
    · exact Nat.lt_succ_of_lt (h.known id hid)
  · intro id hid
    rcases (hopened id).mp hid with rfl | hid
    · rw [hmarker, if_pos rfl]
    · rw [hold id (h.started hid)]
      exact h.opened id hid
  · intro id hid hno
    rw [hopened, not_or] at hno
    have hid : .start id ∈ d.events := ((hstart id).mp hid).resolve_left hno.1
    rw [hold id hid]
    exact h.closed id hid hno.2
  · intro id hlt hno
    rw [hstart, not_or] at hno
    rw [hmarkers, Array.size_push] at hlt
    rw [hmarker, if_neg hno.1]
    exact h.gone id (by omega) hno.2

/-- The markers that start in the last events are taken back with these events. -/
theorem retract (h : d.Disciplined) {pre rest : List Event} {ids α : List MarkerId}
    (hevents : d.events = pre ++ rest) (hids : ∀ j, j ∈ ids ↔ .start j ∈ rest)
    (hmarkers : d'.markers = (ids.foldl Draft.retract d).markers) (hevents' : d'.events = pre)
    (hopened : d.opened = α ++ d'.opened) (hα : ∀ j ∈ α, .start j ∈ rest)
    (hstack : openedAfter [] pre = some d'.opened) : d'.Disciplined := by
  have honce := h.once
  rw [hevents, List.filterMap_append] at honce
  have hsize : d'.markers.size = d.markers.size := by
    rw [hmarkers]
    exact (foldl_retract ids d).2.2.2.1
  have hstate : ∀ j < d.markers.size, (d'.marker j).state =
      if j ∈ ids then .rolledBack else (d.marker j).state := by
    intro j hj
    unfold marker
    rw [hmarkers]
    exact foldl_retract_state ids d hj
  have hold : ∀ j, .start j ∈ pre → .start j ∈ d.events := by
    intro j hj
    rw [hevents]
    exact List.mem_append_left _ hj
  have hkept : ∀ j, .start j ∈ pre → (d'.marker j).state = (d.marker j).state := by
    intro j hj
    rw [hstate j (h.known j (hold j hj)), if_neg]
    intro hmem
    exact (List.nodup_append.mp honce).2.2 j (mem_started_iff.mpr hj) j
      (mem_started_iff.mpr ((hids j).mp hmem)) rfl
  refine ⟨hevents' ▸ hstack, ?_, ?_, ?_, ?_, ?_⟩
  · rw [hevents']
    exact (List.nodup_append.mp honce).1
  · rw [hevents', hsize]
    exact fun j hj => h.known j (hold j hj)
  · intro j hj
    have hstart := mem_started_iff.mp ((started_perm hstack).mem_iff.mpr
      (List.mem_append_right _ hj))
    rw [hkept j hstart]
    exact h.opened j (by rw [hopened]; simp [hj])
  · rw [hevents']
    intro j hj hno
    rw [hkept j hj]
    refine h.closed j (hold j hj) fun hmem => ?_
    rw [hopened] at hmem
    have hstart := hα j ((List.mem_append.mp hmem).resolve_right hno)
    exact (List.nodup_append.mp honce).2.2 j (mem_started_iff.mpr hj) j
      (mem_started_iff.mpr hstart) rfl
  · rw [hevents', hsize]
    intro j hj hno
    rw [hstate j hj]
    split
    · rfl
    · next hnot =>
      refine h.gone j hj fun hstart => ?_
      rw [hevents] at hstart
      exact (List.mem_append.mp hstart).elim hno fun hrest => hnot ((hids j).mpr hrest)

theorem openMarker (h : d.Disciplined) (hok : d.openMarker = .ok (id, d')) : d'.Disciplined := by
  unfold Draft.openMarker at hok
  split at hok
  · cases hok
  · cases hok
    have hrest : d.events = d.events ++ [] := (List.append_nil _).symm
    refine h.insert hrest rfl ?_ ?_ ?_
    · simp [events]
    · intro id
      exact List.mem_cons
    · have hstack : openedAfter [] (d.events ++ [.start d.markers.size]) =
          some (d.markers.size :: d.opened) := by
        rw [openedAfter_append, h.stack, Option.bind_some, openedAfter_start, openedAfter_nil]
      simpa [events] using hstack

/-- A marker around an open one is open as well, one around a closed one is the innermost. -/
theorem openBefore (h : d.Disciplined) (haimed : RecordAction.Aimed d (.openBefore inner))
    (hok : d.openBefore inner = .ok (id, d')) : d'.Disciplined := by
  obtain ⟨-, earlier, hhistory, rfl⟩ := openBefore_cases hok
  have hevents := events_around hhistory
  have hstart : .start inner ∈ d.events := by
    rw [hevents]
    simp
  have hstack := h.stack
  rw [hevents, openedAfter_append] at hstack
  obtain ⟨σ, hσ, hrest⟩ := Option.bind_eq_some_iff.mp hstack
  rcases haimed with hopen | ⟨hclosed, haround⟩
  · -- The stack is cut where the open marker stands in it.
    have hmem : inner ∈ d.opened := h.opened_iff.mpr ⟨h.known inner hstart, hopen⟩
    obtain ⟨α, β, hopened, hnot, hpre, hpost⟩ := h.cut hmem hevents
    refine h.insert hevents rfl (by simp [events]) ?_ ?_
    · intro id
      dsimp only
      rw [if_pos hmem, hopened, insertOutside_append hnot]
      simp only [List.mem_append, List.mem_cons]
      tauto
    · have hframe := openedAfter_frame hpost (inner :: d.markers.size :: β)
      dsimp only
      rw [if_pos hmem, hopened, insertOutside_append hnot]
      simpa [events, openedAfter_append, hpre] using hframe
  · -- What stands behind the start of the closed marker is balanced.
    have hmem : inner ∉ d.opened := by
      intro hmem
      rw [h.opened inner hmem] at hclosed
      cases hclosed
    rw [innermostAround_eq hevents hσ h.once] at haround
    obtain ⟨rfl, hbalanced⟩ := openedAfter_same_top (hevents ▸ h.stack) hσ haround
      (hevents ▸ h.once)
    refine h.insert hevents rfl (by simp [events]) ?_ ?_
    · intro id
      dsimp only
      rw [if_neg hmem]
      exact List.mem_cons
    · have hframe := openedAfter_frame hbalanced (d.markers.size :: d.opened)
      dsimp only
      rw [if_neg hmem]
      simpa [events, openedAfter_append, hσ] using hframe

/-- Taking a marker back also takes back those that started since. -/
theorem undo (h : d.Disciplined) (hok : d.undo id = .ok d') : d'.Disciplined := by
  obtain ⟨hstate, earlier, hhistory, rfl⟩ := undo_cases hok
  have hevents := events_around hhistory
  have hmem : id ∈ d.opened := h.opened_iff.mpr ⟨h.known id (by rw [hevents]; simp), hstate⟩
  obtain ⟨α, β, hopened, hnot, hpre, hpost⟩ := h.cut hmem hevents
  have hcut : (d.opened.dropWhile (· ≠ id)).tail = β := by
    rw [hopened, tail_dropWhile_append hnot]
  rw [if_pos hmem, hcut]
  have hopened : d.opened = (α ++ [id]) ++ β := by rw [hopened, List.append_cons]
  refine h.retract hevents ?_ rfl rfl hopened ?_ hpre
  · intro j
    rw [mem_started_iff]
    simp [or_comm]
  · intro j hj
    rcases List.mem_append.mp hj with hj | hj
    · -- A marker that was opened since starts behind the one that is taken back.
      exact List.mem_cons_of_mem _ (mem_started_iff.mp ((started_perm hpost).mem_iff.mpr
        (List.mem_append_right _ hj)))
    · rw [List.mem_singleton.mp hj]
      exact List.mem_cons_self

theorem shut (h : d.Disciplined) (hs : d.Shuts id d') : d'.Disciplined := by
  have hevents : d'.events = d.events ++ [.stop id] := by
    unfold events
    rw [hs.history, List.reverse_cons]
  have hstart : ∀ j, .start j ∈ d'.events ↔ .start j ∈ d.events := by
    intro j
    rw [hevents]
    simp
  have hlt : id < d.markers.size := by
    refine h.known id (h.started ?_)
    rw [hs.opened]
    exact List.mem_cons_self
  have hnodup := h.nodup_opened
  rw [hs.opened] at hnodup
  refine ⟨?_, ?_, ?_, ?_, ?_, ?_⟩
  · rw [hevents, openedAfter_append, h.stack, Option.bind_some, hs.opened, openedAfter_stop,
      openedAfter_nil]
  · rw [hevents, List.filterMap_append, List.filterMap_cons_none rfl, List.filterMap_nil,
      List.append_nil]
    exact h.once
  · intro j hj
    rw [hs.size]
    exact h.known j ((hstart j).mp hj)
  · intro j hj
    have hne : j ≠ id := by
      rintro rfl
      exact (List.nodup_cons.mp hnodup).1 hj
    rw [hs.others j hne]
    exact h.opened j (hs.opened ▸ List.mem_cons_of_mem _ hj)
  · intro j hj hno
    by_cases hne : j = id
    · subst hne
      exact hs.closed hlt
    · rw [hs.others j hne]
      refine h.closed j ((hstart j).mp hj) ?_
      rw [hs.opened]
      simp [hne, hno]
  · intro j hj hno
    have hno : .start j ∉ d.events := fun hj => hno ((hstart j).mpr hj)
    have hne : j ≠ id := by
      rintro rfl
      exact hno (h.started (by rw [hs.opened]; simp))
    rw [hs.others j hne]
    exact h.gone j (hs.size ▸ hj) hno

theorem apply (h : d.Disciplined) {action : RecordAction} (haimed : action.Aimed d)
    (hok : d.apply action = .ok d') : d'.Disciplined := by
  cases action with
  | advance =>
    cases hok
    exact h.advance
  | accept kind =>
    cases hok
    split
    · exact h.advance
    · exact h
  | openMarker =>
    cases hopen : d.openMarker with
    | error e =>
      simp only [Draft.apply, hopen] at hok
      cases hok
      exact h
    | ok r =>
      obtain ⟨id, d₁⟩ := r
      simp only [Draft.apply, hopen] at hok
      cases hok
      exact h.openMarker hopen
  | openBefore inner =>
    cases hopen : d.openBefore inner with
    | error e =>
      simp only [Draft.apply, hopen] at hok
      cases hok
    | ok r =>
      obtain ⟨id, d₁⟩ := r
      simp only [Draft.apply, hopen] at hok
      cases hok
      exact h.openBefore haimed hopen
  | undo id => exact h.undo hok
  | closeAs id node kind => exact h.shut (closeAs_shuts hok)
  | closeWith id node ast => exact h.shut (closeWith_shuts hok)
  | closeGroup id => exact h.shut (closeGroup_shuts hok)
  | dissolve id => exact h.shut (dissolve_shuts hok)
  | closeError id diagnostic => exact h.shut (closeError_shuts hok)

/-- By induction on the actions. -/
theorem applyAll (h : d.Disciplined) {actions : List RecordAction} (haims : d.AimsWell actions)
    (hok : d.applyAll actions = .ok d') : d'.Disciplined := by
  unfold Draft.applyAll at hok
  induction actions generalizing d with
  | nil =>
    cases hok
    exact h
  | cons action actions ih =>
    rw [List.foldlM_cons] at hok
    cases heq : d.apply action with
    | error e =>
      rw [heq] at hok
      cases hok
    | ok d₁ =>
      rw [heq] at hok
      rw [AimsWell, heq] at haims
      exact ih (h.apply haims.1 heq) haims.2 hok

theorem toTranscript (h : d.Disciplined) {t : Transcript} (hok : d.toTranscript = .ok t) :
    Bracketed t.events := by
  unfold Draft.toTranscript at hok
  split at hok
  · cases hok
  · next hopened =>
    cases hok
    rw [bracketed_iff, openedAfter_append, h.stack, hopened]
    exact Balanced.tokens d.ahead []

end Disciplined

/-! ### What this means for each marker -/

/-- The events of a draft pair up, and the state of each marker says what became of its pair. -/
structure Orderly (d : Draft) : Prop where
  starts_once : ∀ id, d.events.count (.start id) ≤ 1
  stops_once : ∀ id, d.events.count (.stop id) ≤ 1
  /-- The markers that start and do not end are the open ones, in their order. -/
  unended : (d.events.filterMap Event.started?).filter (fun id => .stop id ∉ d.events) =
    d.opened.reverse
  opened_iff : ∀ id, id ∈ d.opened ↔ id < d.markers.size ∧ (d.marker id).state = .opened
  /-- Any other marker was closed, and what stands between its start and its end is well
      bracketed. -/
  closed : ∀ id, .start id ∈ d.events → id ∉ d.opened → (d.marker id).state.isClosed = true ∧
    ∃ before body after, d.events = before ++ .start id :: (body ++ .stop id :: after) ∧
      Bracketed body
  rolledBack : ∀ id, (d.marker id).state = .rolledBack →
    .start id ∉ d.events ∧ .stop id ∉ d.events

theorem Disciplined.orderly (h : d.Disciplined) : d.Orderly := by
  have hperm := started_perm h.stack
  have hstarted : ∀ id, .stop id ∈ d.events → .start id ∈ d.events := fun id hid =>
    mem_started_iff.mp (hperm.mem_iff.mpr (List.mem_append_left _ (mem_stopped_iff.mpr hid)))
  refine ⟨?_, ?_, unended_starts h.stack h.once, fun id => h.opened_iff, ?_, ?_⟩
  · exact fun id => count_le_one h.once rfl
  · exact fun id => count_le_one (List.nodup_append.mp h.nodup).1 rfl
  · intro id hstart hno
    refine ⟨h.closed id hstart hno, ?_⟩
    have hmem := hperm.mem_iff.mp (mem_started_iff.mpr hstart)
    have hstop : .stop id ∈ d.events :=
      mem_stopped_iff.mp ((List.mem_append.mp hmem).resolve_right hno)
    obtain ⟨earlier, after, hevents⟩ := List.append_of_mem hstop
    obtain ⟨before, body, rfl, hbody⟩ := leftOpen_of_stop (hevents ▸ h.stack)
    exact ⟨before, body, after, by simp [hevents], hbody⟩
  · intro id hstate
    have hno : .start id ∉ d.events := by
      intro hstart
      by_cases hmem : id ∈ d.opened
      · rw [h.opened id hmem] at hstate
        cases hstate
      · have hclosed := h.closed id hstart hmem
        rw [hstate] at hclosed
        cases hclosed
    exact ⟨hno, fun hstop => hno (hstarted id hstop)⟩

/-- However a draft came about: as long as markers were only put around an open marker, or around a
    closed one directly in the innermost open marker, it is orderly.  If it is complete then its
    markers pair up in the eyes of the replay as well. -/
theorem stays_orderly (tokens : List Token) (marksLeft : Option Nat) (actions : List RecordAction)
    (haims : (Draft.ofTokens tokens marksLeft).AimsWell actions) (d : Draft)
    (hd : (Draft.ofTokens tokens marksLeft).applyAll actions = .ok d) :
    d.Orderly ∧ ∀ t, d.toTranscript = .ok t → ∀ file ast id,
      t.assemble file ast ≠ .error (.unbalanced id) := by
  have hdisciplined := (Disciplined.ofTokens tokens marksLeft).applyAll haims hd
  refine ⟨hdisciplined.orderly, fun t ht file ast id => ?_⟩
  exact Transcript.assemble_ne_unbalanced (hdisciplined.toTranscript ht) file ast id

/-- A marker is put around a closed one, then one around an open one, which is taken back. -/
theorem wrapped_and_undone_is_orderly :
    (Draft.ofTokens [⟨.whitespace, ⟨0, 1⟩⟩, ⟨.ident, ⟨1, 2⟩⟩] none).AimsWell
      [.openMarker, .advance, .closeGroup 0, .openBefore 0, .openMarker, .openBefore 2, .undo 2,
        .dissolve 3, .closeGroup 1] ∧
    ∃ d, (Draft.ofTokens [⟨.whitespace, ⟨0, 1⟩⟩, ⟨.ident, ⟨1, 2⟩⟩] none).applyAll
        [.openMarker, .advance, .closeGroup 0, .openBefore 0, .openMarker, .openBefore 2, .undo 2,
          .dissolve 3, .closeGroup 1] = .ok d ∧ d.Orderly := by
  have haims : (Draft.ofTokens [⟨.whitespace, ⟨0, 1⟩⟩, ⟨.ident, ⟨1, 2⟩⟩] none).AimsWell
      [.openMarker, .advance, .closeGroup 0, .openBefore 0, .openMarker, .openBefore 2, .undo 2,
        .dissolve 3, .closeGroup 1] := by decide
  exact ⟨haims, _, rfl, (stays_orderly _ none _ haims _ rfl).1⟩

end Draft

end ScriptAnalysis
