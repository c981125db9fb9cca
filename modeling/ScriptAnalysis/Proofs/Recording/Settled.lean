import ScriptAnalysis.Proofs.Recording.Operations

/-!
# The messages of a recording

Which messages a recording remembers after a marker was ended or taken back, and which marker each
of them belongs to.  A message enters with the error marker that reports it and leaves when that
marker is taken back; ending a marker in any other way changes none.
-/

namespace ScriptAnalysis

/-! ### Ending a marker -/

namespace Draft

variable {m : MarkerId} {d d' : Draft}

/-- The innermost opened marker was ended, and nothing was reported. -/
structure Settles (m : MarkerId) (d d' : Draft) : Prop extends d.Closes m d' where
  messages : d'.messages = d.messages
  was_opened : (d.marker m).state = .opened
  state : (d'.marker m).state = .done ∨ (d'.marker m).state = .dropped
  diagnostic : (d'.marker m).diagnostic = (d.marker m).diagnostic

/-- The innermost opened marker was ended as a fault, with a message that is new. -/
structure Tells (m : MarkerId) (diagnostic : Diagnostic) (d d' : Draft) : Prop
    extends d.Closes m d' where
  unsaid : diagnostic.message ∉ d.messages.messages
  messages : d'.messages.messages = diagnostic.message :: d.messages.messages
  was_opened : (d.marker m).state = .opened
  state : (d'.marker m).state = .error
  diagnostic_eq : (d'.marker m).diagnostic = some diagnostic

theorem close_settles {state : MarkerState} (hknown : ∀ id ∈ d.opened, id < d.markers.size)
    (hstate : state = .done ∨ state = .dropped) (h : d.close m state = .ok d') :
    d.Settles m d' := by
  have hm := hknown m (mem_opened_of_close h)
  have hcloses := (close_closes hm h).1
  obtain ⟨hopened, outer, -, rfl⟩ := close_cases h
  have hself := (d.marker_setIfInBounds m m { d.marker m with
    state, offset := d.startOffset m } hm).trans (if_pos rfl)
  refine ⟨hcloses, rfl, hopened, ?_, ?_⟩
  · exact (congrArg Marker.state hself).symm ▸ hstate
  · exact (congrArg Marker.diagnostic hself :)

theorem Settles.modifyMarker (h : d.Settles m d') (hm : m < d.markers.size) {f : Marker → Marker}
    (hresume : ∀ r, (f r).resume = r.resume) (hstate : ∀ r, (f r).state = r.state)
    (hdiagnostic : ∀ r, (f r).diagnostic = r.diagnostic) :
    d.Settles m (d'.modifyMarker m f) := by
  have hself := d'.marker_modify m m f (h.size ▸ hm)
  rw [if_pos rfl] at hself
  refine ⟨h.toCloses.modifyMarker hm hresume, h.messages, h.was_opened, ?_, ?_⟩
  · rw [hself, hstate]
    exact h.state
  · rw [hself, hdiagnostic, h.diagnostic]

theorem dissolve_settles (hknown : ∀ id ∈ d.opened, id < d.markers.size)
    (h : d.dissolve m = .ok d') : d.Settles m d' :=
  close_settles hknown (.inr rfl) h

theorem closeGroup_settles (hknown : ∀ id ∈ d.opened, id < d.markers.size)
    (h : d.closeGroup m = .ok d') : d.Settles m d' := by
  obtain ⟨d₁, hclose, rfl⟩ := closeGroup_cases h
  exact (close_settles hknown (.inl rfl) hclose).modifyMarker
    (hknown m (mem_opened_of_close hclose)) (fun _ => rfl) (fun _ => rfl) fun _ => rfl

theorem closeAs_settles (hknown : ∀ id ∈ d.opened, id < d.markers.size) {node : NodeId}
    {kind : NodeKind} (h : d.closeAs m node kind = .ok d') : d.Settles m d' := by
  obtain ⟨d₁, hclose, rfl⟩ := closeAs_cases h
  exact (close_settles hknown (.inl rfl) hclose).modifyMarker
    (hknown m (mem_opened_of_close hclose)) (fun _ => rfl) (fun _ => rfl) fun _ => rfl

theorem closeWith_settles (hknown : ∀ id ∈ d.opened, id < d.markers.size) {node : NodeId}
    {ast : Ast} (h : d.closeWith m node ast = .ok d') : d.Settles m d' := by
  unfold closeWith at h
  split at h
  · exact closeAs_settles hknown h
  · exact dissolve_settles hknown h

/-- After a fault was reported its message is remembered: it was before, or it is that of the marker
    that was ended. -/
theorem closeError_told (hknown : ∀ id ∈ d.opened, id < d.markers.size) {diagnostic : Diagnostic}
    (h : d.closeError m diagnostic = .ok d') :
    (diagnostic.message ∈ d.messages.messages ∧ d.Settles m d') ∨ d.Tells m diagnostic d' := by
  rcases closeError_cases h with ⟨hnone, hdissolve⟩ | ⟨messages, d₁, hinsert, hclose, rfl⟩
  · exact .inl ⟨MessageSet.insert?_eq_none_iff.mp hnone, dissolve_settles hknown hdissolve⟩
  · have hm := hknown m (mem_opened_of_close (d := { d with messages }) hclose)
    obtain ⟨hc, hstate, -⟩ := close_closes (d := { d with messages }) hm hclose
    obtain ⟨hopened, outer, -, hd₁⟩ := close_cases hclose
    have hself := d₁.marker_modify m m (fun r => { r with diagnostic := some diagnostic })
      (hc.size ▸ hm)
    rw [if_pos rfl] at hself
    unfold MessageSet.insert? at hinsert
    split at hinsert
    · cases hinsert
    · next hnew =>
      cases hinsert
      refine .inr ⟨hc.of_messages.modifyMarker hm fun _ => rfl, hnew, ?_, hopened, ?_, ?_⟩
      · exact congrArg (fun d : Draft => d.messages.messages) hd₁
      · rw [hself]
        exact hstate
      · rw [hself]

/-! ### Taking markers back -/

theorem retract_diagnostic (id j : MarkerId) : ((d.retract id).marker j).diagnostic =
    if j = id then none else (d.marker j).diagnostic := by
  have hmarker : (d.retract id).marker j = (d.markers.setIfInBounds id
      { d.marker id with state := .rolledBack, diagnostic := none }).getD j {} := rfl
  rw [hmarker]
  by_cases hid : id < d.markers.size
  · rw [d.marker_setIfInBounds id j _ hid]
    by_cases hj : j = id
    · rw [if_pos hj, if_pos hj.symm]
    · rw [if_neg hj, if_neg (Ne.symm hj)]
  · rw [Array.setIfInBounds_eq_of_size_le (Nat.le_of_not_lt hid)]
    split
    · next hj =>
      rw [hj, Array.getD_eq_getD_getElem?, Array.getElem?_eq_none (Nat.le_of_not_lt hid)]
      rfl
    · rfl

theorem mem_messages_retract {id : MarkerId} {message : String} :
    message ∈ (d.retract id).messages.messages ↔ message ∈ d.messages.messages ∧
      ∀ diagnostic, (d.marker id).diagnostic = some diagnostic → diagnostic.message ≠ message := by
  unfold retract
  cases hd : (d.marker id).diagnostic with
  | none => simp [hd]
  | some diagnostic =>
    dsimp only
    rw [hd, MessageSet.mem_erase]
    simp only [Option.some.injEq, forall_eq', ne_eq, eq_comm]
    exact and_comm

/-- Taking markers back forgets their messages and no others. -/
theorem mem_messages_foldl_retract {message : String} (ids : List MarkerId) (d : Draft) :
    message ∈ (ids.foldl retract d).messages.messages ↔ message ∈ d.messages.messages ∧
      ∀ id ∈ ids, ∀ diagnostic, (d.marker id).diagnostic = some diagnostic →
        diagnostic.message ≠ message := by
  induction ids generalizing d with
  | nil => simp
  | cons id ids ih =>
    rw [List.foldl_cons, ih, mem_messages_retract, and_assoc, and_congr_right_iff]
    intro _
    simp only [List.mem_cons, forall_eq_or_imp]
    refine and_congr_right fun hid => forall₂_congr fun j _ => forall_congr' fun diagnostic => ?_
    rw [retract_diagnostic]
    by_cases hj : j = id
    · subst hj
      simpa using hid diagnostic
    · rw [if_neg hj]

theorem foldl_retract_diagnostic (ids : List MarkerId) (d : Draft) (j : MarkerId) :
    ((ids.foldl retract d).marker j).diagnostic =
      if j ∈ ids then none else (d.marker j).diagnostic := by
  induction ids generalizing d with
  | nil => simp
  | cons id ids ih =>
    rw [List.foldl_cons, ih, retract_diagnostic]
    by_cases hids : j ∈ ids
    · simp [hids]
    · by_cases hj : j = id <;> simp [hids, hj]

end Draft

end ScriptAnalysis
