import Mathlib.Data.List.Nodup
import ScriptAnalysis.Proofs.Recording.Steps
import ScriptAnalysis.Proofs.Tree.Messages

/-!
# Each message is said once

A draft keeps a set of messages beside the records of its markers.  The two are always in step: the
messages are those that the markers report which ended as a fault, and no two of these report the
same (`Draft.Remembers`).  A marker that is closed adds at most its own message, and one that is
taken back takes its own message with it, which no other marker has.
-/

namespace ScriptAnalysis

theorem Marker.mem_reported {m : Marker} {message : String} : message ∈ m.reported ↔
    m.state = .error ∧ ∃ diagnostic, m.diagnostic = some diagnostic ∧
      diagnostic.message = message := by
  unfold reported
  split
  · next diagnostic hstate hdiagnostic =>
    simp [hstate, hdiagnostic, eq_comm]
  · next hother =>
    constructor
    · intro hmem
      cases hmem
    · rintro ⟨hstate, diagnostic, hdiagnostic, -⟩
      exact absurd hdiagnostic (hother diagnostic hstate)

namespace Draft

variable {d d' : Draft} {id : MarkerId} {action : RecordAction}

/-- The messages of a draft are those of the markers that ended as a fault. -/
structure Remembers (d : Draft) : Prop where
  messages_iff : ∀ message, message ∈ d.messages.messages ↔
    ∃ id, message ∈ (d.marker id).reported
  /-- No two markers report the same message. -/
  once : ∀ i j message, message ∈ (d.marker i).reported → message ∈ (d.marker j).reported → i = j
  /-- A marker that ended as a fault has a diagnostic, and no other has one. -/
  error_iff : ∀ id, (d.marker id).state = .error ↔ (d.marker id).diagnostic ≠ none

namespace Remembers

theorem ofTokens (tokens : List Token) (marksLeft : Option Nat) :
    (Draft.ofTokens tokens marksLeft).Remembers := by
  have hmarker : ∀ id, (Draft.ofTokens tokens marksLeft).marker id = {} := fun _ => rfl
  refine ⟨fun message => ?_, fun i j message hi _ => ?_, fun id => ?_⟩
  · constructor
    · intro hmem
      cases hmem
    · rintro ⟨id, hid⟩
      rw [hmarker] at hid
      cases hid
  · rw [hmarker] at hi
    cases hi
  · rw [hmarker]
    simp

/-- What a draft remembers does not depend on anything but the messages, and the diagnostics and
    faults of the markers. -/
theorem congr (h : d.Remembers) (hmessages : d'.messages = d.messages)
    (hdiagnostic : ∀ id, (d'.marker id).diagnostic = (d.marker id).diagnostic)
    (herror : ∀ id, (d'.marker id).state = .error ↔ (d.marker id).state = .error) :
    d'.Remembers := by
  have hreported : ∀ id message,
      message ∈ (d'.marker id).reported ↔ message ∈ (d.marker id).reported := by
    intro id message
    rw [Marker.mem_reported, Marker.mem_reported, hdiagnostic, herror]
  refine ⟨fun message => ?_, fun i j message hi hj => ?_, fun id => ?_⟩
  · rw [hmessages, h.messages_iff]
    exact exists_congr fun id => (hreported id message).symm
  · exact h.once i j message ((hreported i message).mp hi) ((hreported j message).mp hj)
  · rw [hdiagnostic, herror, h.error_iff]

/-- A new marker reports nothing. -/
theorem push (h : d.Remembers) {resume : List Token} (hmessages : d'.messages = d.messages)
    (hmarkers : d'.markers = d.markers.push { resume }) : d'.Remembers := by
  have hmarker : ∀ id, (d'.marker id).diagnostic = (d.marker id).diagnostic ∧
      (d'.marker id).state = (d.marker id).state := by
    intro id
    unfold marker
    rw [hmarkers, marker_push]
    split
    · next hid =>
      rw [hid]
      simp
    · exact ⟨rfl, rfl⟩
  refine h.congr hmessages (fun id => (hmarker id).1) fun id => ?_
  rw [(hmarker id).2]

/-- Markers that are taken back take their messages with them. -/
theorem foldl_retract (h : d.Remembers) (ids : List MarkerId) :
    (ids.foldl Draft.retract d).Remembers := by
  obtain ⟨-, -, -, hsize, hkept⟩ := Draft.foldl_retract ids d
  have hdiagnostic := foldl_retract_diagnostic ids d
  have hreported : ∀ j message, message ∈ ((ids.foldl Draft.retract d).marker j).reported ↔
      j ∉ ids ∧ message ∈ (d.marker j).reported := by
    intro j message
    by_cases hj : j ∈ ids
    · simp [Marker.mem_reported, hdiagnostic, hj]
    · simp [hkept j hj, hj]
  refine ⟨fun message => ?_, fun i j message hi hj => ?_, fun j => ?_⟩
  · rw [mem_messages_foldl_retract, h.messages_iff]
    constructor
    · rintro ⟨⟨j, hj⟩, hother⟩
      refine ⟨j, (hreported j message).mpr ⟨fun hmem => ?_, hj⟩⟩
      obtain ⟨-, diagnostic, hd, hmessage⟩ := Marker.mem_reported.mp hj
      exact hother j hmem diagnostic hd hmessage
    · rintro ⟨j, hj⟩
      obtain ⟨hno, hj⟩ := (hreported j message).mp hj
      refine ⟨⟨j, hj⟩, fun id hid diagnostic hd hmessage => hno ?_⟩
      have herror : (d.marker id).state = .error := (h.error_iff id).mpr (by simp [hd])
      have hsame := Marker.mem_reported.mpr ⟨herror, diagnostic, hd, hmessage⟩
      exact h.once id j message hsame hj ▸ hid
  · exact h.once i j message ((hreported i message).mp hi).2 ((hreported j message).mp hj).2
  · by_cases hj : j ∈ ids
    · rw [hdiagnostic, if_pos hj]
      refine iff_of_false (fun herror => ?_) (not_not_intro rfl)
      have hlt : j < (ids.foldl Draft.retract d).markers.size :=
        lt_size_of_state (by simp [herror])
      rw [foldl_retract_state ids d (hsize ▸ hlt), if_pos hj] at herror
      cases herror
    · rw [hkept j hj]
      exact h.error_iff j

/-- A marker that ends without a message reports nothing, as before. -/
theorem settle (h : d.Remembers) (hs : d.Settles id d') : d'.Remembers := by
  refine h.congr hs.messages (fun j => ?_) fun j => ?_
  · by_cases hj : j = id
    · rw [hj, hs.diagnostic]
    · rw [hs.marker j hj]
  · by_cases hj : j = id
    · rw [hj, hs.was_opened]
      rcases hs.state with hstate | hstate <;> simp [hstate]
    · rw [hs.marker j hj]

/-- A marker that ends as a fault adds its message, which no other marker reports. -/
theorem tell (h : d.Remembers) {diagnostic : Diagnostic} (ht : d.Tells id diagnostic d') :
    d'.Remembers := by
  have hreported : ∀ j message, message ∈ (d'.marker j).reported ↔
      (j = id ∧ message = diagnostic.message) ∨ message ∈ (d.marker j).reported := by
    intro j message
    by_cases hj : j = id
    · subst hj
      simp [Marker.mem_reported, ht.state, ht.diagnostic_eq, ht.was_opened, eq_comm]
    · simp [ht.marker j hj, hj]
  have hunsaid : ∀ j, diagnostic.message ∉ (d.marker j).reported := fun j hj =>
    ht.unsaid ((h.messages_iff _).mpr ⟨j, hj⟩)
  refine ⟨fun message => ?_, fun i j message hi hj => ?_, fun j => ?_⟩
  · rw [ht.messages, List.mem_cons, h.messages_iff]
    constructor
    · rintro (hmessage | ⟨j, hj⟩)
      · exact ⟨id, (hreported id message).mpr (.inl ⟨rfl, hmessage⟩)⟩
      · exact ⟨j, (hreported j message).mpr (.inr hj)⟩
    · rintro ⟨j, hj⟩
      rcases (hreported j message).mp hj with ⟨-, hmessage⟩ | hj
      · exact .inl hmessage
      · exact .inr ⟨j, hj⟩
  · rcases (hreported i message).mp hi with ⟨rfl, rfl⟩ | hi
    · rcases (hreported j _).mp hj with ⟨rfl, -⟩ | hj
      · rfl
      · exact absurd hj (hunsaid j)
    · rcases (hreported j _).mp hj with ⟨rfl, rfl⟩ | hj
      · exact absurd hi (hunsaid i)
      · exact h.once i j message hi hj
  · by_cases hj : j = id
    · subst hj
      simp [ht.state, ht.diagnostic_eq]
    · rw [ht.marker j hj]
      exact h.error_iff j

theorem step (h : d.Remembers) (hs : d.Step action d') : d'.Remembers := by
  cases hs with
  | idle => exact h
  | record ts ahead _ => exact h.congr rfl (fun _ => rfl) fun _ => Iff.rfl
  | opens marksLeft => exact h.push rfl rfl
  | around _ _ => exact h.push rfl rfl
  | takesBack _ _ _ =>
    exact (h.foldl_retract _).congr rfl (fun _ => rfl) fun _ => Iff.rfl
  | closes hfinishes =>
    rcases hfinishes with hsettles | ⟨diagnostic, htells⟩
    · exact h.settle hsettles
    · exact h.tell htells

/-- The markers of a transcript report each message once, for each of them starts once. -/
theorem toTranscript (h : d.Remembers) (hplaced : d.Placed) {t : Transcript}
    (hok : d.toTranscript = .ok t) : (t.reported t.events).Nodup := by
  unfold Draft.toTranscript at hok
  split at hok
  · cases hok
  · cases hok
    have hnone : (d.ahead.map Event.token).filterMap Event.started? = [] := by
      rw [List.filterMap_eq_nil_iff]
      intro e he
      obtain ⟨t, -, rfl⟩ := List.mem_map.mp he
      rfl
    have honce : (d.events.filterMap Event.started?).Nodup := by
      unfold events
      rw [List.filterMap_reverse, List.nodup_reverse]
      exact hplaced.once
    unfold Transcript.reported
    dsimp only
    rw [List.filterMap_append, hnone, List.append_nil, List.nodup_flatMap]
    refine ⟨fun id _ => ?_, honce.imp fun {i j} hne message hi hj => ?_⟩
    · unfold Marker.reported
      split
      · exact List.nodup_singleton _
      · exact List.nodup_nil
    · exact hne (h.once i j message hi hj)

end Remembers

/-- Whatever is done with a draft: its messages are those of the markers that ended as a fault, each
    of them said by one marker, which is among the events.  So a tree that is made of it has no two
    diagnostics with one message. -/
theorem says_each_message_once (tokens : List Token) (marksLeft : Option Nat)
    (actions : List RecordAction) (d : Draft)
    (hd : (Draft.ofTokens tokens marksLeft).applyAll actions = .ok d) :
    d.Remembers ∧ (∀ id, (d.marker id).state = .error → .start id ∈ d.events) ∧
      ∀ t, d.toTranscript = .ok t → ∀ file ast a, t.assemble file ast = .ok a →
        (a.diagnostics.map Diagnostic.message).Nodup := by
  obtain ⟨hplaced, hremembers⟩ := (Placed.ofTokens tokens marksLeft).applyAll
    (Remembers.ofTokens tokens marksLeft) (fun _ _ h hs => h.step hs) hd
  refine ⟨hremembers, fun id herror => ?_, fun t ht file ast a ha => ?_⟩
  · refine List.mem_reverse.mpr (hplaced.starts id (lt_size_of_state ?_) ?_)
    · simp [herror]
    · simp [herror]
  · rw [Transcript.messages_of_assemble ha]
    exact hremembers.toTranscript hplaced ht

/-- A message is said, taken back and said again, then once more in a marker that was put across the
    start of another one; that marker ends without a diagnostic. -/
theorem message_said_again_after_undo :
    ∃ d, (Draft.ofTokens [⟨.ident, ⟨0, 1⟩⟩] none).applyAll
        [.openMarker, .openMarker, .closeError 1 (.ofParse "fault" ⟨0, 1⟩), .undo 0, .openMarker,
          .closeError 2 (.ofParse "fault" ⟨0, 1⟩), .openMarker, .openBefore 2,
          .closeError 4 (.ofParse "fault" ⟨0, 1⟩), .dissolve 3] = .ok d ∧
      d.Remembers ∧ (∀ id, (d.marker id).state = .error → .start id ∈ d.events) ∧
      ∀ t, d.toTranscript = .ok t → ∀ file ast a, t.assemble file ast = .ok a →
        (a.diagnostics.map Diagnostic.message).Nodup := by
  obtain ⟨d, hd⟩ : ∃ d, (Draft.ofTokens [⟨.ident, ⟨0, 1⟩⟩] none).applyAll
      [.openMarker, .openMarker, .closeError 1 (.ofParse "fault" ⟨0, 1⟩), .undo 0, .openMarker,
        .closeError 2 (.ofParse "fault" ⟨0, 1⟩), .openMarker, .openBefore 2,
        .closeError 4 (.ofParse "fault" ⟨0, 1⟩), .dissolve 3] = .ok d := ⟨_, rfl⟩
  exact ⟨d, hd, says_each_message_once _ none _ d hd⟩

end Draft

end ScriptAnalysis
