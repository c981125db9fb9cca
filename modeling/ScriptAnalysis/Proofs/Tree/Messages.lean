import ScriptAnalysis.Proofs.Tree.Replay

/-!
# The messages of a tree

What is reported of a text is collected while its transcript is replayed: every marker that starts
adds what it reports, so the reports are told by the order in which markers start.
-/

namespace ScriptAnalysis

/-- What a marker reports. -/
def Marker.reported (m : Marker) : List String :=
  match m.state, m.diagnostic with
  | .error, some d => [d.message]
  | _, _ => []

theorem Marker.message_report (m : Marker) (offset : Option Nat) :
    (m.report offset).map Diagnostic.message = m.reported := by
  unfold Marker.report Marker.reported
  cases m.state with
  | error =>
    cases m.diagnostic with
    | none => rfl
    | some d => rfl
  | _ => rfl

/-- A finished marker reports nothing. -/
theorem Marker.reported_of_hasTreeNode {m : Marker} {ast : Ast} (h : m.hasTreeNode ast = true) :
    m.reported = [] := by
  have hdone : m.isDone = true := (Bool.and_eq_true_iff.mp h).1
  unfold Marker.isDone at hdone
  unfold Marker.reported
  rw [beq_iff_eq.mp hdone]

namespace Transcript

variable {t : Transcript} {file : FileId} {ast : Ast} {later events : List Event} {e : Event}
  {a a' : Assembly} {frames frames' : List Frame}

/-- What the markers that start among some events report, in this order. -/
def reported (t : Transcript) (events : List Event) : List String :=
  (events.filterMap Event.started?).flatMap fun id => (t.marker id).reported

theorem Step.messages (h : t.Step file ast later e a frames a' frames') :
    a'.diagnostics.map Diagnostic.message =
      a.diagnostics.map Diagnostic.message ++ t.reported [e] := by
  cases h with
  | token token =>
    rw [Assembly.pushLeaf_diagnostics]
    exact (List.append_nil _).symm
  | @enter _ _ id offset hnode hoffset =>
    have hnone : t.reported [.start id] = [] := by
      simp [reported, Event.started?, Marker.reported_of_hasTreeNode hnode]
    rw [hnone, List.append_nil]
  | @pass _ _ id hnode =>
    have hone : t.reported [.start id] = (t.marker id).reported := by
      simp [reported, Event.started?]
    rw [hone, List.map_append, Marker.message_report]
  | leave hnode =>
    rw [Assembly.index_diagnostics, Assembly.closeNode_diagnostics]
    exact (List.append_nil _).symm
  | drop hnode => exact (List.append_nil _).symm

/-- By induction on the events: each step adds what its own marker reports. -/
theorem Replays.messages (h : t.Replays file ast later events a frames a' frames') :
    a'.diagnostics.map Diagnostic.message =
      a.diagnostics.map Diagnostic.message ++ t.reported events := by
  induction h with
  | nil => exact (List.append_nil _).symm
  | @cons e events a b c fa fb fc hstep _ ih =>
    have hsplit : t.reported (e :: events) = t.reported [e] ++ t.reported events := by
      unfold reported
      rw [← List.flatMap_append, ← List.filterMap_append]
      rfl
    rw [ih, hstep.messages, List.append_assoc, hsplit]

theorem messages_of_assemble {r : Assembly} (h : t.assemble file ast = .ok r) :
    r.diagnostics.map Diagnostic.message = t.reported t.events := by
  obtain ⟨a, hrun, rfl⟩ := assemble_ok.mp h
  rw [Assembly.closeNode_diagnostics, hrun.messages]
  rfl

end Transcript

end ScriptAnalysis
