import ScriptAnalysis.Recording.Draft

/-!
# The limit of a recording

How many more markers may be opened is looked at where a marker is opened, and nowhere else.  So
every other operation does the same whatever the limit is, and leaves it as it is.
-/

namespace ScriptAnalysis

/-! ### What is left of a limit -/

/-- What is left of a limit after so many markers were to be opened. -/
def spendMarks (calls : Nat) : Option Nat → Except Fault (Option Nat)
  | none => .ok none
  | some n => if n < calls then .error .cancelled else .ok (some (n - calls))

@[simp] theorem spendMarks_zero (n : Option Nat) : spendMarks 0 n = .ok n := by
  cases n <;> rfl

@[simp] theorem spendMarks_none (calls : Nat) : spendMarks calls none = .ok none := rfl

theorem spendMarks_some (calls n : Nat) : spendMarks calls (some n) =
    if n < calls then .error .cancelled else .ok (some (n - calls)) := rfl

/-- Limits are used up bit by bit. -/
theorem spendMarks_add (calls more : Nat) (n : Option Nat) :
    spendMarks (calls + more) n = (spendMarks calls n).bind (spendMarks more) := by
  cases n with
  | none => rfl
  | some n =>
    rw [spendMarks_some, spendMarks_some]
    by_cases hfirst : n < calls
    · rw [if_pos hfirst, if_pos (Nat.lt_add_right more hfirst)]
      rfl
    · have hrest : n < calls + more ↔ n - calls < more := by omega
      rw [if_neg hfirst, Except.bind, spendMarks_some, Nat.sub_sub]
      simp only [hrest]

namespace Draft

/-! ### Operations -/

/-- The same draft with another limit. -/
def limited (d : Draft) (n : Option Nat) : Draft := { d with marksLeft := n }

variable (d : Draft) (n : Option Nat) (id : MarkerId)

@[simp] theorem limited_opened : (d.limited n).opened = d.opened := rfl

@[simp] theorem limited_messages : (d.limited n).messages = d.messages := rfl

@[simp] theorem limited_since : (d.limited n).since id = d.since id := rfl

@[simp] theorem limited_upTo : (d.limited n).upTo id = d.upTo id := rfl

/-- An operation that does not look at the limit. -/
def Unlimited (f : Draft → Except Fault Draft) : Prop :=
  ∀ d n, f (d.limited n) = (f d).map (·.limited n)

theorem close_unlimited (state : MarkerState) : Unlimited (·.close id state) := by
  intro d n
  unfold close
  dsimp only
  by_cases hstate : (d.marker id).state ≠ .opened
  · rw [if_pos hstate, if_pos (show ((d.limited n).marker id).state ≠ .opened from hstate)]
    rfl
  · rw [if_neg hstate, if_neg (show ¬ ((d.limited n).marker id).state ≠ .opened from hstate)]
    rw [limited_opened]
    cases d.opened with
    | nil => rfl
    | cons innermost outer =>
      dsimp only
      by_cases hid : innermost ≠ id
      · rw [if_pos hid, if_pos hid]
        rfl
      · rw [if_neg hid, if_neg hid]
        rfl

theorem dissolve_unlimited : Unlimited (·.dissolve id) := close_unlimited id .dropped

theorem closeAs_unlimited (node : NodeId) (kind : NodeKind) :
    Unlimited (·.closeAs id node kind) := by
  intro d n
  unfold closeAs
  have h := close_unlimited id .done d n
  dsimp only at h ⊢
  rw [h]
  cases d.close id .done with
  | error e => rfl
  | ok d' => rfl

theorem closeGroup_unlimited : Unlimited (·.closeGroup id) := by
  intro d n
  unfold closeGroup
  have h := close_unlimited id .done d n
  dsimp only at h ⊢
  rw [h]
  cases d.close id .done with
  | error e => rfl
  | ok d' => rfl

theorem closeWith_unlimited (node : NodeId) (ast : Ast) :
    Unlimited (·.closeWith id node ast) := by
  intro d n
  unfold closeWith
  dsimp only
  split
  · exact closeAs_unlimited id node _ d n
  · exact dissolve_unlimited id d n

theorem closeError_unlimited (diagnostic : Diagnostic) :
    Unlimited (·.closeError id diagnostic) := by
  intro d n
  unfold closeError
  simp only [limited_messages]
  split
  · exact dissolve_unlimited id d n
  · next messages _ =>
    have h := close_unlimited id .error { d with messages } n
    dsimp only at h
    have hsame : { d.limited n with messages } = ({ d with messages } : Draft).limited n := rfl
    rw [hsame, h]
    cases close { d with messages } id .error with
    | error e => rfl
    | ok d' => rfl

theorem retract_limited : (d.limited n).retract id = (d.retract id).limited n := rfl

theorem foldl_retract_limited (ids : List MarkerId) :
    ids.foldl retract (d.limited n) = (ids.foldl retract d).limited n := by
  induction ids generalizing d with
  | nil => rfl
  | cons id ids ih =>
    rw [List.foldl_cons, List.foldl_cons, retract_limited, ih]

theorem undo_unlimited : Unlimited (·.undo id) := by
  intro d n
  unfold undo
  dsimp only
  by_cases hstate : (d.marker id).state ≠ .opened
  · rw [if_pos hstate, if_pos (show ((d.limited n).marker id).state ≠ .opened from hstate)]
    rfl
  · rw [if_neg hstate, if_neg (show ¬ ((d.limited n).marker id).state ≠ .opened from hstate)]
    rw [limited_upTo]
    cases d.upTo id with
    | nil => rfl
    | cons start earlier =>
      dsimp only
      rw [limited_since, foldl_retract_limited]
      rfl

theorem openBefore_limited :
    (d.limited n).openBefore id = (d.openBefore id).map fun r => (r.1, r.2.limited n) := by
  unfold openBefore
  simp only [limited_upTo]
  split
  · rfl
  · rfl

/-- A marker is opened as without a limit, and one less may be opened afterwards. -/
theorem openMarker_limited :
    (d.limited n).openMarker = (spendMarks 1 n).bind fun n' =>
      (d.limited none).openMarker.map fun r => (r.1, r.2.limited n') := by
  cases n with
  | none => rfl
  | some n =>
    cases n with
    | zero => rfl
    | succ n => rfl

end Draft

end ScriptAnalysis
