import ScriptAnalysis.Recording.Event
import Mathlib.Data.List.Basic

/-!
# Brackets in a list of events

The start and the end of a marker are a pair of brackets.  `openedAfter` reads events in the order
of the text and keeps the markers that are open, innermost first; a list of events is `Balanced`
when it leaves whatever was open before as it was.  What is between the brackets, `tokensIn`, is
the text itself.
-/

namespace ScriptAnalysis

/-- The token of an event. -/
def Event.token? : Event → Option Token
  | token t => some t
  | _ => none

/-- The tokens among events, in their order. -/
def tokensIn (events : List Event) : List Token := events.filterMap Event.token?

@[simp] theorem tokensIn_nil : tokensIn [] = [] := rfl

@[simp] theorem tokensIn_token (t : Token) (es : List Event) :
    tokensIn (.token t :: es) = t :: tokensIn es := rfl

@[simp] theorem tokensIn_start (id : MarkerId) (es : List Event) :
    tokensIn (.start id :: es) = tokensIn es := rfl

@[simp] theorem tokensIn_stop (id : MarkerId) (es : List Event) :
    tokensIn (.stop id :: es) = tokensIn es := rfl

@[simp] theorem tokensIn_append (a b : List Event) :
    tokensIn (a ++ b) = tokensIn a ++ tokensIn b := List.filterMap_append

@[simp] theorem tokensIn_map_token (ts : List Token) : tokensIn (ts.map .token) = ts := by
  induction ts with
  | nil => rfl
  | cons t ts ih => rw [List.map_cons, tokensIn_token, ih]

/-- The ids of the markers that start among some events. -/
theorem mem_started_iff {p : List Event} {id : MarkerId} :
    id ∈ p.filterMap Event.started? ↔ .start id ∈ p := by
  rw [List.mem_filterMap]
  constructor
  · rintro ⟨e, he, hstart⟩
    cases e with
    | start j => exact Option.some.inj hstart ▸ he
    | token t => cases hstart
    | stop j => cases hstart
  · exact fun h => ⟨_, h, rfl⟩

/-! ### Markers left open -/

/-- The markers that are open after some events, innermost first, if `σ` were open before them.
    An event may only end the innermost one. -/
def openedAfter : List MarkerId → List Event → Option (List MarkerId)
  | σ, [] => some σ
  | σ, .token _ :: es => openedAfter σ es
  | σ, .start id :: es => openedAfter (id :: σ) es
  | [], .stop _ :: _ => none
  | m :: σ, .stop id :: es => if m = id then openedAfter σ es else none

@[simp] theorem openedAfter_nil (σ : List MarkerId) : openedAfter σ [] = some σ := by
  cases σ <;> rfl

@[simp] theorem openedAfter_token (σ : List MarkerId) (t : Token) (es : List Event) :
    openedAfter σ (.token t :: es) = openedAfter σ es := by
  cases σ <;> rfl

@[simp] theorem openedAfter_start (σ : List MarkerId) (id : MarkerId) (es : List Event) :
    openedAfter σ (.start id :: es) = openedAfter (id :: σ) es := by
  cases σ <;> rfl

@[simp] theorem openedAfter_stop (σ : List MarkerId) (id : MarkerId) (es : List Event) :
    openedAfter (id :: σ) (.stop id :: es) = openedAfter σ es := by
  simp [openedAfter]

theorem openedAfter_append (σ : List MarkerId) (a b : List Event) :
    openedAfter σ (a ++ b) = (openedAfter σ a).bind fun τ => openedAfter τ b := by
  induction a generalizing σ with
  | nil => simp
  | cons e a ih =>
    cases e with
    | token t => simp [ih]
    | start id => simp [ih]
    | stop id =>
      cases σ with
      | nil => rfl
      | cons m σ =>
        by_cases h : m = id
        · subst h
          simp [ih]
        · simp [openedAfter, h]

/-- The events leave whatever is open as it was. -/
def Balanced (events : List Event) : Prop := ∀ σ, openedAfter σ events = some σ

namespace Balanced

theorem nil : Balanced [] := openedAfter_nil

theorem append {a b : List Event} (ha : Balanced a) (hb : Balanced b) : Balanced (a ++ b) := by
  intro σ
  rw [openedAfter_append, ha σ]
  exact hb σ

theorem tokens (ts : List Token) : Balanced (ts.map .token) := by
  intro σ
  induction ts with
  | nil => simp
  | cons t ts ih => simpa using ih

/-- Balanced events in a pair of brackets. -/
theorem wrap {body : List Event} (h : Balanced body) (id : MarkerId) :
    Balanced (.start id :: body ++ [.stop id]) := by
  intro σ
  simp [openedAfter_append, h (id :: σ)]

end Balanced

/-! ### What stands before the first token -/

/-- The events before the first token. -/
def leadIn (events : List Event) : List Event := events.takeWhile fun e => e.token?.isNone

/-- Once there is a token, later events do not stand before the first one. -/
theorem leadIn_append_of_tokens {a : List Event} (h : tokensIn a ≠ []) (b : List Event) :
    leadIn (a ++ b) = leadIn a := by
  induction a with
  | nil => exact absurd rfl h
  | cons e a ih =>
    cases e with
    | token t => rfl
    | start id => exact congrArg (Event.start id :: ·) (ih h)
    | stop id => exact congrArg (Event.stop id :: ·) (ih h)

theorem leadIn_append_of_no_tokens {a : List Event} (h : tokensIn a = []) (b : List Event) :
    leadIn (a ++ b) = a ++ leadIn b := by
  induction a with
  | nil => rfl
  | cons e a ih =>
    cases e with
    | token t => cases h
    | start id => exact congrArg (Event.start id :: ·) (ih h)
    | stop id => exact congrArg (Event.stop id :: ·) (ih h)

theorem leadIn_subset (es : List Event) : leadIn es ⊆ es :=
  (List.takeWhile_sublist _).subset

/-- What stands before the first token stood there before, or no token came before it. -/
theorem mem_leadIn_append {e : Event} {a b : List Event} (h : e ∈ leadIn (a ++ b)) :
    e ∈ leadIn a ∨ (tokensIn a = [] ∧ e ∈ leadIn b) := by
  by_cases ha : tokensIn a = []
  · have hself := leadIn_append_of_no_tokens ha []
    rw [List.append_nil] at hself
    rw [leadIn_append_of_no_tokens ha] at h
    rcases List.mem_append.mp h with h | h
    · rw [hself]
      exact Or.inl (List.mem_append_left _ h)
    · exact Or.inr ⟨ha, h⟩
  · rw [leadIn_append_of_tokens ha] at h
    exact Or.inl h

end ScriptAnalysis
