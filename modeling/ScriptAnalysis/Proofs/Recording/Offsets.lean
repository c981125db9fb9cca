import ScriptAnalysis.Proofs.Recording.Recorded
import ScriptAnalysis.Proofs.Token.Cover

/-!
# Offsets of events

A node is known by where the first token in it stands that is no trivia.  The offsets of these
tokens ascend in the events of a parse, so nodes that start at one offset are nested, but for those
without any token.
-/

namespace ScriptAnalysis

/-- The offsets of the tokens that are no trivia, in the order of the events. -/
def offsetsIn (events : List Event) : List Nat := events.filterMap Event.significantOffset?

theorem offsetsIn_append (p q : List Event) :
    offsetsIn (p ++ q) = offsetsIn p ++ offsetsIn q := List.filterMap_append

theorem offsetsIn_wrap (m : MarkerId) (p : List Event) :
    offsetsIn (.start m :: p ++ [.stop m]) = offsetsIn p := by
  rw [offsetsIn_append]
  exact List.append_nil _

theorem firstOffset_eq_head? (events : List Event) :
    firstOffset events = (offsetsIn events).head? := List.head?_filterMap.symm

theorem firstOffset_wrap (m : MarkerId) (p : List Event) :
    firstOffset (.start m :: p ++ [.stop m]) = firstOffset p := by
  rw [firstOffset_eq_head?, firstOffset_eq_head?, offsetsIn_wrap]

theorem mem_offsetsIn {events : List Event} {o : Nat} (h : firstOffset events = some o) :
    o ∈ offsetsIn events := by
  rw [firstOffset_eq_head?] at h
  exact List.mem_of_head? h

/-! ### The order of offsets -/

def Ascending (events : List Event) : Prop := (offsetsIn events).Pairwise (· < ·)

namespace Ascending

variable {p q : List Event} {o o' : Nat}

theorem append_iff : Ascending (p ++ q) ↔
    Ascending p ∧ Ascending q ∧ ∀ o ∈ offsetsIn p, ∀ o' ∈ offsetsIn q, o < o' := by
  unfold Ascending
  rw [offsetsIn_append, List.pairwise_append]

theorem lt (h : Ascending (p ++ q)) (ho : o ∈ offsetsIn p) (ho' : o' ∈ offsetsIn q) : o < o' :=
  (append_iff.mp h).2.2 o ho o' ho'

end Ascending

/-- The offset of a token that is no trivia. -/
def Token.significantOffset? (t : Token) : Option Nat := if t.isTrivia then none else some t.offset

theorem offsetsIn_eq (events : List Event) :
    offsetsIn events = (tokensIn events).filterMap Token.significantOffset? := by
  unfold tokensIn offsetsIn
  rw [List.filterMap_filterMap]
  refine List.filterMap_congr fun e _ => ?_
  cases e <;> rfl

/-- The tokens of a text ascend. -/
theorem ascending_of_scan {events : List Event} {text : String} (h : tokensIn events = scan text) :
    Ascending events := by
  unfold Ascending
  rw [offsetsIn_eq, h]
  refine (scan_ascending text).filterMap _ fun t u hlt o ho o' ho' => ?_
  unfold Token.significantOffset? at ho ho'
  split at ho
  · cases ho
  · split at ho'
    · cases ho'
    · cases ho
      cases ho'
      exact hlt

end ScriptAnalysis
