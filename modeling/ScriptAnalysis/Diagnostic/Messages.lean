/-!
# Messages already reported

Recovery from a fault tends to report it more than once.  A `MessageSet` remembers what was
said during one parse, so that each text is said once.
-/

namespace ScriptAnalysis

/-- A set of messages, none of them twice. -/
structure MessageSet where
  messages : List String := []
  nodup : messages.Nodup := by simp

namespace MessageSet

def empty : MessageSet := {}

def contains (set : MessageSet) (message : String) : Bool := set.messages.contains message

def size (set : MessageSet) : Nat := set.messages.length

def isEmpty (set : MessageSet) : Bool := set.messages.isEmpty

/-- Remembers a message; fails if it was said before. -/
def insert? (set : MessageSet) (message : String) : Option MessageSet :=
  if h : message ∈ set.messages then none
  else some ⟨message :: set.messages, List.nodup_cons.2 ⟨h, set.nodup⟩⟩

/-- Forgets a message, so that it may be said again. -/
def erase (set : MessageSet) (message : String) : MessageSet :=
  ⟨set.messages.erase message, set.nodup.erase message⟩

theorem insert?_eq_none_iff {set : MessageSet} {message : String} :
    set.insert? message = none ↔ message ∈ set.messages := by
  simp [insert?]

theorem mem_erase {set : MessageSet} {a b : String} :
    a ∈ (set.erase b).messages ↔ a ≠ b ∧ a ∈ set.messages :=
  set.nodup.mem_erase_iff

end MessageSet

end ScriptAnalysis
