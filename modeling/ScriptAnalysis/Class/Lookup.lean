import ScriptAnalysis.Class.Summary

/-!
# Asking for the classes of other files

A `ClassLookup` answers for the classes outside the file at hand.  Answering may have an effect
on its owner, such as counting as a use of a cached file.  The effect never changes an answer, so
it is kept apart: a `Consulted` value carries the questions that were asked for it, in order.
-/

namespace ScriptAnalysis

/-- The classes outside a file. -/
structure ClassLookup where
  named : String → Option ClassSummary
  inPackage : String → List ClassSummary
  /-- At least as many as there are full names with an answer. -/
  limit : Nat

def ClassLookup.none : ClassLookup := ⟨fun _ => .none, fun _ => [], 0⟩

/-- The classes of a list.  Of two with one full name the first answers. -/
def ClassLookup.ofList (classes : List ClassSummary) : ClassLookup where
  named fullName := classes.find? (·.fullName == fullName)
  inPackage package := classes.filter fun c => c.package == some package && c.enclosing.isNone
  limit := classes.length

inductive ClassQuery where
  | named (fullName : String)
  | inPackage (package : String)
deriving DecidableEq, Repr

/-- A value, and the questions asked for it. -/
structure Consulted (α : Type) where
  value : α
  asked : List ClassQuery := []

namespace Consulted

instance : Monad Consulted where
  pure a := ⟨a, []⟩
  bind x f := ⟨(f x.value).value, x.asked ++ (f x.value).asked⟩

variable {α β : Type}

@[simp] theorem value_pure (a : α) : (pure a : Consulted α).value = a := rfl

@[simp] theorem value_bind (x : Consulted α) (f : α → Consulted β) :
    (x >>= f).value = (f x.value).value := rfl

@[simp] theorem asked_pure (a : α) : (pure a : Consulted α).asked = [] := rfl

@[simp] theorem asked_bind (x : Consulted α) (f : α → Consulted β) :
    (x >>= f).asked = x.asked ++ (f x.value).asked := rfl

end Consulted

def ClassLookup.ask (classes : ClassLookup) (fullName : String) :
    Consulted (Option ClassSummary) := ⟨classes.named fullName, [.named fullName]⟩

def ClassLookup.askPackage (classes : ClassLookup) (package : String) :
    Consulted (List ClassSummary) := ⟨classes.inPackage package, [.inPackage package]⟩

end ScriptAnalysis
