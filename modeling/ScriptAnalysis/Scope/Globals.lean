import Std.Data.TreeMap.Basic

/-!
# Globals

Names that the application around a script gives it, each with the name of its type.
-/

namespace ScriptAnalysis

structure Globals where
  types : Std.TreeMap String String := ∅

/-- Globals that cannot be had: their script, and what is wrong with it. -/
structure GlobalsFault where
  path : String
  reason : String
deriving DecidableEq, Repr

def GlobalsFault.message (fault : GlobalsFault) : String :=
  s!"Error in globals script '{fault.path}': {fault.reason}"

namespace Globals

def empty : Globals := {}

/-- Adds a global.  One of the same name is replaced. -/
def insert (globals : Globals) (name type : String) : Globals := ⟨globals.types.insert name type⟩

/-- The globals of a list.  Of two with one name the last one counts. -/
def ofList (entries : List (String × String)) : Globals :=
  entries.foldl (fun globals (name, type) => globals.insert name type) empty

def contains (globals : Globals) (name : String) : Bool := globals.types.contains name

def type? (globals : Globals) (name : String) : Option String := globals.types[name]?

def names (globals : Globals) : List String := globals.types.keys

def size (globals : Globals) : Nat := globals.types.size

def isEmpty (globals : Globals) : Bool := globals.types.isEmpty

instance : BEq Globals := ⟨fun a b => a.types.toList == b.types.toList⟩

end Globals

end ScriptAnalysis
