import ScriptAnalysis.Ast.Basic

/-!
# Which values a declared type takes

Numbers widen, from `int` over `long` to `double` and `Decimal`, and never narrow.  Classes are
not compared with each other.
-/

namespace ScriptAnalysis.TypeRef

/-- The width of a number type. -/
def rank : TypeRef → Nat
  | int => 0
  | long => 1
  | _ => 2

/-- Whether a value of type `source` may initialise a declaration of type `target`. -/
def isAssignable (source target : TypeRef) : Bool :=
  match source, target with
  | any, _ => true
  | _, any => true
  | named _, named _ => true
  | source, target =>
    if source.isNumeric && target.isNumeric then decide (source.rank ≤ target.rank)
    else source == target

end ScriptAnalysis.TypeRef
