import ScriptAnalysis.Ast.Kind

/-!
# Keys of nodes

A key `(file, kind, offset)` names a node by where it starts instead of by an id, so that it
stays the same over two parses of one text.  Keys are ordered by offset, then by the text of
the kind, then by file; indexes list their keys in this order.
-/

namespace ScriptAnalysis

/-- The identity of a source file; it tells nothing else about the file. -/
abbrev FileId := Nat

/-- The key of a node: its file, its kind and the offset of its first token that is no
    trivia. -/
structure AstKey where
  file : FileId
  kind : NodeKind
  offset : Nat
deriving DecidableEq, Repr, Inhabited

namespace AstKey

def render (key : AstKey) : String := s!"AstKey[{key.file}:{key.kind.text}:{key.offset}]"

def order : AstKey → AstKey → Ordering :=
  compareLex (compareOn AstKey.offset)
    (compareLex (compareOn fun key => key.kind.text) (compareOn AstKey.file))

instance : Ord AstKey := ⟨order⟩

instance : Std.TransOrd AstKey := inferInstanceAs (Std.TransCmp
  (compareLex (compareOn AstKey.offset)
    (compareLex (compareOn fun key => key.kind.text) (compareOn AstKey.file))))

/-- Keys that no part tells apart are equal. -/
instance : Std.LawfulEqOrd AstKey where
  eq_of_compare {a b} h := by
    have parts : (compareOn AstKey.offset a b).then
        ((compareOn (fun key : AstKey => key.kind.text) a b).then
          (compareOn AstKey.file a b)) = .eq := h
    simp only [Ordering.then_eq_eq, compareOn, Std.compare_eq_iff_eq] at parts
    obtain ⟨offset, kind, file⟩ := parts
    obtain ⟨_, _, _⟩ := a
    obtain ⟨_, _, _⟩ := b
    cases NodeKind.text_injective kind
    cases offset
    cases file
    rfl

end AstKey

end ScriptAnalysis
