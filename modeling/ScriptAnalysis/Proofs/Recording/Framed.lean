import ScriptAnalysis.Proofs.Recording.Offsets

/-!
# Recordings whose nodes start with a token

A construct that is missing in the text may be recorded as a node without tokens.  Such a node never
comes first in the node around it: a grammar only goes on to a part that may be missing after it has
consumed a token.

`Framed mk led p` says this of the events `p`, together with what is known of every marker among
them: it has noted where the first token after its start stands.  With `led` there are tokens in
front of `p`, and `p` itself may begin with a node without tokens.
-/

namespace ScriptAnalysis

inductive Framed (mk : MarkerId → Marker) : Bool → List Event → Prop
  | nil {led : Bool} : Framed mk led []
  /-- A token is recorded together with the trivia before it. -/
  | tokens {led : Bool} {blank : List Token} {t : Token} : (∀ b ∈ blank, b.isTrivia = true) →
      t.isTrivia = false → Framed mk led ((blank ++ [t]).map .token)
  | append {led led' : Bool} {p q : List Event} : Framed mk led p → Framed mk led' q →
      (led' = true → led = true ∨ tokensIn p ≠ []) → Framed mk led (p ++ q)
  | wrap {led : Bool} {p : List Event} {m : MarkerId} : Framed mk false p →
      ((mk m).state = .done → led = true ∨ tokensIn p ≠ []) → (mk m).offset = firstOffset p →
      Framed mk led (.start m :: p ++ [.stop m])

namespace Framed

variable {mk mk' : MarkerId → Marker} {led led' : Bool} {p q : List Event} {m : MarkerId}

/-- Only the markers among the events matter. -/
theorem congr (h : Framed mk led p) (hmk : ∀ id, .start id ∈ p → mk' id = mk id) :
    Framed mk' led p := by
  induction h with
  | nil => exact .nil
  | tokens hblank ht => exact .tokens hblank ht
  | append _ _ hlead ihp ihq =>
    exact .append (ihp fun id hid => hmk id (by simp [hid]))
      (ihq fun id hid => hmk id (by simp [hid])) hlead
  | @wrap led p m _ hdone hoffset ih =>
    have hm : mk' m = mk m := hmk m (by simp)
    refine .wrap (ih fun id hid => hmk id (by simp [hid])) ?_ ?_
    · rw [hm]
      exact hdone
    · rw [hm]
      exact hoffset

/-- Framed events are in brackets. -/
theorem balanced (h : Framed mk led p) : Balanced p := by
  induction h with
  | nil => exact .nil
  | tokens _ _ => exact .tokens _
  | append _ _ _ ihp ihq => exact ihp.append ihq
  | wrap _ _ _ ih => exact ih.wrap _

end Framed

end ScriptAnalysis
