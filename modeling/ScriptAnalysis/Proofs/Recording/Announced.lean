import ScriptAnalysis.Proofs.Recording.Recorded
import ScriptAnalysis.Recording.Draft

/-!
# Where variables are announced

A variable is declared where a type or a name stands, or in a list of parameters, right behind the
parenthesis or the comma before it.  So there is a token between any two variables that are declared
in front of the same token, or one of them holds that token.

`Announces mk history p ahead` says this of the variables among the events `p`, which follow the
events `history` and are followed by the tokens `ahead`.
-/

namespace ScriptAnalysis

variable {mk mk' : MarkerId → Marker} {history history' : List Event} {p q : List Event}
  {ahead : List Token} {m : MarkerId}

/-- The next token may start the declaration of a variable. -/
def StartsVar (ahead : List Token) : Prop :=
  ∃ t, nthSignificant ahead 0 = some t ∧ (t.kind = .ident ∨ t.kind.isTypeKeyword = true)

/-- The latest event is a token that is no trivia. -/
def BehindToken (history : List Event) : Prop :=
  ∃ t older, history = .token t :: older ∧ t.isTrivia = false

/-- Trivia does not matter to what starts behind it. -/
theorem startsVar_append (h : firstOffset p = none) :
    StartsVar (tokensIn p ++ ahead) ↔ StartsVar ahead := by
  have hskip : nthSignificant (tokensIn p ++ ahead) 0 = nthSignificant ahead 0 := by
    induction p with
    | nil => rfl
    | cons e p ih =>
      unfold firstOffset at ih h
      rw [List.findSome?_cons] at h
      cases e with
      | token t =>
        have htrivia : t.isTrivia = true := by
          by_contra hnot
          simp [Event.significantOffset?, hnot] at h
        rw [tokensIn_token, List.cons_append, nthSignificant, if_pos htrivia]
        exact ih (by simpa [Event.significantOffset?, htrivia] using h)
      | start | stop => exact ih h
  unfold StartsVar
  rw [hskip]

/-- What ends with a marker or trivia does not end with a token that is none. -/
theorem not_behindToken (h : firstOffset q = none) :
    ¬ BehindToken ((p ++ .stop m :: q).reverse ++ history) := by
  rintro ⟨t, older, heq, ht⟩
  have hlatest : (Event.stop m :: q).reverse ++ (p.reverse ++ history) = .token t :: older := by
    rw [← heq]
    simp
  obtain ⟨e, rest, hrest⟩ : ∃ e rest, (Event.stop m :: q).reverse = e :: rest :=
    List.exists_cons_of_ne_nil (by simp)
  rw [hrest, List.cons_append] at hlatest
  obtain ⟨rfl, -⟩ := List.cons.inj hlatest
  have hmem : Event.token t ∈ (Event.stop m :: q).reverse := hrest ▸ List.mem_cons_self ..
  have hq : Event.token t ∈ q := by simpa using hmem
  unfold firstOffset at h
  have hnone := List.findSome?_eq_none_iff.mp h _ hq
  simp [Event.significantOffset?, ht] at hnone

/-- A marker that is opened where a variable may start holds the first token of it, and if it is
    opened elsewhere, then right behind a token. -/
structure Announced (m : Marker) (history : List Event) (ahead : List Token) : Prop where
  held : StartsVar ahead → m.offset ≠ none
  led : StartsVar ahead ∨ BehindToken history

def Announces (mk : MarkerId → Marker) (history p : List Event) (ahead : List Token) : Prop :=
  ∀ before m after, p = before ++ .start m :: after → (mk m).kind = some .varDecl →
    Announced (mk m) (before.reverse ++ history) (tokensIn after ++ ahead)

namespace Announces

theorem of_no_start (h : ∀ m, .start m ∉ p) : Announces mk history p ahead := by
  rintro before m after rfl
  exact absurd (List.mem_append_right _ (List.mem_cons_self ..)) (h m)

theorem tokens (ts : List Token) : Announces mk history (ts.map .token) ahead :=
  of_no_start fun m hm => by simp at hm

theorem congr (h : Announces mk history p ahead) (hmk : ∀ m, .start m ∈ p → mk' m = mk m) :
    Announces mk' history p ahead := by
  intro before m after heq
  rw [hmk m (by rw [heq]; simp)]
  exact h before m after heq

theorem append (hp : Announces mk history p (tokensIn q ++ ahead))
    (hq : Announces mk (p.reverse ++ history) q ahead) :
    Announces mk history (p ++ q) ahead := by
  intro before m after heq hkind
  rcases List.append_eq_append_iff.mp heq with ⟨more, rfl, hq'⟩ | ⟨more, hp', hmore⟩
  · have hm := hq more m after hq' hkind
    rwa [← List.append_assoc, ← List.reverse_append] at hm
  · cases more with
    | nil =>
      rw [List.append_nil] at hp'
      subst hp'
      exact hq [] m after hmore.symm hkind
    | cons e more =>
      rw [List.cons_append] at hmore
      obtain ⟨rfl, rfl⟩ := List.cons.inj hmore
      have hm := hp before m more hp' hkind
      rwa [← List.append_assoc, ← tokensIn_append] at hm

theorem wrap (hp : Announces mk (.start m :: history) p ahead)
    (hm : (mk m).kind = some .varDecl → Announced (mk m) history (tokensIn p ++ ahead)) :
    Announces mk history (.start m :: p ++ [.stop m]) ahead := by
  have hstop : Announces mk (p.reverse ++ .start m :: history) [.stop m] ahead :=
    of_no_start fun j hj => by simp at hj
  intro before k after heq hkind
  rw [List.cons_append] at heq
  cases before with
  | nil =>
    rw [List.nil_append] at heq
    obtain ⟨hk, rfl⟩ := List.cons.inj heq
    cases hk
    simpa using hm hkind
  | cons e before =>
    obtain ⟨rfl, hrest⟩ := List.cons.inj heq
    have hinside : Announces mk (.start m :: history) p (tokensIn [.stop m] ++ ahead) := hp
    simpa using hinside.append hstop before k after hrest hkind

/-- What stands before a marker of another kind does not matter to what is in it. -/
theorem rebase (h : Announces mk history (.start m :: p) ahead)
    (hm : (mk m).kind ≠ some .varDecl) : Announces mk history' (.start m :: p) ahead := by
  intro before k after heq hkind
  cases before with
  | nil =>
    rw [List.nil_append] at heq
    obtain ⟨hk, -⟩ := List.cons.inj heq
    cases hk
    exact absurd hkind hm
  | cons e before =>
    obtain ⟨hheld, hled⟩ := h (e :: before) k after heq hkind
    refine ⟨hheld, hled.imp_right fun hbehind => ?_⟩
    obtain ⟨t, older, hhistory, ht⟩ := hbehind
    obtain ⟨first, rest, hrest⟩ : ∃ first rest, (e :: before).reverse = first :: rest :=
      List.exists_cons_of_ne_nil (by simp)
    rw [hrest, List.cons_append] at hhistory ⊢
    exact ⟨t, _, by rw [(List.cons.inj hhistory).1], ht⟩

end Announces

end ScriptAnalysis
