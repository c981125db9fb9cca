import ScriptAnalysis.Grammar.Declaration
import ScriptAnalysis.Proofs.Recording.Growth
import ScriptAnalysis.Proofs.Token.Cover
import ScriptAnalysis.Proofs.Token.Spelling

/-!
# What a production can see of the tokens ahead

A production looks at the tokens ahead only through `significant`, the list of those that are no
trivia: the next token is its first one, consuming drops that one, and what a declaration declares
is told by the kinds alone (`declarationShape?_eq`).  No token stands twice in a text, so the number
of significant tokens ahead tells where in the text a production is.
-/

namespace ScriptAnalysis

/-- The tokens that are no trivia. -/
def significant (ts : List Token) : List Token := ts.filter fun t => !t.isTrivia

/-- The kinds and the texts of the tokens of a text that are no trivia. -/
def words (text : String) : List (TokenKind × String) :=
  (significant (scan text)).map fun t => (t.kind, t.textIn text)

@[simp] theorem significant_nil : significant [] = [] := rfl

theorem significant_cons_trivia {t : Token} (h : t.isTrivia = true) (ts : List Token) :
    significant (t :: ts) = significant ts := by
  simp [significant, h]

theorem significant_cons {t : Token} (h : t.isTrivia = false) (ts : List Token) :
    significant (t :: ts) = t :: significant ts := by
  simp [significant, h]

theorem nthSignificant_eq (ts : List Token) (n : Nat) :
    nthSignificant ts n = (significant ts)[n]? := by
  induction ts generalizing n with
  | nil => rfl
  | cons t ts ih =>
    unfold nthSignificant
    by_cases ht : t.isTrivia = true
    · rw [if_pos ht, ih, significant_cons_trivia ht]
    · have ht : t.isTrivia = false := by simpa using ht
      rw [if_neg (by simp [ht]), significant_cons ht]
      cases n with
      | zero => rfl
      | succ n => simpa using ih n

theorem significant_consume (ts : List Token) (history : List Event) :
    significant (consume ts history).1 = (significant ts).tail := by
  induction ts generalizing history with
  | nil => rfl
  | cons t ts ih =>
    unfold consume
    by_cases ht : t.isTrivia = true
    · rw [if_pos ht, ih, significant_cons_trivia ht]
    · have ht : t.isTrivia = false := by simpa using ht
      rw [if_neg (by simp [ht]), significant_cons ht, List.tail_cons]

theorem consume_suffix (ts : List Token) (history : List Event) :
    (consume ts history).1 <:+ ts := by
  rcases consume_cases ts history with ⟨blank, t, rest, rfl, -, -, -, heq⟩ | ⟨-, -, heq⟩
  · rw [heq]
    exact ⟨blank ++ [t], by simp⟩
  · rw [heq]
    exact List.nil_suffix

namespace Draft

theorem significant_advance (d : Draft) :
    significant d.advance.ahead = (significant d.ahead).tail := significant_consume _ _

theorem advance_suffix (d : Draft) : d.advance.ahead <:+ d.ahead := consume_suffix _ _

end Draft

/-! ### Declarations -/

/-- What is left of some kinds after the dots and names that continue a path. -/
def pathRest : List TokenKind → List TokenKind
  | .dot :: .ident :: kinds => pathRest kinds
  | kinds => kinds

/-- What is left of some kinds after a type. -/
def typeRest? : List TokenKind → Option (List TokenKind)
  | [] => none
  | kind :: kinds =>
    if kind.isTypeKeyword then some kinds
    else if kind = .ident then some (pathRest kinds)
    else none

/-- What some kinds start to declare. -/
def shapeOf? (kinds : List TokenKind) : Option DeclarationShape :=
  (typeRest? kinds).bind fun rest =>
    if rest[0]? = some .ident then
      if rest[1]? = some .leftParen then some .function else some .variable
    else none

/-- By induction on the tokens; the two functions skip trivia alike. -/
theorem kinds_afterName (ts : List Token) :
    (significant (afterName ts)).map Token.kind = pathRest ((significant ts).map Token.kind) ∧
      (afterDot? ts).map (fun rest => (significant rest).map Token.kind) =
        match (significant ts).map Token.kind with
        | .ident :: kinds => some (pathRest kinds)
        | _ => none := by
  induction ts with
  | nil => exact ⟨rfl, rfl⟩
  | cons t ts ih =>
    rw [afterName, afterDot?]
    by_cases ht : t.isTrivia = true
    · rw [if_pos ht, if_pos ht, significant_cons_trivia ht]
      exact ih
    · rw [if_neg ht, if_neg ht]
      have ht : t.isTrivia = false := by simpa using ht
      rw [significant_cons ht, List.map_cons]
      constructor
      · by_cases hdot : t.kind = .dot
        · rw [if_pos hdot, hdot]
          cases hafter : afterDot? ts with
          | none =>
            have hnone := ih.2
            rw [hafter] at hnone
            rw [Option.getD_none, significant_cons ht, List.map_cons, hdot]
            split at hnone
            · cases hnone
            · next hident =>
              cases hkinds : (significant ts).map Token.kind with
              | nil => rfl
              | cons kind kinds =>
                by_cases hk : kind = .ident
                · exact absurd (hk ▸ hkinds) (hident kinds)
                · rw [pathRest]
                  intro rest heq
                  exact hk (List.cons.inj (List.cons.inj heq).2).1
          | some rest =>
            have hsome := ih.2
            rw [hafter] at hsome
            split at hsome
            · next kinds hkinds =>
              rw [hkinds, pathRest, Option.getD_some]
              exact Option.some.inj hsome
            · cases hsome
        · rw [if_neg hdot, significant_cons ht, List.map_cons, pathRest]
          intro kinds heq
          exact hdot (List.cons.inj heq).1
      · by_cases hident : t.kind = .ident
        · rw [if_pos hident, hident]
          exact congrArg some ih.1
        · rw [if_neg hident]
          split
          · next heq => exact absurd (List.cons.inj heq).1 hident
          · rfl

theorem kinds_afterType? (ts : List Token) :
    (afterType? ts).map (fun rest => (significant rest).map Token.kind) =
      typeRest? ((significant ts).map Token.kind) := by
  induction ts with
  | nil => rfl
  | cons t ts ih =>
    unfold afterType?
    by_cases ht : t.isTrivia = true
    · rw [if_pos ht, significant_cons_trivia ht]
      exact ih
    · rw [if_neg ht]
      have ht : t.isTrivia = false := by simpa using ht
      rw [significant_cons ht, List.map_cons, typeRest?]
      split
      · rfl
      · split
        · exact congrArg some (kinds_afterName ts).1
        · rfl

/-- What is declared ahead is told by the kinds of the significant tokens. -/
theorem declarationShape?_eq (ts : List Token) :
    declarationShape? ts = shapeOf? ((significant ts).map Token.kind) := by
  unfold declarationShape? shapeOf?
  rw [← kinds_afterType?, Option.bind_map]
  congr 1
  funext rest
  simp only [Function.comp_apply, nthSignificant_eq, List.getElem?_map]

theorem pathRest_of_continues {kinds : List TokenKind} (hdot : kinds[0]? = some .dot)
    (hident : kinds[1]? = some .ident) : pathRest kinds = pathRest kinds.tail.tail := by
  match kinds with
  | kind :: next :: kinds =>
    obtain rfl : kind = .dot := Option.some.inj hdot
    obtain rfl : next = .ident := Option.some.inj hident
    rw [pathRest, List.tail_cons, List.tail_cons]

theorem pathRest_of_ends {kinds : List TokenKind}
    (h : ¬ (kinds[0]? = some .dot ∧ kinds[1]? = some .ident)) : pathRest kinds = kinds := by
  rw [pathRest]
  rintro rest rfl
  exact h ⟨rfl, rfl⟩

/-! ### The kinds ahead of a draft -/

namespace Draft

variable {d : Draft} {kind : TokenKind} {n : Nat}

/-- The kinds of the tokens ahead that are no trivia. -/
def kindsAhead (d : Draft) : List TokenKind := (significant d.ahead).map Token.kind

theorem kindsAhead_advance (d : Draft) : d.advance.kindsAhead = d.kindsAhead.tail := by
  unfold kindsAhead
  rw [significant_advance, List.map_tail]

theorem lookahead_kind (d : Draft) (n : Nat) :
    (d.lookahead n).kind = (d.kindsAhead[n]?).getD .eof := by
  unfold lookahead kindsAhead
  rw [nthSignificant_eq, List.getElem?_map]
  cases (significant d.ahead)[n]? <;> rfl

/-- Only past the last token is an end of the text seen that is not there. -/
theorem getElem?_kindsAhead (hkind : kind ≠ .eof) :
    d.kindsAhead[n]? = some kind ↔ (d.lookahead n).kind = kind := by
  rw [lookahead_kind]
  cases d.kindsAhead[n]? with
  | none => simpa using hkind.symm
  | some found => simp

/-- What is left ahead of a type is told by its first token. -/
theorem typeRest?_kindsAhead (d : Draft) : typeRest? d.kindsAhead =
    if d.current.kind.isTypeKeyword then some d.kindsAhead.tail
    else if d.current.kind = .ident then some (pathRest d.kindsAhead.tail)
    else none := by
  have hcur : d.current.kind = (d.kindsAhead[0]?).getD .eof := lookahead_kind d 0
  rw [hcur]
  cases d.kindsAhead with
  | nil => rfl
  | cons kind kinds => rfl

/-- A name stands behind the type of what is declared ahead. -/
theorem typeRest?_of_shape {shape : DeclarationShape}
    (h : declarationShape? d.ahead = some shape) :
    ∃ rest, typeRest? d.kindsAhead = some rest ∧ rest[0]? = some .ident := by
  rw [declarationShape?_eq] at h
  obtain ⟨rest, hrest, hshape⟩ := Option.bind_eq_some_iff.mp h
  refine ⟨rest, hrest, ?_⟩
  by_contra hident
  rw [if_neg hident] at hshape
  cases hshape

end Draft

/-! ### Places in a text -/

/-- No token stands twice in a text. -/
theorem scan_nodup (text : String) : (scan text).Nodup :=
  (scan_ascending text).imp fun hlt heq => Nat.ne_of_lt hlt (congrArg Token.offset heq)

theorem significant_nodup (text : String) : (significant (scan text)).Nodup :=
  (scan_nodup text).filter _

/-- The last of the significant tokens is the end of the text. -/
theorem significant_getLast? (text : String) :
    (significant (scan text)).getLast? = some ⟨.eof, .point text.utf8ByteSize⟩ := by
  obtain ⟨body, heq, -, -⟩ := scan_eq text
  unfold significant
  rw [heq, List.filter_append]
  exact List.getLast?_concat

end ScriptAnalysis
