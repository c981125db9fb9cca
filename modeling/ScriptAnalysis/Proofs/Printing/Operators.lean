import Mathlib.Data.List.GetD
import ScriptAnalysis.Proofs.Grammar.ScriptNodes
import ScriptAnalysis.Proofs.Printing.Rereading

/-!
# Reading printed operators

An operand is read without looking at what follows it, and the loop of its level then takes the
operators behind it.  An expression whose operator is of that level is read by the loop, one turn
after its left operand (`binaries_lead`); any other one is read by the next tighter level, where it
has parentheses exactly if it has them here.

So the induction is on the expression, and within it on the levels, from the tightest to the
loosest.
-/

namespace ScriptAnalysis

open ParseState Production

variable {r : Rules} {s : ParseState} {rest : List Word} {w : Word}

theorem operand_rereads (hr : r.RereadAll) (e : Expr) :
    Rereads r.source r.operand (e.within 7 e.words) 7 e := by
  have hother (hlevel : e.level ≠ 7) : Rereads r.source r.operand (e.within 7 e.words) 7 e := by
    intro s rest h hrest
    rw [Expr.within_succ hlevel] at h
    obtain ⟨w, ws, heq, -, hunary⟩ := Expr.within_start 8 e.words_start
    have hkind : s.draft.current.kind = w.1 := by
      rw [heq] at h
      exact h.kind
    unfold Rules.operand
    refine ensures_bind.mpr (ensures_kind.mpr ?_)
    rw [hkind, hunary (Nat.le_refl 8)]
    exact suffixed_rereads hr e s rest h hrest
  cases e with
  | unary op operand =>
    intro s rest h hrest
    rw [Expr.within_of_le (Nat.le_refl 7), Expr.words_unary] at h
    have hkind : s.draft.current.kind = op.kind := h.kind
    have hop : unaryOp? op.kind = some op := by cases op <;> rfl
    unfold Rules.operand
    refine ensures_bind.mpr (ensures_kind.mpr ?_)
    rw [hkind, hop]
    refine ensures_bind.mpr ((openMarker_reaches h).mono fun m s₁ h₁ => ?_)
    refine ensures_bind.mpr (ensures_here.mpr (ensures_bind.mpr ?_))
    refine (advance_reaches h₁.toFacing).mono fun _ s₂ h₂ => ensures_bind.mpr ?_
    refine (hr.unary operand s₂ rest h₂.toFacing hrest).mono fun inner s₃ h₃ => ensures_bind.mpr ?_
    refine (finish_reaches h₃.1.toFacing m _ _).mono fun n s₄ h₄ => ensures_pure.mpr ?_
    exact ⟨h₁.trans (h₂.trans (h₃.1.trans h₄.1)), inner.node, h₄.2, h₃.2.extends h₄.1.grown⟩
  | binary op left right => exact hother (Nat.ne_of_lt (Nat.lt_succ_of_le op.level_le))
  | _ => exact hother (by simp [Expr.level])

/-! ### The levels -/

/-- The operators of a level are those that bind as tightly as it says. -/
theorem lookup_level {i : Nat} {kind : TokenKind} {op : BinaryOp}
    (h : (binaryLevels.getD i []).lookup kind = some op) : op.kind = kind ∧ op.level = i + 1 := by
  by_cases hi : i < 6
  · obtain ⟨before, after, heq, -⟩ := List.lookup_eq_some_iff.mp h
    have hmem : (kind, op) ∈ binaryLevels.getD i [] := by rw [heq]; simp
    have hall : ∀ i < 6, ∀ p ∈ binaryLevels.getD i [], p.2.kind = p.1 ∧ p.2.level = i + 1 := by
      decide
    exact hall i hi _ hmem
  · have hnone : binaryLevels.getD i [] = [] := List.getD_eq_default _ _ (Nat.le_of_not_lt hi)
    rw [hnone] at h
    cases h

theorem lookup_kind (op : BinaryOp) :
    (binaryLevels.getD (op.level - 1) []).lookup op.kind = some op := by
  cases op <;> rfl

theorem BinaryOp.kind_injective {a b : BinaryOp} (h : a.kind = b.kind) : a = b := by
  cases a <;> cases b <;> cases h <;> rfl

/-- An operator does not go on with an operand that binds more tightly. -/
theorem BinaryOp.not_goesOn (op : BinaryOp) {level : Nat} (h : op.level < level) :
    ¬ GoesOn level op.kind := by
  rintro (hk | hk | hk | ⟨op', hk, hlevel⟩)
  · cases op <;> cases hk
  · cases op <;> cases hk
  · cases op <;> cases hk
  · obtain rfl := BinaryOp.kind_injective hk
    omega

/-- What follows an operand: an operator of this level, and the operand on its right. -/
def Rules.binaryStep (r : Rules) (start i : Nat) (left : Parsed) :
    Production (Parsed ⊕ Parsed) := do
  match (binaryLevels.getD i []).lookup (← kind) with
  | none => return .inr left
  | some op =>
    let m ← openBefore left.marker
    advance
    let right ← r.binary (binaryLevels.drop (i + 1))
    return .inl ⟨m, ← finish m start (.binary op left.node right.node)⟩

theorem Rules.binary_eq (r : Rules) {i : Nat} (hi : i < 6) :
    r.binary (binaryLevels.drop i) = (do
      let start ← here
      r.binary (binaryLevels.drop (i + 1)) >>= repeatFrom (r.binaryStep start i)) := by
  have hlt : i < binaryLevels.length := hi
  have hget : binaryLevels.getD i [] = binaryLevels[i] := List.getD_eq_getElem _ _ hlt
  rw [List.drop_eq_getElem_cons hlt, ← hget]
  rfl

/-- The operators of a level and all tighter ones are read. -/
def RereadsLevel (r : Rules) (i : Nat) (e : Expr) : Prop :=
  Rereads r.source (r.binary (binaryLevels.drop i)) (e.within (i + 1) e.words) (i + 1) e

/-- The expression is read, and the loop of a level goes on behind it. -/
def LeadsLevel (r : Rules) (i : Nat) (e : Expr) : Prop :=
  ∀ start s rest, s.Facing r.source (e.within (i + 1) e.words ++ rest) → Stops (i + 2) rest →
    LeadsOn r.source (r.binary (binaryLevels.drop (i + 1))) (r.binaryStep start i) s rest e

variable {start i : Nat} {read : Parsed} {s' : ParseState} {e : Expr}

/-- An operator and the operand on its right make a larger expression of what was read. -/
theorem binaryStep_turns {op : BinaryOp} {left right : Expr} (hi : op.level = i + 1)
    (hright : RereadsLevel r (i + 1) right) (hrest : Stops (i + 2) rest)
    (h : Read r.source s (mark op.kind :: (right.within (i + 2) right.words ++ rest))
      left read s') :
    (r.binaryStep start i read).Ensures s' fun turned s'' =>
      ∃ next, turned = .inl next ∧ Read r.source s rest (.binary op left right) next s'' := by
  unfold Rules.binaryStep
  refine ensures_bind.mpr (ensures_kind.mpr ?_)
  have hkind : s'.draft.current.kind = op.kind := h.1.toFacing.kind
  have hlookup : (binaryLevels.getD i []).lookup op.kind = some op := by
    have hop := lookup_kind op
    rwa [hi] at hop
  rw [hkind, hlookup]
  refine ensures_bind.mpr ((openBefore_reaches h.1.toFacing _).mono fun m s₁ h₁ => ?_)
  refine ensures_bind.mpr ((advance_reaches h₁.toFacing).mono fun _ s₂ h₂ => ensures_bind.mpr ?_)
  refine (hright s₂ rest h₂.toFacing hrest).mono fun inner s₃ h₃ => ensures_bind.mpr ?_
  refine (finish_reaches h₃.1.toFacing m _ _).mono fun n s₄ h₄ => ensures_pure.mpr ?_
  have hgrown := h₁.trans (h₂.trans (h₃.1.trans h₄.1))
  exact ⟨_, rfl, h.1.trans hgrown, read.node, inner.node, h₄.2, h.2.extends hgrown.grown,
    h₃.2.extends h₄.1.grown⟩

theorem binaryStep_stops (r : Rules) (start : Nat) (read : Parsed)
    (h : s.Facing r.source rest) (hrest : Stops (i + 1) rest) :
    (r.binaryStep start i read).Ensures s fun turned s' => turned = .inr read ∧ s' = s := by
  obtain ⟨w, more, rfl, hw⟩ := hrest
  unfold Rules.binaryStep
  refine ensures_bind.mpr (ensures_kind.mpr ?_)
  split
  · exact ensures_pure.mpr ⟨rfl, rfl⟩
  · next op hlookup =>
    obtain ⟨hkind, hlevel⟩ := lookup_level hlookup
    rw [h.kind] at hkind
    exact absurd (.inr (.inr (.inr ⟨op, hkind, hlevel.ge⟩))) hw

theorem RereadsLevel.of_lead (hi : i < 6) (h : LeadsLevel r i e) : RereadsLevel r i e := by
  intro s rest hs hrest
  rw [r.binary_eq hi]
  refine ensures_bind.mpr (ensures_here.mpr ?_)
  refine (h _ s rest hs (hrest.mono (Nat.le_succ _))).stop fun read s' hread => ?_
  exact binaryStep_stops r _ read hread.1.toFacing hrest

/-- What is not of this level the next tighter level reads. -/
theorem LeadsLevel.of_tighter (hlevel : e.level ≠ i + 1) (h : RereadsLevel r (i + 1) e) :
    LeadsLevel r i e := by
  intro start s rest hs hrest
  rw [Expr.within_succ hlevel] at hs
  exact .of_read (h s rest hs hrest)

/-- An operator of this level is taken by the loop behind the operand on its left. -/
theorem LeadsLevel.binary {op : BinaryOp} {left right : Expr} (hi : op.level = i + 1)
    (hleft : LeadsLevel r i left) (hright : RereadsLevel r (i + 1) right) :
    LeadsLevel r i (.binary op left right) := by
  intro start s rest hs hrest
  rw [Expr.within_of_le hi.ge, Expr.words_binary, hi, List.append_assoc] at hs
  have hop : Stops (i + 2) (mark op.kind :: (right.within (i + 2) right.words ++ rest)) := by
    exact ⟨_, _, rfl, op.not_goesOn (by omega)⟩
  exact (hleft start s _ hs hop).turn fun read s' hread => binaryStep_turns hi hright hrest hread

/-- If the loop of its own level goes on behind the expression, every level reads it and goes on
    behind it: by induction from the tightest level to the loosest. -/
theorem levels_reread (hr : r.RereadAll)
    (hown : ∀ i < 6, e.level = i + 1 → LeadsLevel r i e) {n : Nat} (hn : i + n = 6) :
    RereadsLevel r i e ∧ (i < 6 → LeadsLevel r i e) := by
  induction n generalizing i with
  | zero =>
    obtain rfl : i = 6 := hn
    exact ⟨operand_rereads hr e, fun hi => absurd hi (Nat.lt_irrefl 6)⟩
  | succ n ih =>
    have hi : i < 6 := by omega
    obtain ⟨htighter, -⟩ : RereadsLevel r (i + 1) e ∧ _ := ih (by omega)
    have hlead : LeadsLevel r i e := by
      by_cases hlevel : e.level = i + 1
      · exact hown i hi hlevel
      · exact .of_tighter hlevel htighter
    exact ⟨.of_lead hi hlead, fun _ => hlead⟩

theorem binaries_lead (hr : r.RereadAll) (e : Expr) (i : Nat) (hi : i < 6)
    (hlevel : e.level = i + 1) : LeadsLevel r i e := by
  induction e using Expr.operand_induction generalizing i with
  | binary op left right ihleft ihright =>
    obtain ⟨-, hleft⟩ := levels_reread hr ihleft (Nat.add_sub_cancel' (Nat.le_of_lt hi))
    obtain ⟨hright, -⟩ := levels_reread hr ihright (Nat.add_sub_cancel' hi)
    exact .binary hlevel (hleft hi) hright
  | _ =>
    -- No other expression has the level of a binary operator.
    simp only [Expr.level] at hlevel
    omega

theorem binary_rereads (hr : r.RereadAll) (e : Expr) :
    Rereads r.source (r.binary binaryLevels) (e.within 1 e.words) 1 e :=
  (levels_reread hr (binaries_lead hr e) (Nat.zero_add 6)).1

/-! ### Whole expressions -/

/-- Only where an assignment starts one is seen. -/
theorem kinds_of_not_assigns {v w : Word} {ws : List Word} (h : s.Facing r.source (v :: w :: ws))
    (hws : ¬ Expr.Assigns (v :: w :: ws)) :
    (s.draft.at? .ident && (s.draft.lookahead 1).kind == .equal) = false := by
  have hv : s.draft.current.kind = v.1 := h.kind
  have hw : (s.draft.lookahead 1).kind = w.1 :=
    Draft.kind_lookahead h.ahead (by simp : 1 < (v :: w :: ws).length)
  unfold Draft.at?
  rw [hv, hw, Bool.and_eq_false_iff, beq_eq_false_iff_ne, beq_eq_false_iff_ne]
  by_contra hboth
  rw [not_or, not_not, not_not] at hboth
  exact hws ⟨v, w, ws, rfl, hboth⟩

theorem expression_rereads (hr : r.RereadAll) (e : Expr) :
    Rereads r.source r.expression e.words 0 e := by
  rintro s rest h ⟨w, more, rfl, hw⟩
  have hother (hlevel : 1 ≤ e.level) : r.expression.Ensures s (Read r.source s (w :: more) e) := by
    have hassigns : ¬ Expr.Assigns (e.words ++ w :: more) :=
      e.not_assigns_words hlevel (fun hk => hw (.inr (.inr (.inl hk)))) more
    have htest : (s.draft.at? .ident && (s.draft.lookahead 1).kind == .equal) =
        false := by
      obtain ⟨v, vs, heq, -⟩ := e.words_start
      rw [heq] at h hassigns
      cases vs with
      | nil => exact kinds_of_not_assigns h hassigns
      | cons u vs => exact kinds_of_not_assigns h hassigns
    unfold Rules.expression
    refine ensures_bind.mpr (ensures_at?.mpr (ensures_bind.mpr (ensures_kindAfter.mpr ?_)))
    rw [htest, if_neg Bool.false_ne_true]
    refine binary_rereads hr e s _ ?_ (Stops.mono ⟨w, more, rfl, hw⟩ (Nat.zero_le 1))
    rw [Expr.within_of_le hlevel]
    exact h
  cases e with
  | assign name value =>
    have hequal : (s.draft.lookahead 1).kind = .equal :=
      Draft.kind_lookahead h.ahead
        (by simp [Expr.words, Expr.wordsFor] : 1 < ((Expr.assign name value).words ++ _).length)
    unfold Rules.expression
    refine ensures_bind.mpr ((at?_hit h rfl).mono ?_)
    rintro found s' ⟨rfl, rfl⟩
    refine ensures_bind.mpr (ensures_kindAfter.mpr ?_)
    rw [hequal, Bool.true_and, if_pos (beq_self_eq_true _)]
    refine ensures_bind.mpr ((openMarker_reaches h).mono fun m s₁ h₁ => ?_)
    have htext : r.text s₁.draft.current = name.text := h₁.toFacing.text
    refine ensures_bind.mpr (ensures_current.mpr (ensures_bind.mpr ?_))
    refine (advance_reaches h₁.toFacing).mono fun _ s₂ h₂ => ensures_bind.mpr ?_
    refine (advance_reaches h₂.toFacing).mono fun _ s₃ h₃ => ensures_bind.mpr ?_
    refine (hr.expr value s₃ _ h₃.toFacing ⟨w, more, rfl, hw⟩).mono fun read s₄ h₄ => ?_
    refine ensures_bind.mpr ((finish_reaches h₄.1.toFacing m _ _).mono fun n s₅ h₅ => ?_)
    refine ensures_pure.mpr ⟨h₁.trans (h₂.trans (h₃.trans (h₄.1.trans h₅.1))), read.node, ?_,
      h₄.2.extends h₅.1.grown⟩
    rw [h₅.2, htext]
  | binary op left right => exact hother op.level_pos
  | _ => exact hother (by simp [Expr.level])

/-- The productions read what is printed, however deep it is nested. -/
theorem Rules.upTo_rereadAll (source : String) (package : Option String) (depth : Nat) :
    (Rules.upTo source package depth).RereadAll := by
  induction depth with
  | zero => exact ⟨fun _ _ _ _ _ => ensures_throw, fun _ _ _ _ _ => ensures_throw⟩
  | succ depth ih =>
    have hexpr := expression_rereads ih
    have hunary := operand_rereads ih
    rw [Rules.upTo_source] at hexpr hunary
    exact ⟨hexpr, hunary⟩

end ScriptAnalysis
