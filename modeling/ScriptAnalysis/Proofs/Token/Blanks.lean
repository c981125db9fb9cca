import Mathlib.Data.List.Induction
import Mathlib.Data.List.SplitBy
import ScriptAnalysis.Proofs.Token.Cover

/-!
# Blanks that are joined

The leaves of a tree are the tokens of a text, except that blanks and line ends that stand side by
side are one leaf.  `joinBlanks` says so of a whole list of tokens.  A tree is built one token at a
time, and `joinBlanks_concat` says what one token more does.
-/

namespace ScriptAnalysis

/-- One token in place of a run of tokens.  It is a blank if there is more than one. -/
def joinRun : List Token → Option Token
  | [] => none
  | [t] => some t
  | t :: ts => some ⟨.whitespace, ts.foldl (fun span u => span.cover u.span) t.span⟩

/-- The tokens, with one in place of each run of blanks and line ends. -/
def joinBlanks (tokens : List Token) : List Token :=
  (tokens.splitBy fun t u => t.kind.isBlank && u.kind.isBlank).filterMap joinRun

example : joinBlanks [⟨.whitespace, ⟨0, 1⟩⟩, ⟨.newline, ⟨1, 2⟩⟩, ⟨.ident, ⟨2, 3⟩⟩,
  ⟨.newline, ⟨3, 4⟩⟩]
    = [⟨.whitespace, ⟨0, 2⟩⟩, ⟨.ident, ⟨2, 3⟩⟩, ⟨.newline, ⟨3, 4⟩⟩] := by decide

/-- An element that is related to the last one joins its run. -/
theorem splitBy_concat {α : Type} {r : α → α → Bool} {l : List α} {u a : α}
    (hu : u ∈ l.getLast?) (hr : r u a = true) :
    ∃ runs run, u ∈ run.getLast? ∧ l.splitBy r = runs ++ [run] ∧
      (l ++ [a]).splitBy r = runs ++ [run ++ [a]] := by
  have hne : l ≠ [] := by
    rintro rfl
    cases hu
  obtain ⟨runs, run, heq⟩ : ∃ runs run, l.splitBy r = runs ++ [run] :=
    ⟨_, _, (List.dropLast_append_getLast (List.splitBy_ne_nil.mpr hne)).symm⟩
  obtain ⟨hflat, hnil, hchain, hbreaks⟩ := List.splitBy_eq_iff.mp heq
  have hrun : run ≠ [] := by
    rintro rfl
    exact hnil (by simp)
  have hlast : u ∈ run.getLast? := by
    rw [hflat, List.flatten_append, List.flatten_singleton,
      List.getLast?_append_of_ne_nil _ hrun] at hu
    exact hu
  refine ⟨runs, run, hlast, heq, List.splitBy_eq_iff.mpr ⟨?_, ?_, ?_, ?_⟩⟩
  · rw [hflat]
    simp
  · simpa using fun h => hnil (List.mem_append_left _ h)
  · intro m hm
    rcases List.mem_append.mp hm with hm | hm
    · exact hchain m (List.mem_append_left _ hm)
    · rw [List.mem_singleton.mp hm]
      refine List.isChain_append.mpr ⟨hchain run (by simp), List.isChain_singleton a, ?_⟩
      intro x hx y hy
      cases hy
      cases hlast.symm.trans hx
      exact hr
  · obtain ⟨hruns, -, hbreak⟩ := List.isChain_append.mp hbreaks
    refine List.isChain_append.mpr ⟨hruns, List.isChain_singleton _, ?_⟩
    intro x hx y hy
    cases hy
    obtain ⟨hx', _, hfalse⟩ := hbreak x hx run rfl
    refine ⟨hx', by simp, ?_⟩
    rw [List.head_append_of_ne_nil hrun]
    exact hfalse

/-- One more blank at the end of a run. -/
theorem joinRun_concat {run : List Token} (hrun : run ≠ []) (t : Token) :
    ∃ x, joinRun run = some x ∧ joinRun (run ++ [t]) = some ⟨.whitespace, x.span.cover t.span⟩ ∧
      (x.kind = .whitespace ∨ run = [x]) := by
  cases run with
  | nil => exact absurd rfl hrun
  | cons u us =>
    cases us with
    | nil => exact ⟨u, rfl, rfl, Or.inr rfl⟩
    | cons v us =>
      refine ⟨_, rfl, ?_, Or.inl rfl⟩
      simp [joinRun]

/-- One more token either is joined to the last one, where both are blanks, or stands by itself. -/
theorem joinBlanks_concat (tokens : List Token) (t : Token) :
    (∃ before x, joinBlanks tokens = before ++ [x] ∧ x.kind.isBlank = true ∧
      t.kind.isBlank = true ∧
      joinBlanks (tokens ++ [t]) = before ++ [⟨.whitespace, x.span.cover t.span⟩]) ∨
    ((∀ u ∈ tokens.getLast?, (u.kind.isBlank && t.kind.isBlank) = false) ∧
      joinBlanks (tokens ++ [t]) = joinBlanks tokens ++ [t]) := by
  by_cases hlast : ∀ u ∈ tokens.getLast?, (u.kind.isBlank && t.kind.isBlank) = false
  · refine Or.inr ⟨hlast, ?_⟩
    unfold joinBlanks
    rw [List.splitBy_append_cons [] hlast, List.filterMap_append]
    rfl
  · refine Or.inl ?_
    push Not at hlast
    obtain ⟨u, hu, hblank⟩ := hlast
    have hblank := Bool.and_eq_true_iff.mp (Bool.ne_false_iff.mp hblank)
    obtain ⟨runs, run, hrun, heq, heq'⟩ := splitBy_concat (a := t)
      (r := fun t u => t.kind.isBlank && u.kind.isBlank) hu (by simp [hblank])
    have hne : run ≠ [] := by
      rintro rfl
      cases hrun
    obtain ⟨x, hx, hx', hkind⟩ := joinRun_concat hne t
    refine ⟨runs.filterMap joinRun, x, ?_, ?_, hblank.2, ?_⟩
    · unfold joinBlanks
      rw [heq, List.filterMap_append]
      simp [hx]
    · rcases hkind with hkind | rfl
      · rw [hkind]
        rfl
      · cases hrun
        exact hblank.1
    · unfold joinBlanks
      rw [heq', List.filterMap_append]
      simp [hx']

/-- The last token is a blank before the blanks are joined if and only if it is one afterwards. -/
theorem getLast?_joinBlanks (tokens : List Token) :
    (joinBlanks tokens).getLast?.map (·.kind.isBlank) = tokens.getLast?.map (·.kind.isBlank) := by
  rcases List.eq_nil_or_concat tokens with rfl | ⟨init, t, rfl⟩
  · rfl
  · rw [List.concat_eq_append]
    rcases joinBlanks_concat init t with ⟨before, x, -, -, ht, heq⟩ | ⟨-, heq⟩
    · rw [heq, List.getLast?_concat, List.getLast?_concat, Option.map_some, Option.map_some, ht]
      rfl
    · rw [heq, List.getLast?_concat, List.getLast?_concat]

namespace Tiles

variable {a b : Nat} {ts : List Token}

theorem joinBlanks (h : Tiles a ts b) : Tiles a (joinBlanks ts) b := by
  induction ts using List.reverseRecOn generalizing b with
  | nil => exact h
  | append_singleton ts t ih =>
    obtain ⟨e, hts, ht⟩ := append_iff.mp h
    have hjoined := ih hts
    obtain ⟨hstart, hle, hnil⟩ := cons_iff.mp ht
    have hstop := nil_iff.mp hnil
    rcases joinBlanks_concat ts t with ⟨before, x, hts', -, -, heq⟩ | ⟨-, heq⟩
    · rw [heq]
      rw [hts'] at hjoined
      obtain ⟨d, hbefore, hx⟩ := append_iff.mp hjoined
      obtain ⟨hxstart, hxle, hxnil⟩ := cons_iff.mp hx
      have hxstop := nil_iff.mp hxnil
      have hcover : x.span.cover t.span = ⟨d, b⟩ := by
        unfold Span.cover
        rw [Nat.min_eq_left (by omega), Nat.max_eq_right (by omega), hxstart, hstop]
      refine append_iff.mpr ⟨d, hbefore, cons_iff.mpr ?_⟩
      dsimp only
      rw [hcover]
      exact ⟨rfl, by dsimp only; omega, .nil b⟩
    · rw [heq]
      exact append_iff.mpr ⟨e, hjoined, ht⟩

end Tiles

/-- A joined token starts where one of the tokens does. -/
theorem exists_of_mem_joinBlanks {tokens : List Token} {x : Token} (hx : x ∈ joinBlanks tokens) :
    ∃ t ∈ tokens, t.span.start = x.span.start := by
  induction tokens using List.reverseRecOn generalizing x with
  | nil => cases hx
  | append_singleton ts t ih =>
    have hold : ∀ {y : Token}, y ∈ joinBlanks ts →
        ∃ u ∈ ts ++ [t], u.span.start = y.span.start := by
      intro y hy
      obtain ⟨u, hu, hstart⟩ := ih hy
      exact ⟨u, List.mem_append_left _ hu, hstart⟩
    rcases joinBlanks_concat ts t with ⟨before, y, hts, -, -, heq⟩ | ⟨-, heq⟩
    · rw [heq] at hx
      rw [hts] at hold
      rcases List.mem_append.mp hx with hx | hx
      · exact hold (List.mem_append_left _ hx)
      · rw [List.mem_singleton.mp hx]
        rcases Nat.le_total y.span.start t.span.start with hle | hle
        · obtain ⟨u, hu, hstart⟩ := hold (y := y) (by simp)
          exact ⟨u, hu, hstart.trans (Nat.min_eq_left hle).symm⟩
        · exact ⟨t, by simp, (Nat.min_eq_right hle).symm⟩
    · rw [heq] at hx
      rcases List.mem_append.mp hx with hx | hx
      · exact hold hx
      · rw [List.mem_singleton.mp hx]
        exact ⟨t, by simp, rfl⟩

/-! ### Texts -/

/-- A span cuts out what stands between two parts of a text. -/
theorem Span.textIn_append (before middle after : String) :
    (⟨before.utf8ByteSize, before.utf8ByteSize + middle.utf8ByteSize⟩ : Span).textIn
      (before ++ middle ++ after) = middle := by
  have hbytes : ((before ++ middle ++ after).toByteArray.extract before.utf8ByteSize
      (before.utf8ByteSize + middle.utf8ByteSize)) = middle.toByteArray := by
    rw [String.toByteArray_append, String.toByteArray_append, ByteArray.append_assoc]
    have hshift := ByteArray.extract_append_size_add (a := before.toByteArray)
      (b := middle.toByteArray ++ after.toByteArray) (i := 0) (j := middle.toByteArray.size)
    rw [ByteArray.extract_append_eq_left rfl, Nat.add_zero] at hshift
    exact hshift
  have hdecode : String.fromUTF8? middle.toByteArray = some middle := by
    unfold String.fromUTF8?
    rw [dif_pos middle.isValidUTF8]
    rfl
  unfold Span.textIn
  dsimp only
  rw [if_pos, hbytes, hdecode]
  · rfl
  · rw [String.utf8ByteSize_append, String.utf8ByteSize_append]
    exact ⟨Nat.le_add_right _ _, Nat.le_add_right _ _⟩

/-- Of two cuts of a text the earlier one also cuts what is before the later one. -/
theorem exists_eq_append_of_le {before after before' after' : String}
    (h : before ++ after = before' ++ after') (hle : before.utf8ByteSize ≤ before'.utf8ByteSize) :
    ∃ middle, before' = before ++ middle ∧ after = middle ++ after' := by
  have hlist : before.toList ++ after.toList = before'.toList ++ after'.toList := by
    rw [← String.toList_append, ← String.toList_append, h]
  rcases List.append_eq_append_iff.mp hlist with ⟨cs, hb, ha⟩ | ⟨cs, hb, ha⟩
  · refine ⟨String.ofList cs, ?_, ?_⟩
    · rw [← String.toList_inj, String.toList_append, String.toList_ofList, hb]
    · rw [← String.toList_inj, String.toList_append, String.toList_ofList, ha]
  · have hb' : before = before' ++ String.ofList cs := by
      rw [← String.toList_inj, String.toList_append, String.toList_ofList, hb]
    have hempty : String.ofList cs = "" := by
      rw [hb', String.utf8ByteSize_append] at hle
      refine String.utf8ByteSize_eq_zero_iff.mp ?_
      omega
    rw [hempty, String.append_empty] at hb'
    subst hb'
    refine ⟨"", by simp, ?_⟩
    rw [String.append_right_inj] at h
    rw [h, String.empty_append]

/-- The offset does not cut through a character of the text. -/
def Boundary (text : String) (offset : Nat) : Prop :=
  ∃ before after, text = before ++ after ∧ before.utf8ByteSize = offset

/-- Tokens side by side that cut through no character cut the whole text into pieces.  The proof
    goes along the tokens; `after` is what is still to be cut. -/
theorem Tiles.join_textIn {text before after : String} {tokens : List Token}
    (h : Tiles before.utf8ByteSize tokens text.utf8ByteSize) (htext : text = before ++ after)
    (hcuts : ∀ t ∈ tokens, Boundary text t.span.start) :
    String.join (tokens.map fun t => t.span.textIn text) = after := by
  induction tokens generalizing before after with
  | nil =>
    have hsize := Tiles.nil_iff.mp h
    rw [htext, String.utf8ByteSize_append] at hsize
    have hafter : after = "" := String.utf8ByteSize_eq_zero_iff.mp (by omega)
    rw [hafter]
    rfl
  | cons t ts ih =>
    obtain ⟨hstart, hle, hts⟩ := Tiles.cons_iff.mp h
    -- The next cut is the start of the next token, or the end of the text.
    obtain ⟨before', after', htext', hstop⟩ : Boundary text t.span.stop := by
      cases ts with
      | nil =>
        refine ⟨text, "", by simp, (Tiles.nil_iff.mp hts).symm⟩
      | cons u us =>
        rw [← (Tiles.cons_iff.mp hts).1]
        exact hcuts u (by simp)
    obtain ⟨middle, hbefore', hafter⟩ := exists_eq_append_of_le
      (htext.symm.trans htext') (by omega)
    have hsize : before'.utf8ByteSize = before.utf8ByteSize + middle.utf8ByteSize := by
      rw [hbefore', String.utf8ByteSize_append]
    have hspan : t.span = ⟨before.utf8ByteSize, before.utf8ByteSize + middle.utf8ByteSize⟩ := by
      rw [← hsize, hstop, ← hstart]
    have hrest : String.join (ts.map fun t => t.span.textIn text) = after' := by
      refine ih ?_ htext' fun u hu => hcuts u (List.mem_cons_of_mem _ hu)
      rw [hstop]
      exact hts
    have hpiece : t.span.textIn text = middle := by
      rw [hspan, htext, hafter, ← String.append_assoc]
      exact Span.textIn_append before middle after'
    rw [List.map_cons, String.join_cons, hrest, hpiece, hafter]

end ScriptAnalysis
