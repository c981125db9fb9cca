import ScriptAnalysis.Proofs.Token.Rules

/-!
# A line end stops every token

Whatever is cut off in front of a line end is cut off alike without the line end and what follows it
(`Scan.cut_append_line`): of all classes only a comment in slashes and stars goes on into the next
line, and such a comment is cut off alike if it is closed before.  So a scan starts anew behind a
line end (`scan_resumes_behind_line`).
-/

namespace ScriptAnalysis

/-- A token of a text with `n` more bytes in front. -/
def Token.shifted (t : Token) (n : Nat) : Token := ⟨t.kind, ⟨t.span.start + n, t.span.stop + n⟩⟩

/-- A lexeme that is no comment without an end. -/
def NoOpenComment (kind : TokenKind) (lexeme : List Char) : Prop :=
  kind = .error → ¬ ['/', '*'] <+: lexeme

instance (kind : TokenKind) (lexeme : List Char) : Decidable (NoOpenComment kind lexeme) :=
  inferInstanceAs (Decidable (kind = .error → ¬ ['/', '*'] <+: lexeme))

namespace Scan

/-- The same cut with more text behind it. -/
def Cut.before (p : Cut) (more : List Char) : Cut := { p with rest := p.rest ++ more }

variable {p : Char → Bool} (c : Char) (cs more : List Char)

/-! ### Each class on its own -/

/-- A run ends in front of a character that does not belong to it. -/
theorem span_append_stop {cs more : List Char} {stop : Char} (hstop : p stop = false) :
    (cs ++ stop :: more).takeWhile p = cs.takeWhile p ∧
      (cs ++ stop :: more).dropWhile p = cs.dropWhile p ++ stop :: more := by
  induction cs with
  | nil => simp [hstop]
  | cons d cs ih =>
    rw [List.cons_append, List.takeWhile_cons, List.takeWhile_cons, List.dropWhile_cons,
      List.dropWhile_cons, ih.1, ih.2]
    split
    · exact ⟨rfl, rfl⟩
    · exact ⟨rfl, rfl⟩

theorem optional_append_stop {cs more : List Char} {stop : Char} (hstop : p stop = false) :
    optional p (cs ++ stop :: more) = ((optional p cs).1, (optional p cs).2 ++ stop :: more) := by
  cases cs with
  | nil => simp [optional, hstop]
  | cons d cs =>
    rw [List.cons_append, optional, optional]
    split
    · rfl
    · rfl

theorem blanks_append_line : blanks (cs ++ '\n' :: more) = (blanks cs).before ('\n' :: more) := by
  obtain ⟨htake, hdrop⟩ := @span_append_stop isBlank cs more '\n' rfl
  rw [blanks, run, htake, hdrop]
  rfl

theorem word_append_line : word c (cs ++ '\n' :: more) = (word c cs).before ('\n' :: more) := by
  obtain ⟨htake, hdrop⟩ := @span_append_stop isWordPart cs more '\n' rfl
  rw [word, htake, hdrop]
  rfl

/-- Without a point and a digit behind them, digits are an integer. -/
theorem number_of_no_fraction {cs : List Char}
    (h : ∀ d after, cs.dropWhile Char.isDigit = '.' :: d :: after → d.isDigit = false) :
    number cs = ⟨.intLiteral,
      cs.takeWhile Char.isDigit ++ (optional (fun c => c == 'l' || c == 'L')
        (cs.dropWhile Char.isDigit)).1,
      (optional (fun c => c == 'l' || c == 'L') (cs.dropWhile Char.isDigit)).2⟩ := by
  unfold number
  split
  · next d after hrest =>
    rw [if_neg (by simp [h d after hrest]), hrest]
    simp [optional]
  · rfl

theorem number_append_line : number (cs ++ '\n' :: more) = (number cs).before ('\n' :: more) := by
  obtain ⟨htake, hdrop⟩ := @span_append_stop Char.isDigit cs more '\n' rfl
  by_cases hfraction : ∃ d after, cs.dropWhile Char.isDigit = '.' :: d :: after ∧ d.isDigit = true
  · obtain ⟨d, after, hrest, hd⟩ := hfraction
    obtain ⟨htake', hdrop'⟩ := @span_append_stop Char.isDigit after more '\n' rfl
    have hsuffix := @optional_append_stop (fun c => c == 'd' || c == 'D')
      (after.dropWhile Char.isDigit) more '\n' rfl
    unfold number
    rw [htake, hdrop, hrest]
    simp only [List.cons_append, hd, if_true, htake', hdrop', hsuffix]
    rfl
  · push Not at hfraction
    have hsuffix := @optional_append_stop (fun c => c == 'l' || c == 'L')
      (cs.dropWhile Char.isDigit) more '\n' rfl
    rw [@number_of_no_fraction cs, number_of_no_fraction, htake, hdrop, hsuffix]
    · rfl
    · intro d after hrest
      rw [hdrop] at hrest
      match cs.dropWhile Char.isDigit, hfraction, hrest with
      | [], _, hrest => cases hrest
      | [_], _, hrest =>
        obtain ⟨rfl, -⟩ := List.cons.inj (List.cons.inj hrest).2
        rfl
      | point :: e :: rest, hfraction, hrest =>
        obtain ⟨rfl, -⟩ := List.cons.inj (List.cons.inj hrest).2
        exact Bool.not_eq_true _ ▸ hfraction e rest (by rw [(List.cons.inj hrest).1])
    · intro d after hrest
      exact Bool.not_eq_true _ ▸ hfraction d after hrest

/-- A backslash stands in front of something, or at the end. -/
theorem ne_backslash {c : Char} {cs : List Char} (hlast : c = '\\' → cs = [] → False)
    (hescape : ∀ e ds, c = '\\' → cs = e :: ds → False) : c ≠ '\\' := by
  intro hc
  cases cs with
  | nil => exact hlast hc rfl
  | cons e ds => exact hescape e ds hc rfl

theorem units_append_line (quote : Char) : units quote (cs ++ '\n' :: more) =
    ((units quote cs).1, (units quote cs).2 ++ '\n' :: more) := by
  fun_induction units quote cs with
  | case1 => simp [units]
  | case2 => simp [units]
  | case3 e cs hline => simp [units, hline]
  | case4 e cs hline unit rest heq ih =>
    rw [heq] at ih
    simp [units, hline, ih]
  | case5 c cs hlast hescape hstop =>
    have hplain := ne_backslash hlast hescape
    rw [List.cons_append, units.eq_4 _ _ _ (fun h => absurd h hplain) fun _ _ h => absurd h hplain,
      if_pos hstop]
  | case6 c cs hlast hescape hstop unit rest heq ih =>
    have hplain := ne_backslash hlast hescape
    rw [heq] at ih
    rw [List.cons_append, units.eq_4 _ _ _ (fun h => absurd h hplain) fun _ _ h => absurd h hplain,
      if_neg hstop, ih]

theorem quoted_append_line {quote : Char} (hquote : isQuote quote = true) :
    quoted quote (cs ++ '\n' :: more) = (quoted quote cs).before ('\n' :: more) := by
  unfold quoted
  rw [units_append_line]
  generalize units quote cs = p
  obtain ⟨body, rest⟩ := p
  cases rest with
  | nil =>
    have hne : ('\n' == quote) = false := by
      rcases isQuote_cases hquote with rfl | rfl <;> rfl
    simp [Cut.before, hne]
  | cons d rest =>
    dsimp only [List.cons_append]
    split
    · rfl
    · rfl

theorem commentBody_before {body rest : List Char} (h : commentBody cs = some (body, rest)) :
    commentBody (cs ++ more) = some (body, rest ++ more) := by
  fun_induction commentBody cs generalizing body rest with
  | case1 => cases h
  | case2 => cases h
  | case3 cs =>
    cases h
    rfl
  | case4 c cs hstar hclose ih =>
    obtain ⟨⟨body, rest⟩, hbody, heq⟩ := Option.map_eq_some_iff.mp h
    cases heq
    rw [List.cons_append, commentBody.eq_4, ih hbody]
    · rfl
    · intro hc hnil
      exact hstar hc (List.append_eq_nil_iff.mp hnil).1
    · intro ds hc hslash
      cases cs with
      | nil => exact hstar hc rfl
      | cons d cs => exact hclose cs hc (by rw [(List.cons.inj hslash).1])

theorem comment_append_line (h : NoOpenComment (comment cs).kind ('/' :: (comment cs).tail)) :
    comment (cs ++ '\n' :: more) = (comment cs).before ('\n' :: more) := by
  unfold comment at h
  split at h
  · next after =>
    obtain ⟨htake, hdrop⟩ := @span_append_stop (· != '\n') after more '\n' rfl
    simp only [List.cons_append, comment, htake, hdrop]
    rfl
  · next after =>
    cases hbody : commentBody after with
    | none =>
      rw [hbody] at h
      exact absurd ⟨after, rfl⟩ (h rfl)
    | some p =>
      simp only [List.cons_append, comment, hbody, commentBody_before after _ hbody]
      rfl
  · next hline hblock =>
    cases cs with
    | nil => rfl
    | cons d cs =>
      have hother (rest : List Char) : comment (d :: rest) = ⟨.slash, [], d :: rest⟩ :=
        comment.eq_3 _ (fun _ heq => hline cs (congrArg (· :: cs) (List.cons.inj heq).1))
          fun _ heq => hblock cs (congrArg (· :: cs) (List.cons.inj heq).1)
      rw [List.cons_append, hother, hother]
      rfl

theorem symbol_append_line :
    symbol c (cs ++ '\n' :: more) = (symbol c cs).before ('\n' :: more) := by
  cases cs with
  | nil =>
    have hnone : pairKind c '\n' = none := by
      unfold pairKind
      split
      all_goals first | rfl | next h => cases h
    simp [symbol, hnone, Cut.before]
  | cons d after =>
    rw [List.cons_append, symbol, symbol]
    cases pairKind c d with
    | none => rfl
    | some kind => rfl

theorem cut_append_line (h : NoOpenComment (cut c cs).kind (c :: (cut c cs).tail)) :
    cut c (cs ++ '\n' :: more) = (cut c cs).before ('\n' :: more) := by
  unfold cut at h ⊢
  split
  · exact blanks_append_line cs more
  next hblank =>
  split
  · rfl
  next hline =>
  split
  · exact word_append_line c cs more
  next hword =>
  split
  · exact number_append_line cs more
  next hdigit =>
  split
  · next hquote => exact quoted_append_line cs more hquote
  next hquote =>
  split
  · next hslash =>
    rw [if_neg hblank, if_neg hline, if_neg hword, if_neg hdigit, if_neg hquote, if_pos hslash,
      beq_iff_eq.mp hslash] at h
    exact comment_append_line cs more h
  · exact symbol_append_line c cs more

/-! ### All tokens -/

theorem tokensFrom_ne_nil (offset : Nat) : tokensFrom offset cs ≠ [] := by
  cases cs with
  | nil => simp [tokensFrom]
  | cons c cs => simp [tokensFrom]

/-- By induction along the cuts: up to the line end the tokens are those of the text in front of it,
    and the end of that text gives way to the line end. -/
theorem tokensFrom_append_line (offset : Nat)
    (h : ∀ l ∈ lexemes cs, NoOpenComment l.1 l.2.toList) : tokensFrom offset (cs ++ '\n' :: more) =
      (tokensFrom offset cs).dropLast ++ tokensFrom (offset + width cs) ('\n' :: more) := by
  generalize hn : cs.length = n
  induction n using Nat.strong_induction_on generalizing offset cs with
  | h n ih =>
    cases cs with
    | nil => simp [tokensFrom, width]
    | cons c cs =>
      rw [lexemes] at h
      have hcut : cut c (cs ++ '\n' :: more) = (cut c cs).before ('\n' :: more) := by
        have hclosed := h _ List.mem_cons_self
        rw [String.toList_ofList] at hclosed
        exact cut_append_line c cs more hclosed
      have hlt : (cut c cs).rest.length < n := by
        have hle := cut_rest_length c cs
        rw [List.length_cons] at hn
        omega
      have hsplit : (cut c cs).tail ++ (cut c cs).rest = cs := cut_splits c cs
      have hwidth : offset + width (c :: (cut c cs).tail) + width (cut c cs).rest =
          offset + width (c :: cs) := by
        conv_rhs => rw [← hsplit]
        simp only [width, width_append]
        omega
      rw [List.cons_append, tokensFrom, hcut, tokensFrom,
        List.dropLast_cons_of_ne_nil (tokensFrom_ne_nil _ _), List.cons_append, ← hwidth,
        ← ih _ hlt _ _ (fun l hl => h l (List.mem_cons_of_mem _ hl)) rfl]
      rfl

/-- Where the characters start matters to the spans alone. -/
theorem tokensFrom_add (offset n : Nat) :
    tokensFrom (offset + n) cs = (tokensFrom offset cs).map (·.shifted n) := by
  induction offset, cs using tokensFrom.induct with
  | case1 offset => simp [tokensFrom, Token.shifted, Span.point]
  | case2 offset c cs p stop ih =>
    have hstop : offset + n + width (c :: p.tail) = stop + n := Nat.add_right_comm ..
    rw [tokensFrom, tokensFrom, List.map_cons, hstop, ih]
    rfl

end Scan

/-- Behind a line end a scan starts anew, unless a comment is still open there. -/
theorem scan_resumes_behind_line (front back : String)
    (hclosed : ∀ t ∈ scan front, NoOpenComment t.kind (t.textIn front).toList) :
    ∃ tokens, scan front = tokens ++ [⟨.eof, .point front.utf8ByteSize⟩] ∧
      scan (front ++ "\n" ++ back) =
        tokens ++ [⟨.newline, ⟨front.utf8ByteSize, front.utf8ByteSize + 1⟩⟩] ++
          (scan back).map (·.shifted (front.utf8ByteSize + 1)) := by
  obtain ⟨tokens, heq, -, -⟩ := scan_eq front
  refine ⟨tokens, heq, ?_⟩
  have hlexemes : ∀ l ∈ Scan.lexemes front.toList, NoOpenComment l.1 l.2.toList := by
    intro l hl
    rw [← scan_spelled] at hl
    obtain ⟨t, ht, rfl⟩ := List.mem_map.mp hl
    exact hclosed t ht
  have htext : (front ++ "\n" ++ back).toList = front.toList ++ '\n' :: back.toList := by
    simp
  have hline := Scan.tokensFrom_append_line front.toList back.toList 0 hlexemes
  rw [← htext, ← scan, ← scan, Nat.zero_add, Scan.width_toList, heq, List.dropLast_concat] at hline
  have hnewline (offset : Nat) (cs : List Char) : Scan.tokensFrom offset ('\n' :: cs) =
      ⟨.newline, ⟨offset, offset + 1⟩⟩ :: Scan.tokensFrom (offset + 1) cs := by
    rw [Scan.tokensFrom]
    rfl
  have hback : Scan.tokensFrom (front.utf8ByteSize + 1) back.toList =
      (scan back).map (·.shifted (front.utf8ByteSize + 1)) := by
    rw [scan, ← Scan.tokensFrom_add, Nat.zero_add]
  rw [hline, hnewline, hback, List.append_assoc]
  rfl

/-- The string is broken off at the backslash in front of the line end, and no comment starts in
    it. -/
theorem broken_string_ends_at_line :
    (∀ t ∈ scan "'/*\\", NoOpenComment t.kind (t.textIn "'/*\\").toList) ∧
    ∃ tokens, scan "'/*\\" = tokens ++ [⟨.eof, .point "'/*\\".utf8ByteSize⟩] ∧
      scan ("'/*\\" ++ "\n" ++ "é'") =
        tokens ++ [⟨.newline, ⟨"'/*\\".utf8ByteSize, "'/*\\".utf8ByteSize + 1⟩⟩] ++
          (scan "é'").map (·.shifted ("'/*\\".utf8ByteSize + 1)) := by
  have hclosed : ∀ t ∈ scan "'/*\\", NoOpenComment t.kind (t.textIn "'/*\\").toList := by
    decide +kernel
  exact ⟨hclosed, scan_resumes_behind_line "'/*\\" "é'" hclosed⟩

end ScriptAnalysis
