import ScriptAnalysis.Proofs.Token.Rules

/-!
# The longest match

A scan cuts off the longest prefix that any rule admits (`LongestMatch`), or an error where there is
none or a comment is never closed (`Unmatched`).  Each class of first characters is compared with
the rules of that class alone.
-/

namespace ScriptAnalysis

/-- Of all prefixes of the text that a rule admits the lexeme is the longest one, and it has the
    kind of a name only if it is no keyword. -/
structure LongestMatch (kind : TokenKind) (lexeme rest : List Char) : Prop where
  admitted : TokenRule kind lexeme
  longest : ∀ {other : TokenKind} {chars : List Char}, TokenRule other chars →
    chars <+: lexeme ++ rest → chars.length ≤ lexeme.length
  preferred : ∀ {other : TokenKind}, TokenRule other lexeme → other = kind ∨ other = .ident

/-- Characters that are cut off as an error: a comment that is never closed, a string that is broken
    off, and a character that no rule starts with. -/
inductive Unmatched : List Char → List Char → Prop
  | comment {cs : List Char} : ¬ ['*', '/'] <:+: cs → Unmatched ('/' :: '*' :: cs) []
  | string {quote : Char} {body rest : List Char} :
      Scan.isQuote quote = true → Units quote body → Broken rest → Unmatched (quote :: body) rest
  | other {c : Char} {rest : List Char} :
      Scan.isQuote c = false →
      (∀ {kind : TokenKind} {chars : List Char}, TokenRule kind chars → ¬ chars <+: c :: rest) →
        Unmatched [c] rest

/-! ### What is cut off -/

/-- It is enough to compare what stands behind the first character. -/
theorem LongestMatch.of_tail {kind : TokenKind} {c : Char} {tail rest : List Char}
    (hadmitted : TokenRule kind (c :: tail))
    (hlongest : ∀ {other : TokenKind} {chars : List Char}, TokenRule.Tail other c chars →
      chars <+: tail ++ rest → chars.length ≤ tail.length)
    (hpreferred : ∀ {other : TokenKind}, TokenRule.Tail other c tail →
      other = kind ∨ other = .ident) :
    LongestMatch kind (c :: tail) rest := by
  refine ⟨hadmitted, fun {other chars} hrule hpre => ?_, fun hrule => hpreferred hrule.tail⟩
  cases chars with
  | nil => exact Nat.zero_le _
  | cons d chars =>
    obtain ⟨rfl, hchars⟩ := List.cons_prefix_cons.mp hpre
    exact Nat.succ_le_succ (hlongest hrule.tail hchars)

/-- What a scan cuts off behind a character is the longest match, or an error where there is
    none. -/
def Scan.Cut.Right (c : Char) (p : Cut) : Prop :=
  (p.kind ≠ .error ∧ LongestMatch p.kind (c :: p.tail) p.rest) ∨
    (p.kind = .error ∧ Unmatched (c :: p.tail) p.rest)

namespace Scan

variable {c : Char}

theorem blanks_right (hblank : isBlank c = true) (cs : List Char) : (blanks cs).Right c := by
  refine .inl ⟨TokenKind.noConfusion, .of_tail (.whitespace ?_) ?_ ?_⟩
  · rintro d (_ | ⟨_, hd⟩)
    · exact hblank
    · exact mem_takeWhile d hd
  · intro other chars htail hpre
    rw [TokenRule.Tail, if_pos hblank] at htail
    rw [show (blanks cs).tail ++ (blanks cs).rest = cs from run_splits ..] at hpre
    exact length_le_takeWhile hpre htail.2
  · intro other htail
    rw [TokenRule.Tail, if_pos hblank] at htail
    exact .inl htail.1

theorem newline_right (cs : List Char) : Cut.Right '\n' ⟨.newline, [], cs⟩ := by
  refine .inl ⟨TokenKind.noConfusion, .of_tail .newline ?_ ?_⟩
  · rintro other chars ⟨-, rfl⟩ -
    exact Nat.le_refl 0
  · rintro other ⟨rfl, -⟩
    exact .inl rfl

/-- A word that is no name is spelled as its keyword. -/
theorem ofWord_spelling {word : String} (h : TokenKind.ofWord word ≠ .ident) :
    (TokenKind.ofWord word).spelling = some word ∧ TokenKind.ofWord word ≠ .error := by
  unfold TokenKind.ofWord at h ⊢
  cases hfind : TokenKind.keywords.find? fun kind => kind.spelling == some word with
  | none =>
    rw [hfind] at h
    exact absurd rfl h
  | some kind =>
    have hspelled : kind.spelling = some word := by simpa using List.find?_some hfind
    refine ⟨hspelled, ?_⟩
    rintro herror
    rw [Option.getD_some] at herror
    rw [herror] at hspelled
    cases hspelled

theorem word_right (hstart : isWordStart c = true) (cs : List Char) : (word c cs).Right c := by
  obtain ⟨hblank, hline⟩ := isWordStart_class hstart
  have hclass {other : TokenKind} {chars : List Char} (h : TokenRule.Tail other c chars) :
      (other = .ident ∨ other = .ofWord (String.ofList (c :: chars))) ∧
        ∀ d ∈ chars, isWordPart d = true := by
    rwa [TokenRule.Tail, hblank, hline, if_neg Bool.false_ne_true, if_neg Bool.false_ne_true,
      if_pos hstart] at h
  refine .inl ⟨?_, .of_tail ?_ ?_ ?_⟩
  · intro herror
    have hne : (word c cs).kind ≠ .ident := by
      rw [herror]
      decide
    exact (ofWord_spelling hne).2 herror
  · by_cases hname : (word c cs).kind = .ident
    · rw [hname]
      exact .ident hstart mem_takeWhile
    · exact .spelled (ofWord_spelling hname).1
  · intro other chars htail hpre
    rw [show (word c cs).tail ++ (word c cs).rest = cs from word_splits ..] at hpre
    exact length_le_takeWhile hpre (hclass htail).2
  · intro other htail
    exact (hclass htail).1.symm

theorem number_right (hdigit : c.isDigit = true) (cs : List Char) : (number cs).Right c := by
  obtain ⟨hblank, hline, hword⟩ := isDigit_class hdigit
  have hclass {other : TokenKind} {chars : List Char} (h : TokenRule.Tail other c chars) :
      ∃ ds, (∀ d ∈ ds, d.isDigit = true) ∧
        ((other = .intLiteral ∧ ∃ suffix ∈ [[], ['l'], ['L']], chars = ds ++ suffix) ∨
         (other = .decimalLiteral ∧ ∃ e es, (∀ d ∈ e :: es, d.isDigit = true) ∧
            ∃ suffix ∈ [[], ['d'], ['D']], chars = ds ++ '.' :: e :: (es ++ suffix))) := by
    rwa [TokenRule.Tail, hblank, hline, hword, if_neg Bool.false_ne_true,
      if_neg Bool.false_ne_true, if_neg Bool.false_ne_true, if_pos hdigit] at h
  have hwhole : ∀ d ∈ c :: cs.takeWhile Char.isDigit, d.isDigit = true := by
    rintro d (_ | ⟨_, hd⟩)
    · exact hdigit
    · exact mem_takeWhile d hd
  have hsplits : (number cs).tail ++ (number cs).rest = cs := number_splits cs
  rcases number_cases cs with ⟨e, after, hdrop, he, hkind, htail⟩ | ⟨hpoint, hkind, htail⟩
  · refine .inl ⟨by rw [hkind]; exact TokenKind.noConfusion, .of_tail ?_ ?_ ?_⟩
    · rw [hkind, htail]
      refine .decimal hwhole ?_ (optional_mem 'd' 'D' _)
      rintro d (_ | ⟨_, hd⟩)
      · exact he
      · exact mem_takeWhile d hd
    · intro other chars hother hpre
      rw [hsplits] at hpre
      rw [htail]
      obtain ⟨ds, hds, ⟨-, suffix, hsuffix, rfl⟩ | ⟨-, e', es, hes, suffix, hsuffix, rfl⟩⟩ :=
        hclass hother
      · have hle := digits_longest (by decide) (by decide) hds hsuffix hpre
        rw [hdrop] at hle
        refine hle.trans ?_
        simp [optional]
      · obtain ⟨hwhole', hpre⟩ := digits_point hds hpre
        rw [hdrop] at hpre
        obtain ⟨rfl, hafter⟩ := List.cons_prefix_cons.mp (List.cons_prefix_cons.mp hpre).2
        have hle := digits_longest (by decide) (by decide)
          (fun d hd => hes d (List.mem_cons_of_mem _ hd)) hsuffix hafter
        rw [hwhole', List.length_append, List.length_append]
        exact Nat.add_le_add_left (Nat.succ_le_succ (Nat.succ_le_succ hle)) _
    · intro other hother
      obtain ⟨ds, hds, ⟨-, suffix, hsuffix, heq⟩ | ⟨rfl, -⟩⟩ := hclass hother
      · exact absurd (by rw [← heq, htail]; simp) (point_notMem hds hsuffix)
      · exact .inl hkind.symm
  · have hint {other : TokenKind} {chars : List Char} (hother : TokenRule.Tail other c chars)
        (hpre : chars <+: cs) : other = .intLiteral ∧
          ∃ ds suffix, (∀ d ∈ ds, d.isDigit = true) ∧ suffix ∈ [[], ['l'], ['L']] ∧
            chars = ds ++ suffix := by
      obtain ⟨ds, hds, ⟨rfl, suffix, hsuffix, rfl⟩ | ⟨-, e, es, hes, suffix, hsuffix, rfl⟩⟩ :=
        hclass hother
      · exact ⟨rfl, ds, suffix, hds, hsuffix, rfl⟩
      · have hfalse := hpoint _ _ (digits_point hds hpre).2
        rw [hes e List.mem_cons_self] at hfalse
        cases hfalse
    refine .inl ⟨by rw [hkind]; exact TokenKind.noConfusion, .of_tail ?_ ?_ ?_⟩
    · rw [hkind, htail]
      exact .int hwhole (optional_mem 'l' 'L' _)
    · intro other chars hother hpre
      rw [hsplits] at hpre
      obtain ⟨-, ds, suffix, hds, hsuffix, rfl⟩ := hint hother hpre
      rw [htail]
      exact digits_longest (by decide) (by decide) hds hsuffix hpre
    · intro other hother
      rw [(hint hother ⟨_, hsplits⟩).1, hkind]
      exact .inl rfl

theorem quoted_right (hquote : isQuote c = true) (cs : List Char) : (quoted c cs).Right c := by
  have hclass {other : TokenKind} {chars : List Char} (h : TokenRule.Tail other c chars) :
      other = .stringLiteral ∧ ∃ body, Units c body ∧ chars = body ++ [c] := by
    rcases isQuote_cases hquote with rfl | rfl <;> exact h
  obtain ⟨body, hbody, ⟨rest, rfl, heq⟩ | ⟨rest, rfl, hbroken, heq⟩⟩ := quoted_cases hquote cs
  · rw [heq]
    refine .inl ⟨TokenKind.noConfusion, .of_tail (.string hquote hbody) ?_ ?_⟩
    · rintro other chars hother ⟨more, hmore⟩
      obtain ⟨-, body', hbody', rfl⟩ := hclass hother
      have hsame := units_append_of hquote hbody' (.inr ⟨more, rfl⟩)
      rw [show body' ++ c :: more = body ++ c :: rest by simpa using hmore,
        units_append_of hquote hbody (.inr ⟨rest, rfl⟩)] at hsame
      rw [(Prod.mk.inj hsame).1]
    · intro other hother
      exact .inl (hclass hother).1
  · rw [heq]
    exact .inr ⟨rfl, .string hquote hbody hbroken⟩

theorem comment_right (cs : List Char) : (comment cs).Right '/' := by
  have hclass {other : TokenKind} {chars : List Char} (h : TokenRule.Tail other '/' chars) :
      (other = .slash ∧ chars = []) ∨
        (other = .lineComment ∧ ∃ body, '\n' ∉ body ∧ chars = '/' :: body) ∨
        (other = .blockComment ∧ ∃ body, ClosesFirst body ∧ chars = '*' :: (body ++ ['*', '/'])) :=
          h
  unfold comment
  split
  · next after =>
    have hrun {d : Char} (hd : d ∈ after.takeWhile (· != '\n')) : d ≠ '\n' := by
      simpa using mem_takeWhile d hd
    refine .inl ⟨TokenKind.noConfusion, .of_tail (.lineComment fun h => hrun h rfl) ?_ ?_⟩
    · intro other chars hother hpre
      rw [List.cons_append, List.takeWhile_append_dropWhile] at hpre
      rcases hclass hother with ⟨-, rfl⟩ | ⟨-, body, hbody, rfl⟩ | ⟨-, body, -, rfl⟩
      · exact Nat.zero_le _
      · refine Nat.succ_le_succ (length_le_takeWhile (List.cons_prefix_cons.mp hpre).2 ?_)
        intro d hd
        simpa using ne_of_mem_of_not_mem hd hbody
      · cases (List.cons_prefix_cons.mp hpre).1
    · intro other hother
      rcases hclass hother with ⟨-, hnil⟩ | ⟨rfl, -⟩ | ⟨-, body, -, hbody⟩
      · cases hnil
      · exact .inl rfl
      · cases (List.cons.inj hbody).1
  · next after =>
    rcases commentBody_spec after with ⟨hnone, hopen⟩ | ⟨body, rest, hsome, hfirst⟩
    · rw [hnone]
      exact .inr ⟨rfl, .comment hopen⟩
    · rw [hsome]
      refine .inl ⟨TokenKind.noConfusion, .of_tail (.blockComment hfirst) ?_ ?_⟩
      · intro other chars hother hpre
        rcases hclass hother with ⟨-, rfl⟩ | ⟨-, body', -, rfl⟩ | ⟨-, body', hfirst', rfl⟩
        · exact Nat.zero_le _
        · cases (List.cons_prefix_cons.mp hpre).1
        · obtain ⟨more, hmore⟩ := (List.cons_prefix_cons.mp hpre).2
          have hle := length_le_of_closesFirst hfirst' hmore.symm
          simpa using hle
      · intro other hother
        rcases hclass hother with ⟨-, hnil⟩ | ⟨-, body', -, hbody⟩ | ⟨rfl, -⟩
        · cases hnil
        · cases (List.cons.inj hbody).1
        · exact .inl rfl
  · next hline hblock =>
    refine .inl ⟨TokenKind.noConfusion, .of_tail (.spelled rfl) ?_ ?_⟩
    · intro other chars hother hpre
      rcases hclass hother with ⟨-, rfl⟩ | ⟨-, body, -, rfl⟩ | ⟨-, body, -, rfl⟩
      · exact Nat.le_refl 0
      · obtain ⟨more, hmore⟩ := hpre
        exact absurd hmore.symm (hline _)
      · obtain ⟨more, hmore⟩ := hpre
        exact absurd hmore.symm (hblock _)
    · intro other hother
      rcases hclass hother with ⟨rfl, -⟩ | ⟨-, body, -, hbody⟩ | ⟨-, body, -, hbody⟩
      · exact .inl rfl
      · cases hbody
      · cases hbody

/-- Two characters that are one operator are spelled so. -/
theorem pairKind_spelling {c d : Char} {kind : TokenKind} (h : pairKind c d = some kind) :
    kind.spelling = some (String.ofList [c, d]) ∧ kind ≠ .error := by
  unfold pairKind at h
  split at h <;> cases h <;> exact ⟨rfl, TokenKind.noConfusion⟩

theorem singleKind_spelling {c : Char} (h : singleKind c ≠ .error) :
    (singleKind c).spelling = some (String.ofList [c]) := by
  unfold singleKind at h ⊢
  split at h
  all_goals first | exact absurd rfl h | rfl

theorem symbol_right (hblank : isBlank c = false) (hline : (c == '\n') = false)
    (hword : isWordStart c = false) (hdigit : c.isDigit = false) (hquote : isQuote c = false)
    (hslash : (c == '/') = false) (cs : List Char) : (symbol c cs).Right c := by
  have hclass {other : TokenKind} {chars : List Char} (h : TokenRule.Tail other c chars) :
      other ≠ .error ∧ ((other = singleKind c ∧ chars = []) ∨
        ∃ d, pairKind c d = some other ∧ chars = [d]) := by
    simpa only [TokenRule.Tail, hblank, hline, hword, hdigit, hquote, hslash,
      if_neg Bool.false_ne_true] using h
  -- One character stands alone where it makes no operator with the next one.
  have halone (hpair : ∀ d ∈ cs.head?, pairKind c d = none) :
      Cut.Right c ⟨singleKind c, [], cs⟩ := by
    have hshort {other : TokenKind} {chars : List Char} (hother : TokenRule.Tail other c chars)
        (hpre : chars <+: cs) : other ≠ .error ∧ other = singleKind c ∧ chars = [] := by
      obtain ⟨hne, ⟨rfl, rfl⟩ | ⟨d, hd, rfl⟩⟩ := hclass hother
      · exact ⟨hne, rfl, rfl⟩
      · obtain ⟨more, rfl⟩ := hpre
        rw [hpair d rfl] at hd
        cases hd
    by_cases herror : singleKind c = .error
    · refine .inr ⟨herror, .other hquote fun {kind chars} hrule hpre => ?_⟩
      cases chars with
      | nil => cases hrule
      | cons d chars =>
        obtain ⟨rfl, hchars⟩ := List.cons_prefix_cons.mp hpre
        obtain ⟨hne, heq, -⟩ := hshort hrule.tail hchars
        exact hne (heq.trans herror)
    · refine .inl ⟨herror, .of_tail (.spelled (singleKind_spelling herror)) ?_ ?_⟩
      · intro other chars hother hpre
        rw [(hshort hother hpre).2.2]
      · intro other hother
        exact .inl (hshort hother List.nil_prefix).2.1
  unfold symbol
  split
  · exact halone (by simp)
  · next d after =>
    cases hd : pairKind c d with
    | none => exact halone (by simpa using hd)
    | some kind =>
      obtain ⟨hspelled, hne⟩ := pairKind_spelling hd
      refine .inl ⟨hne, .of_tail (.spelled hspelled) ?_ ?_⟩
      · intro other chars hother hpre
        rcases (hclass hother).2 with ⟨-, rfl⟩ | ⟨e, -, rfl⟩
        · exact Nat.zero_le 1
        · exact Nat.le_refl 1
      · intro other hother
        rcases (hclass hother).2 with ⟨-, hnil⟩ | ⟨e, he, heq⟩
        · cases hnil
        · cases heq
          rw [hd] at he
          exact .inl (Option.some.inj he).symm

/-- Every lexeme is the longest match where it stands, or an error where no rule matches. -/
theorem cut_right (c : Char) (cs : List Char) : (cut c cs).Right c := by
  unfold cut
  split
  · next hblank => exact blanks_right hblank cs
  next hblank =>
  split
  · next hline =>
    rw [beq_iff_eq.mp hline]
    exact newline_right cs
  next hline =>
  split
  · next hword => exact word_right hword cs
  next hword =>
  split
  · next hdigit => exact number_right hdigit cs
  next hdigit =>
  split
  · next hquote => exact quoted_right hquote cs
  next hquote =>
  split
  · next hslash =>
    rw [beq_iff_eq.mp hslash]
    exact comment_right cs
  · next hslash =>
    rw [Bool.not_eq_true] at hblank hline hword hdigit hquote hslash
    exact symbol_right hblank hline hword hdigit hquote hslash cs

/-- A token that is not the end of the text was cut off somewhere in it. -/
theorem cut_of_mem (before cs : List Char) {t : Token} (ht : t ∈ tokensFrom (width before) cs)
    (hk : t.kind ≠ .eof) : ∃ skipped c rest, cs = skipped ++ c :: rest ∧
      t = ⟨(cut c rest).kind, width (before ++ skipped),
        width (before ++ skipped) + width (c :: (cut c rest).tail)⟩ := by
  generalize hn : cs.length = n
  induction n using Nat.strong_induction_on generalizing before cs with
  | h n ih =>
    cases cs with
    | nil =>
      rw [tokensFrom, List.mem_singleton] at ht
      rw [ht] at hk
      exact absurd rfl hk
    | cons c cs =>
      rw [tokensFrom] at ht
      rcases List.mem_cons.mp ht with rfl | ht
      · exact ⟨[], c, cs, rfl, by rw [List.append_nil]⟩
      · have hlt : (cut c cs).rest.length < n := by
          have hle := cut_rest_length c cs
          rw [List.length_cons] at hn
          omega
        rw [← width_append] at ht
        obtain ⟨skipped, d, rest, hrest, rfl⟩ := ih _ hlt _ _ ht rfl
        refine ⟨c :: (cut c cs).tail ++ skipped, d, rest, ?_, by rw [List.append_assoc]⟩
        rw [List.append_assoc, ← hrest, List.cons_append, cut_splits c cs]

end Scan

/-- What a rule admits as the longest match is no error. -/
theorem LongestMatch.not_unmatched {kind : TokenKind} {lexeme rest : List Char}
    (h : LongestMatch kind lexeme rest) : ¬ Unmatched lexeme rest := by
  intro hunmatched
  have hrule := h.admitted
  cases hunmatched with
  | comment hopen =>
    rcases hrule.tail with ⟨-, hnil⟩ | ⟨-, body, -, hbody⟩ | ⟨-, body, -, hbody⟩
    · cases hnil
    · cases (List.cons.inj hbody).1
    · rw [(List.cons.inj hbody).2] at hopen
      exact hopen (List.suffix_append _ _).isInfix
  | @string quote body _ hquote hbody hbroken =>
    have htail : ∃ inner, Units quote inner ∧ body = inner ++ [quote] := by
      rcases Scan.isQuote_cases hquote with rfl | rfl
      · exact hrule.tail.2
      · exact hrule.tail.2
    obtain ⟨inner, hinner, rfl⟩ := htail
    have hclosed := Scan.units_append_of hquote hinner (.inr ⟨[], rfl⟩)
    have hbroken := Scan.units_append_of hquote hbody (.inl .ended)
    rw [List.append_nil, hclosed] at hbroken
    cases (Prod.mk.inj hbroken).2
  | other _ hnone => exact hnone hrule ⟨rest, rfl⟩

/-- Every token of a text but its end is the longest match where it starts, a keyword rather than a
    name, or it is an error, and it is one exactly where a comment is never closed, a string is
    broken off or no rule matches. -/
theorem scan_takes_longest (text : String) (token : Token) (hmem : token ∈ scan text)
    (hkind : token.kind ≠ .eof) :
    ∃ before lexeme rest : String, text = before ++ lexeme ++ rest ∧
      token.span = ⟨before.utf8ByteSize, (before ++ lexeme).utf8ByteSize⟩ ∧
      (token.kind ≠ .error → LongestMatch token.kind lexeme.toList rest.toList) ∧
      (token.kind = .error ↔ Unmatched lexeme.toList rest.toList) := by
  obtain ⟨skipped, c, cs, htext, rfl⟩ := Scan.cut_of_mem [] text.toList hmem hkind
  refine ⟨String.ofList skipped, String.ofList (c :: (Scan.cut c cs).tail),
    String.ofList (Scan.cut c cs).rest, ?_, ?_, ?_, ?_⟩
  · rw [← String.toList_inj, htext]
    simpa using (Scan.cut_splits c cs).symm
  · rw [String.utf8ByteSize_append, Scan.utf8ByteSize_ofList, Scan.utf8ByteSize_ofList]
    rfl
  · rw [String.toList_ofList, String.toList_ofList]
    intro hne
    rcases Scan.cut_right c cs with ⟨-, hlongest⟩ | ⟨herror, -⟩
    · exact hlongest
    · exact absurd herror hne
  · rw [String.toList_ofList, String.toList_ofList]
    rcases Scan.cut_right c cs with ⟨hne, hlongest⟩ | ⟨herror, hunmatched⟩
    · exact ⟨fun herror => absurd herror hne, fun h => absurd h hlongest.not_unmatched⟩
    · exact ⟨fun _ => hunmatched, fun _ => herror⟩

/-- The point behind a digit is no part of the number if no digit follows it. -/
theorem scan_takes_longest_before_point :
    (⟨.intLiteral, ⟨0, 1⟩⟩ : Token) ∈ scan "1.x" ∧
      ∃ before lexeme rest : String, "1.x" = before ++ lexeme ++ rest ∧
        (⟨0, 1⟩ : Span) = ⟨before.utf8ByteSize, (before ++ lexeme).utf8ByteSize⟩ ∧
        LongestMatch .intLiteral lexeme.toList rest.toList := by
  have hmem : (⟨.intLiteral, ⟨0, 1⟩⟩ : Token) ∈ scan "1.x" := by
    rw [scan, show "1.x".toList = ['1', '.', 'x'] from rfl, Scan.tokensFrom]
    exact List.mem_cons_self
  obtain ⟨before, lexeme, rest, htext, hspan, hlongest, -⟩ :=
    scan_takes_longest "1.x" _ hmem TokenKind.noConfusion
  exact ⟨hmem, before, lexeme, rest, htext, hspan, hlongest TokenKind.noConfusion⟩

end ScriptAnalysis
