import ScriptAnalysis.Proofs.Workspace.Registrations

/-!
# A cancelled answer leaves no trace

An answer that is made anew is cancelled when its parse asks for more markers than are left, however
deep in a construct it is by then, and is the whole answer otherwise.  How many markers the parse of
a text asks for is known beforehand (`Production.Asks`).  Nothing is stored, counted as used or
registered before the parse is done, so a cancelled one only advances the clock of the cache.
-/

namespace ScriptAnalysis

namespace RecencyCache

variable {α : Type} {c : RecencyCache α} {file : FileId} {text : String}

/-- Looking for a text that is not cached uses nothing. -/
theorem getFor_eq_of_peek_eq_none (h : c.peek file text = none) :
    c.getFor file text = (none, { c with clock := c.clock + 1 }) := by
  unfold peek at h
  unfold getFor access
  cases hentry : c.entries[file]? with
  | none => rfl
  | some entry =>
    rw [hentry] at h
    dsimp only at h ⊢
    by_cases htext : entry.text = text
    · rw [if_pos htext] at h
      cases h
    · rw [if_neg (by simpa using htext)]

end RecencyCache

namespace Toolchain

variable {globals : Except GlobalsFault Globals} {file : FileId} {text : String} {calls : Nat}

theorem parse_spends
    (h : (Script.script text).Asks { draft := Draft.ofTokens (scan text) none } calls) (n : Nat) :
    ({ globals } : Toolchain).parse file text (some n) =
      if n < calls then .error .cancelled else ({ globals } : Toolchain).parse file text := by
  have hparse := parseWith_spends h (some n)
  rw [spendMarks_some] at hparse
  unfold parse
  simp only [hparse]
  split
  · rfl
  · rfl

/-- An analysis is cancelled if its parse asks for more markers than are left, and else the analysis
    without a limit. -/
theorem analyse_spends
    (h : (Script.script text).Asks { draft := Draft.ofTokens (scan text) none } calls)
    (source : SourceFile) (others : ClassLookup) (n : Nat) :
    ({ globals } : Toolchain).analyse file text source others (some n) =
      if n < calls then .error .cancelled
      else ({ globals } : Toolchain).analyse file text source others := by
  unfold analyse
  rw [parse_spends h]
  by_cases hless : n < calls
  · rw [if_pos hless, if_pos hless]
  · rw [if_neg hless, if_neg hless]

end Toolchain

namespace Script

/-- The parse of a text succeeds as far as its limit allows, and what it asks for is taken from the
    limit. -/
theorem run_limited {text : String} {calls : Nat}
    (h : (script text).Asks { draft := Draft.ofTokens (scan text) none } calls) {n : Nat}
    (hn : calls ≤ n) : ∃ root s,
      (script text).run { draft := Draft.ofTokens (scan text) (some n) } = .ok (root, s) ∧
        s.draft.marksLeft = some (n - calls) := by
  obtain ⟨root, s, hrun, -⟩ := script_yields text (scan_endsWithEof text)
  refine ⟨root, s.limited (some (n - calls)), ?_, rfl⟩
  have hlimited := h (some n)
  rw [spendMarks_some, if_neg (Nat.not_lt.mpr hn)] at hlimited
  exact hlimited.trans (congrArg (Except.map _) hrun)

theorem run_cancelled {text : String} {calls : Nat}
    (h : (script text).Asks { draft := Draft.ofTokens (scan text) none } calls) {n : Nat}
    (hn : n < calls) :
    (script text).run { draft := Draft.ofTokens (scan text) (some n) } = .error .cancelled := by
  have hlimited := h (some n)
  rw [spendMarks_some, if_pos hn] at hlimited
  exact hlimited

/-- How many markers the parse of a text asks for is read off any run that is not cancelled. -/
theorem calls_of_run {text : String} {calls n left : Nat}
    (h : ∀ n, calls ≤ n → ∃ root s,
      (script text).run { draft := Draft.ofTokens (scan text) (some n) } = .ok (root, s) ∧
        s.draft.marksLeft = some (n - calls))
    (hleft : ((script text).run { draft := Draft.ofTokens (scan text) (some n) }).map
      (fun r => r.2.draft.marksLeft) = .ok (some left)) : calls + left = n := by
  obtain ⟨asked, hasked⟩ := (cancels_script text).run_limited
    { draft := Draft.ofTokens (scan text) none }
  -- both numbers are subtracted from a limit that is large enough for both
  have hsame : calls = asked := by
    obtain ⟨_, s, hrun, hs⟩ := h (max calls asked) (Nat.le_max_left _ _)
    obtain ⟨_, s', hrun', hs'⟩ := run_limited hasked (Nat.le_max_right calls asked)
    obtain ⟨-, rfl⟩ := Prod.mk.inj (Except.ok.inj (hrun.symm.trans hrun'))
    have := Option.some.inj (hs.symm.trans hs')
    omega
  subst hsame
  rcases Nat.lt_or_ge n calls with hless | hn
  · rw [run_cancelled hasked hless] at hleft
    cases hleft
  · obtain ⟨_, s, hrun, hs⟩ := h n hn
    rw [hrun] at hleft
    have := Option.some.inj (hs.symm.trans (Except.ok.inj hleft))
    omega

/-- The first marker is opened before anything else. -/
theorem asks_positive {text : String} {calls : Nat}
    (h : (script text).Asks { draft := Draft.ofTokens (scan text) none } calls) : 0 < calls := by
  refine Nat.pos_of_ne_zero fun hzero => ?_
  obtain ⟨root, s, hrun, -⟩ := run_limited h (n := 0) (Nat.le_of_eq hzero)
  have hcancelled : (script text).run { draft := Draft.ofTokens (scan text) (some 0) } =
      .error .cancelled := rfl
  rw [hcancelled] at hrun
  cases hrun

end Script

namespace Analyzer

/-- The parse of a text asks for a definite number of markers.  However an analyzer came to be in
    the state in which it is, if it has no analysis of the text cached and the parse is cancelled at
    any of these, then the answer is that it was cancelled, and the entries of the cache, their
    order of use and the sources are as before.  If it is not, the answer and the analyzer are those
    without a limit. -/
theorem cancelled_put_leaves_no_trace (globals : Except GlobalsFault Globals)
    (policy : CachePolicy) (text : String) : ∃ calls, 0 < calls ∧
    (∀ n, calls ≤ n → ∃ root s,
      (Script.script text).run { draft := Draft.ofTokens (scan text) (some n) } = .ok (root, s) ∧
        s.draft.marksLeft = some (n - calls)) ∧
    ∀ a made, Reachable globals policy a made → ∀ file, a.cache.peek file text = none → ∀ n,
      (n < calls → ∃ a', (Query.put file text (some n)).run.run a = (.error .cancelled, a') ∧
        a'.cache.entries = a.cache.entries ∧ a'.cache.files = a.cache.files ∧
        a'.sources = a.sources) ∧
      (calls ≤ n → (Query.put file text (some n)).run.run a =
        (Query.put file text).run.run a) := by
  obtain ⟨calls, hcalls⟩ := (Script.cancels_script text).run_limited
    { draft := Draft.ofTokens (scan text) none }
  refine ⟨calls, Script.asks_positive hcalls, fun n hn => Script.run_limited hcalls hn, ?_⟩
  intro a made hreachable file hmiss n
  have htoolchain := hreachable.intact.1.toolchain
  rw [Query.run_put, Query.run_put, RecencyCache.getFor_eq_of_peek_eq_none hmiss]
  dsimp only
  rw [Query.run_make, Query.run_make]
  dsimp only
  rw [htoolchain, Toolchain.analyse_spends hcalls]
  constructor
  · intro hn
    rw [if_pos hn]
    exact ⟨_, rfl, rfl, rfl, rfl⟩
  · intro hn
    rw [if_neg (Nat.not_lt.mpr hn)]

end Analyzer

namespace Workspace

/-- A file with a parameter that has an initial value. -/
def barFile : SourceFile := ⟨"Bar", some "", "def f(int x = 1) \x7b x \x7d"⟩

/-- A workspace of two files, one of which has been analysed. -/
def halfAnalysed : Workspace :=
  after (.ok .empty) {} [.insert 1 fooFile, .insert 3 barFile, .put 1 fooFile.text none]

/-- The parse of the other file asks for twelve markers.  With eight of them it is cancelled at the
    initial value, inside the parameter, the function and the script, and with twelve it is not. -/
theorem put_cancelled_in_parameter :
    (halfAnalysed.analyzer.cache.peek 1 fooFile.text).isSome ∧
    halfAnalysed.analyzer.sources.get? 3 = some barFile ∧
    (∃ a', (Query.put 3 barFile.text (some 8)).run.run halfAnalysed.analyzer =
        (.error .cancelled, a') ∧
      a'.cache.entries = halfAnalysed.analyzer.cache.entries ∧
      a'.cache.files = halfAnalysed.analyzer.cache.files ∧
      a'.sources = halfAnalysed.analyzer.sources) ∧
    (Query.put 3 barFile.text (some 12)).run.run halfAnalysed.analyzer =
      (Query.put 3 barFile.text).run.run halfAnalysed.analyzer := by
  obtain ⟨calls, -, hruns, hput⟩ :=
    Analyzer.cancelled_put_leaves_no_trace (.ok .empty) {} barFile.text
  have hcalls : calls + 38 = 50 := Script.calls_of_run hruns (by decide +kernel)
  obtain ⟨made, hreachable⟩ : ∃ made,
      Analyzer.Reachable (.ok .empty) {} halfAnalysed.analyzer made := reachable_after _ _ _
  have hmiss : halfAnalysed.analyzer.cache.peek 3 barFile.text = none :=
    Option.isNone_iff_eq_none.mp (by decide +kernel)
  refine ⟨by decide +kernel, by decide +kernel, ?_, ?_⟩
  · exact (hput _ made hreachable 3 hmiss 8).1 (by omega)
  · exact (hput _ made hreachable 3 hmiss 12).2 (by omega)

end Workspace

end ScriptAnalysis
