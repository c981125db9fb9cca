import ScriptAnalysis.Proofs.Grammar.ScriptWords
import ScriptAnalysis.Proofs.Tree.ScriptTree

/-!
# Texts without faults are scripts of the grammar

A text whose parse reports nothing is derived from the grammar.  The parse remembers each message
together with the marker that reports it, and the tree collects what the markers report; so if the
tree has nothing to report, no message is on record at the end of the parse, and every production
has taken a word of its construct.
-/

namespace ScriptAnalysis

open ParseState Production

/-- The kinds of the tokens of a text that are no trivia, up to the end of the text. -/
def scriptWord (text : String) : List TokenKind :=
  (significantKinds (scan text)).takeWhile fun kind => kind != .eof

/-- What was taken of a text, with its end ahead, is all that counts. -/
theorem scriptWord_eq {text : String} {ts : List Token} {d : Draft}
    (hahead : scan text = ts ++ d.ahead) (heof : d.current.kind = .eof)
    (hno : .eof ∉ significantKinds ts) : scriptWord text = significantKinds ts := by
  obtain ⟨body, last, hscan, hlast, hbody⟩ := scan_endsWithEof text
  have hkinds : ∃ kinds, significantKinds (scan text) = significantKinds ts ++ .eof :: kinds := by
    rcases d.current_cases with ⟨blank, rest, hcut, hblank, -⟩ | ⟨hblank, -⟩
    · refine ⟨significantKinds rest, ?_⟩
      rw [hahead, hcut, significantKinds_append, significantKinds_append,
        significantKinds_blank hblank]
      simp [significantKinds, heof, TokenKind.isTrivia]
    · have hmem : last ∈ ts ++ d.ahead := by
        rw [← hahead, hscan]
        simp
      rcases List.mem_append.mp hmem with hts | hrest
      · refine absurd (List.mem_filter.mpr ⟨List.mem_map_of_mem hts, ?_⟩) (hlast ▸ hno)
        rw [hlast]
        rfl
      · have htrivia := hblank last hrest
        unfold Token.isTrivia at htrivia
        rw [hlast] at htrivia
        cases htrivia
  obtain ⟨kinds, hkinds⟩ := hkinds
  unfold scriptWord
  rw [hkinds, List.takeWhile_append_of_pos]
  · simp
  · intro kind hkind
    rw [bne_iff_ne]
    rintro rfl
    exact hno hkind

/-- Every text has a parse and a tree, and if the tree reports no fault, the text is derived from
    the grammar. -/
theorem derives_script (text : String) (file : FileId) :
    ∃ p r, parseScript text = .ok p ∧ p.transcript.assemble file p.ast = .ok r ∧
      (r.diagnostics = [] → Derives (.ref .script) (scriptWord text)) := by
  obtain ⟨root, s, hrun, hahead, hopened, -, m, body, last, hrecords⟩ :=
    Script.script_yields text (scan_endsWithEof text)
  obtain ⟨r, hr⟩ := hrecords.assemble_succeeds file
  refine ⟨⟨root, s.ast, ⟨s.draft.events, s.draft.markers⟩⟩, r, ?_, hr, fun hnone => ?_⟩
  · have htranscript : s.draft.toTranscript = .ok ⟨s.draft.events, s.draft.markers⟩ := by
      unfold Draft.toTranscript
      rw [hopened, hahead, List.map_nil, List.append_nil]
    unfold parseScript parseWith
    rw [hrun]
    simp only [htranscript, bind, Except.bind, pure, Except.pure]
  · have htold : ({ draft := Draft.ofTokens (scan text) none } : ParseState).Told :=
      ⟨fit_ofTokens text, by simp [Draft.ofTokens], by simp [Draft.ofTokens, MessageSet.empty]⟩
    obtain ⟨s₁, h₁, heof, h₂⟩ := Script.script_takes text htold root s hrun
    have hquiet : s.Quiet := by
      refine List.eq_nil_iff_forall_not_mem.mpr fun message hmessage => ?_
      obtain ⟨id, diagnostic, hstart, herror, hdiagnostic, -⟩ := h₂.told.told message hmessage
      obtain ⟨a, hreplays, rfl⟩ := Transcript.assemble_ok.mp hr
      rw [Assembly.closeNode_diagnostics] at hnone
      exact hreplays.diagnostics_ne_nil (List.mem_reverse.mpr hstart) herror hdiagnostic hnone
    obtain ⟨ts, hts, hword⟩ := h₁.taken
    have hscript : Derives (.ref .script) (significantKinds ts) := hword (h₂.quiet hquiet)
    rw [scriptWord_eq hts heof hscript.eof_not_mem]
    exact hscript

/-- A text with a call in a closure, and without faults. -/
theorem derives_assignment_and_closure :
    scriptWord "a = 1 ; \x7b b -> b . c ( ) \x7d" =
      [.ident, .equal, .intLiteral, .semicolon, .leftBrace,
      .ident, .arrow, .ident, .dot, .ident, .leftParen, .rightParen, .rightBrace] ∧
    Derives (.ref .script) (scriptWord "a = 1 ; \x7b b -> b . c ( ) \x7d") := by
  obtain ⟨p, r, hp, hr, hderives⟩ := derives_script "a = 1 ; \x7b b -> b . c ( ) \x7d" 0
  have hnone : (p.transcript.assemble 0 p.ast).map Assembly.diagnostics = .ok [] :=
    of_parse hp (P := fun p =>
      (p.transcript.assemble 0 p.ast).map Assembly.diagnostics = .ok []) (by decide +kernel)
  rw [hr] at hnone
  exact ⟨by decide +kernel, hderives (Except.ok.inj hnone)⟩

end ScriptAnalysis
