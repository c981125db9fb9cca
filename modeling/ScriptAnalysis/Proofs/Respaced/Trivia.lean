import ScriptAnalysis.Proofs.Respaced.Scope
import ScriptAnalysis.Proofs.Respaced.Script
import ScriptAnalysis.Proofs.Tree.ScriptTree

/-!
# Trivia never changes meaning

Two texts with the same words are parsed alike, the same is reported of both in the same order, and
their names refer to the same.
-/

namespace ScriptAnalysis

/-- Parses that are alike report the same, in the same order. -/
theorem Parse.Respaced.reports {p p' : Parse} (h : p.Respaced p') :
    p.transcript.reported p.transcript.events = p'.transcript.reported p'.transcript.events := by
  unfold Transcript.reported
  rw [← filterMap_started? p.transcript.events, h.brackets, filterMap_started?, funext h.reported]

/-- Texts that differ only in blanks, line ends and comments have the same nodes, the same markers
    and the same syntax errors, and their names resolve to the same, up to the places of all
    these. -/
theorem words_tell_meaning {text text' : String} (hwords : words text = words text') :
    ∃ p p', parseScript text = .ok p ∧ parseScript text' = .ok p' ∧ p.Respaced p' ∧
      (∀ file, ∃ r r', p.transcript.assemble file p.ast = .ok r ∧
        p'.transcript.assemble file p'.ast = .ok r' ∧
        r.diagnostics.map Diagnostic.message = r'.diagnostics.map Diagnostic.message) ∧
      ∀ (file : FileId) (scriptName : String) (globals : Globals) (others : ClassLookup),
        let resolved := ResolveInput.resolve ⟨file, scriptName, p.ast, p.root, globals, others⟩
        let resolved' := ResolveInput.resolve ⟨file, scriptName, p'.ast, p'.root, globals, others⟩
        resolved.value.Respaced resolved'.value ∧ resolved.asked = resolved'.asked := by
  obtain ⟨p, m, body, last, hp, -, hrec⟩ := parseWith_script text (scan_endsWithEof text)
  obtain ⟨p', m', body', last', hp', -, hrec'⟩ := parseWith_script text' (scan_endsWithEof text')
  have hparse : p.Respaced p' := parseScript_respaced hwords hp hp'
  refine ⟨p, p', hp, hp', hparse, fun file => ?_, fun file scriptName globals others => ?_⟩
  · obtain ⟨r, hr⟩ := hrec.assemble_succeeds file
    obtain ⟨r', hr'⟩ := hrec'.assemble_succeeds file
    refine ⟨r, r', hr, hr', ?_⟩
    rw [Transcript.messages_of_assemble hr, Transcript.messages_of_assemble hr', hparse.reports]
  · have hinput : ResolveInput.Respaced ⟨file, scriptName, p.ast, p.root, globals, others⟩
        ⟨file, scriptName, p'.ast, p'.root, globals, others⟩ :=
      ⟨rfl, rfl, hparse.root, rfl, rfl, hparse.ast⟩
    exact hinput.resolve

/-- Line ends, a comment and blanks within a declaration that has a fault. -/
theorem spaced_fault_is_reported_alike :
    words "def  x =\n y + // sum\n ) 1" = words "def x = y + ) 1" ∧
      ∃ p p' r r', parseScript "def  x =\n y + // sum\n ) 1" = .ok p ∧
        parseScript "def x = y + ) 1" = .ok p' ∧ p.Respaced p' ∧
        p.transcript.assemble 0 p.ast = .ok r ∧ p'.transcript.assemble 0 p'.ast = .ok r' ∧
        r.diagnostics.map Diagnostic.message = r'.diagnostics.map Diagnostic.message := by
  have hwords : words "def  x =\n y + // sum\n ) 1" = words "def x = y + ) 1" := by
    decide +kernel
  obtain ⟨p, p', hp, hp', hparse, htree, -⟩ := words_tell_meaning hwords
  obtain ⟨r, r', hr, hr', hmessages⟩ := htree 0
  exact ⟨hwords, p, p', r, r', hp, hp', hparse, hr, hr', hmessages⟩

end ScriptAnalysis
