import ScriptAnalysis.Proofs.Tree.Anchors
import ScriptAnalysis.Proofs.Tree.Spans

/-!
# What syntax errors are about

An error marker says what is wrong with the token that was next when it was opened, and notes the
span of that token.  The replay moves its report to the first token behind the start of the marker.
In the record of a text these are one token (`ParsedText.opened`), so the report stays where it is:
every syntax error has the span of the token that it names.
-/

namespace ScriptAnalysis

/-- A syntax error names a token of the text and has its span, or it has no extent and stands at the
    end of the text. -/
inductive BlamesToken (text : String) : Diagnostic → Prop
  | tooLarge {t : Token} : t ∈ scan text → t.kind = .intLiteral →
      BlamesToken text ⟨.parse, "Integer literal too large", t.span⟩
  | unexpected {t : Token} (what : String) : t ∈ scan text → t.isTrivia = false → t.kind ≠ .eof →
      BlamesToken text
        ⟨.parse, "Unexpected token '" ++ t.textIn text ++ "': expected " ++ what, t.span⟩
  | atEnd (what : String) : BlamesToken text
      ⟨.parse, "Unexpected end of file: expected " ++ what, .point text.utf8ByteSize⟩

/-! ### Tokens of a text -/

/-- The end of a text is where its last token stands. -/
theorem span_of_eof {text : String} {t : Token} (ht : t ∈ scan text) (hk : t.kind = .eof) :
    t.span = .point text.utf8ByteSize := by
  obtain ⟨body, heq, hbody, -⟩ := scan_eq text
  rw [heq, List.mem_append, List.mem_singleton] at ht
  rcases ht with ht | rfl
  · exact absurd hk (hbody t ht)
  · rfl

/-- A span that is moved to where it starts stays as it is, if its end is an offset. -/
theorem movedTo_start {span : Span} (hle : span.start ≤ span.stop) (hstop : span.stop ≤ maxOffset) :
    span.movedTo span.start = span := by
  unfold Span.movedTo Span.length
  rw [Nat.add_sub_cancel' hle, Nat.min_eq_left hstop]

namespace Blames

variable {text : String} {t : Token} {d : Diagnostic}

theorem span_eq (h : Blames text t d) : d.span = t.span := by
  cases h <;> rfl

theorem blamesToken (h : Blames text t d) (ht : Significant text t) : BlamesToken text d := by
  cases h with
  | unexpected what =>
    by_cases hk : t.kind = .eof
    · rw [Production.unexpected, if_pos hk, span_of_eof ht.1 hk]
      exact .atEnd what
    · rw [Production.unexpected, if_neg hk]
      exact .unexpected what ht.1 ht.2 hk
  | tooLarge hk => exact .tooLarge ht.1 hk

/-- What is said of a token is not moved by a replay. -/
theorem anchoredAt_eq (h : Blames text t d) (ht : t ∈ scan text)
    (hsize : text.utf8ByteSize ≤ maxOffset) : d.anchoredAt t.offset = d := by
  obtain ⟨before, after, heq⟩ := List.append_of_mem ht
  obtain ⟨-, hle, hrest⟩ := (heq ▸ scan_tiles text).start_le
  unfold Diagnostic.anchoredAt
  rw [h.span_eq, Token.offset, movedTo_start hle (Nat.le_trans hrest.le hsize), ← h.span_eq]

end Blames

/-! ### The token behind the start of a marker -/

theorem firstOffset_eq_next (events : List Event) :
    firstOffset events = (nthSignificant (tokensIn events) 0).map Token.offset := by
  induction events with
  | nil => rfl
  | cons e events ih =>
    rw [Transcript.firstOffset_cons, ih, show e :: events = [e] ++ events from rfl, tokensIn_append]
    cases e with
    | token t => cases ht : t.isTrivia <;> simp [nthSignificant, Token.significantOffset?, ht]
    | start id => simp
    | stop id => simp

section

variable {file : FileId} {text : String} {p : Parse} {assembly : Assembly} {id : MarkerId}
  {after : List Event}

/-- The token that comes next behind the start of a marker is where the marker stands. -/
theorem ParsedText.next (h : ParsedText file text p assembly)
    (hsuffix : .start id :: after <:+ p.transcript.events) : ∃ token, Significant text token ∧
      upcoming (tokensIn after) text.utf8ByteSize = token ∧ firstOffset after = some token.offset ∧
      (p.transcript.marker id).offset.or (firstOffset after) = some token.offset := by
  obtain ⟨m, body, last, hrecords⟩ := h.records
  obtain ⟨before, hevents⟩ := hsuffix
  have hsome := firstOffset_isSome (hrecords.last_mem ⟨before, hevents⟩) hrecords.last_not_trivia
  rw [firstOffset_eq_next, Option.isSome_map] at hsome
  obtain ⟨token, htoken⟩ := Option.isSome_iff_exists.mp hsome
  have hoffset : firstOffset after = some token.offset := by
    rw [firstOffset_eq_next, htoken]
    rfl
  have hmem : token ∈ tokensIn after ∧ token.isTrivia = false := by
    rw [nthSignificant_eq] at htoken
    simpa [significant] using List.mem_of_getElem? htoken
  refine ⟨token, ⟨?_, hmem.2⟩, by rw [upcoming, htoken]; rfl, hoffset, ?_⟩
  · rw [← h.tokens, ← hevents, tokensIn_append]
    exact List.mem_append_right _ (by simpa using hmem.1)
  · cases hnoted : (p.transcript.marker id).offset with
    | none => exact hoffset
    | some noted => exact (h.run.framed.noted hevents.symm hnoted).symm.trans hoffset

/-- Inside the marker of the script, that token is what the marker is about. -/
theorem ParsedText.concerns (h : ParsedText file text p assembly)
    (hsuffix : .start id :: after <:+ p.transcript.events.tail) :
    (p.transcript.marker id).Concerns text p.ast (upcoming (tokensIn after) text.utf8ByteSize) := by
  obtain ⟨before, hevents⟩ := hsuffix
  exact h.run.concerned before id after hevents.symm

end

/-! ### Reports of a replay -/

namespace Transcript

variable {t : Transcript} {file : FileId} {ast : Ast} {later events : List Event} {e : Event}
  {a a' r : Assembly} {frames frames' : List Frame} {Q : Diagnostic → Prop}

/-- What the markers in some events report has a property. -/
def Report (t : Transcript) (Q : Diagnostic → Prop) (events : List Event) : Prop :=
  ∀ id after, .start id :: after <:+ events →
    ∀ d ∈ (t.marker id).report ((t.marker id).offset.or (firstOffset after)), Q d

theorem Step.reports (h : t.Step file ast later e a frames a' frames')
    (hreport : t.Report Q (e :: later)) (ha : ∀ d ∈ a.diagnostics, Q d) :
    ∀ d ∈ a'.diagnostics, Q d := by
  cases h with
  | token token => rwa [Assembly.pushLeaf_diagnostics]
  | enter _ _ => exact ha
  | pass _ =>
    intro d hd
    rcases List.mem_append.mp hd with hd | hd
    · exact ha d hd
    · exact hreport _ later (List.suffix_refl _) d hd
  | leave _ => rwa [Assembly.index_diagnostics, Assembly.closeNode_diagnostics]
  | drop _ => exact ha

theorem Replays.reports (h : t.Replays file ast later events a frames a' frames')
    (hreport : t.Report Q (events ++ later)) (ha : ∀ d ∈ a.diagnostics, Q d) :
    ∀ d ∈ a'.diagnostics, Q d := by
  induction h with
  | nil => exact ha
  | cons hstep _ ih =>
    exact ih (fun id after hsuffix => hreport id after (hsuffix.trans (List.suffix_cons _ _)))
      (hstep.reports hreport ha)

theorem assemble_reports (hreport : t.Report Q t.events) (hr : t.assemble file ast = .ok r) :
    ∀ d ∈ r.diagnostics, Q d := by
  obtain ⟨a, hreplays, rfl⟩ := assemble_ok.mp hr
  rw [Assembly.closeNode_diagnostics]
  exact hreplays.reports (by rwa [List.append_nil]) (by simp)

end Transcript

/-- The markers in the record of a text report faults of the tokens that they are about. -/
theorem ParsedText.report {file : FileId} {text : String} {p : Parse} {assembly : Assembly}
    (h : ParsedText file text p assembly) (hsize : text.utf8ByteSize ≤ maxOffset) :
    p.transcript.Report (BlamesToken text) p.transcript.events := by
  intro id after hsuffix d hd
  obtain ⟨token, hsignificant, htoken, -, hoffset⟩ := h.next hsuffix
  obtain ⟨m, body, last, hrecords⟩ := h.records
  unfold Marker.report at hd
  split at hd
  · next fault herror hfault =>
    rcases List.suffix_cons_iff.mp (hrecords.events ▸ hsuffix) with hfirst | hinside
    · -- The marker of the script ends with its class.
      obtain rfl := Event.start.inj (List.cons.inj hfirst).1
      rw [hrecords.state] at herror
      cases herror
    · have hblames := (h.concerns (by rw [hrecords.events]; exact hinside)).fault fault hfault
      rw [htoken] at hblames
      rw [hoffset, Option.getD_some, hblames.anchoredAt_eq hsignificant.1 hsize,
        List.mem_singleton] at hd
      exact hd ▸ hblames.blamesToken hsignificant
  · cases hd

/-- Every syntax error of a text is about the token that it stands on.  A text that is longer than
    the greatest offset cannot be read. -/
theorem Toolchain.parse_blames_tokens (globals : Except GlobalsFault Globals) (file : FileId)
    (text : String) (hsize : text.utf8ByteSize ≤ maxOffset) :
    ∃ p assembly, ({ globals } : Toolchain).parse file text = .ok (p, assembly) ∧
      ∀ d ∈ assembly.diagnostics, BlamesToken text d := by
  obtain ⟨p, assembly, hparse, htext⟩ := parse_finishes globals file text
  exact ⟨p, assembly, hparse, Transcript.assemble_reports (htext.report hsize) htext.assembled⟩

/-- The literal, the parenthesis that closes nothing and the end of the text. -/
theorem Toolchain.three_faults_blame_tokens :
    "99999999999999999999 ) (".utf8ByteSize ≤ maxOffset ∧ ∃ p assembly,
      ({ globals := .ok .empty } : Toolchain).parse 0 "99999999999999999999 ) (" =
        .ok (p, assembly) ∧
      assembly.diagnostics = [⟨.parse, "Integer literal too large", ⟨0, 20⟩⟩,
        ⟨.parse, "Unexpected token ')': expected expression", ⟨21, 22⟩⟩,
        ⟨.parse, "Unexpected end of file: expected expression", ⟨24, 24⟩⟩,
        ⟨.parse, "Unexpected end of file: expected ')'", ⟨24, 24⟩⟩] ∧
      ∀ d ∈ assembly.diagnostics, BlamesToken "99999999999999999999 ) (" d := by
  have hsize : "99999999999999999999 ) (".utf8ByteSize ≤ maxOffset := by decide
  obtain ⟨p, assembly, hparse, hblames⟩ :=
    parse_blames_tokens (.ok .empty) 0 "99999999999999999999 ) (" hsize
  have hcomputed : (({ globals := .ok .empty } : Toolchain).parse 0
      "99999999999999999999 ) (").toOption.any (fun result => decide (result.2.diagnostics =
        [⟨.parse, "Integer literal too large", ⟨0, 20⟩⟩,
          ⟨.parse, "Unexpected token ')': expected expression", ⟨21, 22⟩⟩,
          ⟨.parse, "Unexpected end of file: expected expression", ⟨24, 24⟩⟩,
          ⟨.parse, "Unexpected end of file: expected ')'", ⟨24, 24⟩⟩])) = true := by
    decide +kernel
  rw [hparse] at hcomputed
  exact ⟨hsize, p, assembly, hparse, of_decide_eq_true hcomputed, hblames⟩

end ScriptAnalysis
