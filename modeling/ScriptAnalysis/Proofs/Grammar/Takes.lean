import ScriptAnalysis.Proofs.Grammar.Derives
import ScriptAnalysis.Proofs.Grammar.Outcome
import ScriptAnalysis.Proofs.Recording.Settled

/-!
# What a production takes from the text

`Takes s s' L` says which tokens were consumed between two states: unless a fault is on record,
their kinds are a word of `L`.  Where a production passes over a token, or goes on without one, it
has to have reported it, and then it may claim any language, the empty one included.

A fault on record is a message that the recording remembers.  A message that was said before is not
said again, and taking a marker back forgets the messages of the markers in it; so a state also
keeps track of which marker each message belongs to (`ParseState.Told`).
-/

namespace ScriptAnalysis

open ParseState Computability

/-- The kinds of the tokens that are no trivia. -/
def significantKinds (ts : List Token) : List TokenKind :=
  (ts.map Token.kind).filter fun kind => !kind.isTrivia

@[simp] theorem significantKinds_nil : significantKinds [] = [] := rfl

@[simp] theorem significantKinds_append (ts us : List Token) :
    significantKinds (ts ++ us) = significantKinds ts ++ significantKinds us := by
  simp [significantKinds]

theorem significantKinds_blank {ts : List Token} (h : ∀ t ∈ ts, t.isTrivia = true) :
    significantKinds ts = [] := by
  unfold significantKinds
  rw [List.filter_eq_nil_iff]
  intro kind hkind
  obtain ⟨t, ht, rfl⟩ := List.mem_map.mp hkind
  have ht := h t ht
  unfold Token.isTrivia at ht
  simp [ht]

/-! ### Faults on record -/

namespace ParseState

/-- What holds of a state between any two steps, with each message remembered that of an error
    marker on record. -/
structure Told (s : ParseState) : Prop extends s.Fit where
  started : ∀ id ∈ s.draft.opened, .start id ∈ s.draft.history
  told : ∀ message ∈ s.draft.messages.messages, ∃ id diagnostic, .start id ∈ s.draft.history ∧
    (s.draft.marker id).state = .error ∧ (s.draft.marker id).diagnostic = some diagnostic ∧
      diagnostic.message = message

/-- No fault is on record. -/
def Quiet (s : ParseState) : Prop := s.draft.messages.messages = []

end ParseState

/-- The tokens consumed are a word of `L` unless a fault is on record, and the faults reported since
    are told apart from those before. -/
structure Takes (s s' : ParseState) (L : Language TokenKind) : Prop where
  told : s'.Told
  reported : ∀ message ∈ s.draft.messages.messages, message ∈ s'.draft.messages.messages
  diagnosed : ∀ id diagnostic, (s'.draft.marker id).diagnostic = some diagnostic →
    (s.draft.marker id).diagnostic = some diagnostic ∨
      diagnostic.message ∉ s.draft.messages.messages
  taken : ∃ ts, s.draft.ahead = ts ++ s'.draft.ahead ∧ (s'.Quiet → significantKinds ts ∈ L)

namespace Takes

variable {s s₁ s₂ s₃ : ParseState} {L M : Language TokenKind}

theorem refl (h : s.Told) : Takes s s 1 where
  told := h
  reported _ hmessage := hmessage
  diagnosed _ _ hd := .inl hd
  taken := ⟨[], rfl, fun _ => rfl⟩

theorem quiet (h : Takes s₁ s₂ L) (hquiet : s₂.Quiet) : s₁.Quiet := by
  refine List.eq_nil_iff_forall_not_mem.mpr fun message hmessage => ?_
  have hmem := h.reported message hmessage
  rw [hquiet] at hmem
  cases hmem

theorem mono (h : Takes s₁ s₂ L) (hle : L ≤ M) : Takes s₁ s₂ M where
  told := h.told
  reported := h.reported
  diagnosed := h.diagnosed
  taken := by
    obtain ⟨ts, hahead, hword⟩ := h.taken
    exact ⟨ts, hahead, fun hquiet => hle (hword hquiet)⟩

/-- After a fault nothing is claimed of the tokens. -/
theorem any (h : Takes s₁ s₂ 0) : Takes s₁ s₂ L := h.mono bot_le

theorem trans (h : Takes s₁ s₂ L) (k : Takes s₂ s₃ M) : Takes s₁ s₃ (L * M) where
  told := k.told
  reported message hmessage := k.reported message (h.reported message hmessage)
  diagnosed id diagnostic hd := by
    rcases k.diagnosed id diagnostic hd with hd | hnew
    · exact h.diagnosed id diagnostic hd
    · exact .inr fun hmessage => hnew (h.reported _ hmessage)
  taken := by
    obtain ⟨ts, hahead, hword⟩ := h.taken
    obtain ⟨us, hahead', hword'⟩ := k.taken
    refine ⟨ts ++ us, by rw [hahead, hahead', List.append_assoc], fun hquiet => ?_⟩
    rw [significantKinds_append]
    exact Language.append_mem_mul (hword (k.quiet hquiet)) (hword' hquiet)

/-- What may be there is not. -/
theorem optional_none (h : Takes s₁ s₂ L) (f : Form) :
    Takes s₁ s₂ (L * (Form.optional f).language) := by
  refine h.mono ?_
  rw [Form.language_optional]
  exact (mul_one L).ge.trans (mul_le_mul_right (le_add_right le_rfl) L)

/-- What may be there is. -/
theorem optional_some {f : Form} (h : Takes s₁ s₂ (L * f.language)) :
    Takes s₁ s₂ (L * (Form.optional f).language) := by
  refine h.mono ?_
  rw [Form.language_optional]
  exact mul_le_mul_right (le_add_left le_rfl) L

theorem choice {forms : List Form} {f : Form} (h : Takes s₁ s₂ (L * f.language)) (hf : f ∈ forms) :
    Takes s₁ s₂ (L * (Form.choice forms).language) :=
  h.mono (mul_le_mul_right (Form.language_le_choice hf) L)

/-- A word of one of the forms of a construct is a word of the construct. -/
theorem alternative {symbol : Symbol} {forms : List Form} {f : Form}
    (h : Takes s₁ s₂ (L * f.language)) (hform : symbol.form = .choice forms) (hf : f ∈ forms) :
    Takes s₁ s₂ (L * (Form.ref symbol).language) :=
  h.mono (mul_le_mul_right (Form.language_le_ref hform hf) L)

/-- A step that takes nothing. -/
theorem pass (h : Takes s₁ s₂ L) (k : Takes s₂ s₃ 1) : Takes s₁ s₃ L := by
  simpa using h.trans k

/-- Before a fault nothing is claimed of the tokens either. -/
theorem fault (h : Takes s₁ s₂ L) (k : Takes s₂ s₃ 0) : Takes s₁ s₃ 0 := by
  simpa using h.trans k

theorem of_loud (h : Takes s₁ s₂ L) (hloud : ¬ s₂.Quiet) : Takes s₁ s₂ M where
  told := h.told
  reported := h.reported
  diagnosed := h.diagnosed
  taken := by
    obtain ⟨ts, hahead, -⟩ := h.taken
    exact ⟨ts, hahead, fun hquiet => absurd hquiet hloud⟩

/-- A step that neither reports anything nor takes anything back. -/
theorem of_same {s s' : ParseState} {ts : List Token} (h : s.Told) (hfit : s'.Fit)
    (hstarted : ∀ id ∈ s'.draft.opened, .start id ∈ s'.draft.history)
    (hhistory : ∀ id, .start id ∈ s.draft.history → .start id ∈ s'.draft.history)
    (hmessages : s'.draft.messages = s.draft.messages)
    (hdiagnostic : ∀ id, (s'.draft.marker id).diagnostic = (s.draft.marker id).diagnostic)
    (hstate : ∀ id, (s.draft.marker id).state = .error →
      (s'.draft.marker id).state = (s.draft.marker id).state)
    (hahead : s.draft.ahead = ts ++ s'.draft.ahead) : Takes s s' {significantKinds ts} where
  told := by
    refine ⟨hfit, hstarted, fun message hmessage => ?_⟩
    rw [hmessages] at hmessage
    obtain ⟨id, diagnostic, hstart, herror, hd, htext⟩ := h.told message hmessage
    exact ⟨id, diagnostic, hhistory id hstart, (hstate id herror).trans herror,
      (hdiagnostic id).trans hd, htext⟩
  reported message hmessage := by rwa [hmessages]
  diagnosed id diagnostic hd := .inl ((hdiagnostic id).symm.trans hd)
  taken := ⟨ts, hahead, fun _ => rfl⟩

end Takes

namespace Draft

theorem significantKinds_advance {d : Draft} {ts : List Token}
    (hahead : d.ahead = ts ++ d.advance.ahead) (hk : d.current.kind ≠ .eof) :
    significantKinds ts = [d.current.kind] := by
  rcases d.advance_cases with ⟨blank, t, rest, hcut, hblank, ht, hcur, hadv⟩ | ⟨hblank, -⟩
  · have hts : ts ++ rest = (blank ++ [t]) ++ rest := by
      rw [hadv] at hahead
      rw [← hahead, hcut, List.append_assoc, List.singleton_append]
    unfold Token.isTrivia at ht
    rw [List.append_cancel_right hts, significantKinds_append, significantKinds_blank hblank, hcur]
    simp [significantKinds, ht]
  · rcases d.current_cases with ⟨front, rest, hcut, -, hcur⟩ | ⟨-, hcur⟩
    · rw [hblank d.current (by rw [hcut]; simp)] at hcur
      cases hcur
    · rw [hcur] at hk
      exact absurd rfl hk

end Draft

namespace Production

variable {α : Type} {s s₀ s₁ s' : ParseState} {L M : Language TokenKind} {m : MarkerId}

/-! ### Tokens -/

/-- Consuming the next token, whatever it is. -/
theorem advance_takes (h : Takes s₀ s L) : advance.Ensures s fun _ s' =>
    ∃ ts, Takes s₀ s' (L * {significantKinds ts}) ∧
      (s.draft.current.kind ≠ .eof → significantKinds ts = [s.draft.current.kind]) := by
  obtain ⟨ts, hreads, -⟩ := reads_advance h.told.toFit
  refine ensures_modify.mpr ⟨ts, h.trans ?_, Draft.significantKinds_advance ?_⟩
  · refine .of_same h.told hreads.fit ?_ ?_ ?_ ?_ ?_ ?_
    · intro id hid
      rw [hreads.opened] at hid
      rw [hreads.events]
      exact List.mem_append_right _ (h.told.started id hid)
    · intro id hid
      rw [hreads.events]
      exact List.mem_append_right _ hid
    · rfl
    · exact fun _ => rfl
    · exact fun _ _ => rfl
    · simpa using hreads.ahead
  · simpa using hreads.ahead

theorem advance_oneOf {kinds : List TokenKind} (h : Takes s₀ s L)
    (hcur : s.draft.current.kind ∈ kinds) (hkinds : .eof ∉ kinds) :
    advance.Ensures s fun _ s' => Takes s₀ s' (L * (Form.oneOf kinds).language) := by
  refine (advance_takes h).mono fun _ s' hs' => ?_
  obtain ⟨ts, hts, hword⟩ := hs'
  refine hts.mono (mul_le_mul_right ?_ L)
  rw [hword fun heof => hkinds (heof ▸ hcur)]
  rintro w rfl
  exact .oneOf hcur

theorem advance_token {k : TokenKind} (h : Takes s₀ s L) (hcur : s.draft.current.kind = k)
    (hk : k ≠ .eof) :
    advance.Ensures s fun _ s' => Takes s₀ s' (L * (Form.token k).language) :=
  advance_oneOf h (by simp [hcur]) (by simpa using hk.symm)

theorem advance_current (s : ParseState) :
    advance.Ensures s fun _ s' => s'.draft.current = s.draft.lookahead 1 :=
  ensures_modify.mpr s.draft.current_advance

/-- Once a fault is on record, tokens may be passed over. -/
theorem advance_fault (h : Takes s₀ s 0) : advance.Ensures s fun _ s' => Takes s₀ s' 0 := by
  refine (advance_takes h).mono fun _ s' hs' => ?_
  obtain ⟨ts, hts, -⟩ := hs'
  simpa using hts

theorem accept_takes {k : TokenKind} (h : Takes s₀ s L) (hk : k ≠ .eof) :
    (accept k).Ensures s fun found s' =>
      (found = true ∧ Takes s₀ s' (L * (Form.token k).language)) ∨ (found = false ∧ s' = s) := by
  unfold accept
  simp only [ensures_bind, ensures_at?]
  split
  · next hat =>
    have hcur : s.draft.current.kind = k := by simpa [Draft.at?] using hat
    rw [ensures_bind]
    exact (advance_token h hcur hk).mono fun _ s' hs' => ensures_pure.mpr (.inl ⟨rfl, hs'⟩)
  · exact ensures_pure.mpr (.inr ⟨rfl, rfl⟩)

theorem accept_optional {k : TokenKind} (h : Takes s₀ s L) (hk : k ≠ .eof) :
    (accept k).Ensures s fun _ s' => Takes s₀ s' (L * (Form.optional (.token k)).language) := by
  refine (accept_takes h hk).mono fun found s' hs' => ?_
  rcases hs' with ⟨-, hs'⟩ | ⟨-, rfl⟩
  · exact hs'.optional_some
  · exact h.optional_none _

/-! ### Markers -/

/-- A new marker reports nothing. -/
theorem push_takes {d : Draft} {resume : List Token} (h : s.Told)
    (hmarkers : d.markers = s.draft.markers.push { resume })
    (hmessages : d.messages = s.draft.messages)
    (hahead : d.ahead = s.draft.ahead) (htextEnd : d.textEnd = s.draft.textEnd)
    (hknown : ∀ id ∈ d.opened, id ∈ s.draft.opened ∨ id = s.draft.markers.size)
    (hhistory : ∀ id, .start id ∈ d.history ↔
      .start id ∈ s.draft.history ∨ id = s.draft.markers.size) :
    Takes s { s with draft := d } 1 := by
  have hmarker (id : MarkerId) : d.marker id =
      if id = s.draft.markers.size then { resume } else s.draft.marker id := by
    unfold Draft.marker
    rw [hmarkers]
    exact s.draft.marker_push { resume } id
  have hnew : s.draft.marker s.draft.markers.size = {} := by
    unfold Draft.marker
    rw [Array.getD_eq_getD_getElem?, Array.getElem?_eq_none (Nat.le_refl _)]
    rfl
  have hsize : d.markers.size = s.draft.markers.size + 1 := by rw [hmarkers, Array.size_push]
  refine @Takes.of_same s _ [] h ⟨?_, ?_, ?_⟩ ?_ ?_ hmessages ?_ ?_ hahead.symm
  · dsimp only
    rw [hahead, htextEnd]
    exact h.tiles
  · dsimp only
    rw [hahead]
    exact h.solid
  · intro id hid
    rcases hknown id hid with hid | rfl
    · exact Nat.lt_of_lt_of_le (h.known id hid) (hsize ▸ Nat.le_succ _)
    · exact hsize ▸ Nat.lt_succ_self _
  · intro id hid
    rcases hknown id hid with hid | rfl
    · exact (hhistory id).mpr (.inl (h.started id hid))
    · exact (hhistory _).mpr (.inr rfl)
  · exact fun id hid => (hhistory id).mpr (.inl hid)
  · intro id
    dsimp only
    rw [hmarker]
    split
    · next hid => rw [hid, hnew]
    · rfl
  · intro id herror
    dsimp only
    rw [hmarker, if_neg]
    rintro rfl
    rw [hnew] at herror
    cases herror

theorem openMarker_takes (h : Takes s₀ s L) : openMarker.Ensures s fun _ s' => Takes s₀ s' L ∧
    s'.draft.current = s.draft.current := by
  have hpush : openMarker.Ensures s fun _ s' => Takes s s' 1 := by
    refine ensures_recordNew.mpr fun m d hopen => ?_
    unfold Draft.openMarker at hopen
    split at hopen
    · cases hopen
    · cases hopen
      refine push_takes h.told rfl rfl rfl rfl (fun id hid => ?_) fun id => ?_
      · exact (List.mem_cons.mp hid).symm
      · simp [or_comm]
  refine (hpush.and (openMarker_ensures h.told.toFit)).mono fun m s' hs' => ?_
  exact ⟨h.pass hs'.1, hs'.2.2.1⟩

theorem openMarker_lookahead (s : ParseState) (n : Nat) :
    openMarker.Ensures s fun _ s' => s'.draft.lookahead n = s.draft.lookahead n := by
  refine ensures_recordNew.mpr fun m d hopen => ?_
  unfold Draft.openMarker at hopen
  split at hopen
  · cases hopen
  · cases hopen
    rfl

theorem mem_insertOutside {inner outer id : MarkerId} {opened : List MarkerId}
    (h : id ∈ insertOutside inner outer opened) : id ∈ opened ∨ id = outer := by
  induction opened with
  | nil => cases h
  | cons m ms ih =>
    unfold insertOutside at h
    split at h
    · simp only [List.mem_cons] at h ⊢
      tauto
    · rcases List.mem_cons.mp h with rfl | h
      · exact .inl (by simp)
      · exact (ih h).imp_left (List.mem_cons_of_mem _)

theorem openBefore_takes (h : Takes s₀ s L) :
    (openBefore m).Ensures s fun _ s' => Takes s₀ s' L ∧
      s'.draft.current = s.draft.current := by
  refine ensures_recordNew.mpr fun m' d hopen => ?_
  have hcut : s.draft.since m ++ s.draft.upTo m = s.draft.history :=
    List.takeWhile_append_dropWhile
  unfold Draft.openBefore at hopen
  split at hopen
  · cases hopen
  · next start earlier hupTo =>
    cases hopen
    refine ⟨h.pass (push_takes h.told rfl rfl rfl rfl (fun id hid => ?_) fun id => ?_), rfl⟩
    · dsimp only at hid
      split at hid
      · exact mem_insertOutside hid
      · exact (List.mem_cons.mp hid).symm
    · rw [← hcut, hupTo]
      simp only [List.mem_append, List.mem_cons, Event.start.injEq]
      tauto

theorem fit_of_closes {d : Draft} (h : s.Told) (hc : s.draft.Closes m d) :
    ({ s with draft := d } : ParseState).Fit ∧ ∀ id ∈ d.opened, .start id ∈ d.history := by
  have hopened : ∀ id ∈ d.opened, id ∈ s.draft.opened := fun id hid => by
    rw [hc.opened]
    exact List.mem_cons_of_mem _ hid
  refine ⟨⟨?_, ?_, ?_⟩, ?_⟩
  · dsimp only
    rw [hc.ahead, hc.textEnd]
    exact h.tiles
  · dsimp only
    rw [hc.ahead]
    exact h.solid
  · intro id hid
    dsimp only
    rw [hc.size]
    exact h.known id (hopened id hid)
  · intro id hid
    rw [hc.history]
    exact List.mem_cons_of_mem _ (h.started id (hopened id hid))

/-- An error marker is not ended once more. -/
theorem ne_of_error {d : Draft} {id : MarkerId} (hopened : (d.marker m).state = .opened)
    (herror : (d.marker id).state = .error) : id ≠ m := by
  rintro rfl
  rw [hopened] at herror
  cases herror

/-- Ending a marker without a report. -/
theorem settle_takes {d : Draft} (h : Takes s₀ s L) (hc : s.draft.Settles m d) :
    Takes s₀ { s with draft := d } L := by
  obtain ⟨hfit, hstarted⟩ := fit_of_closes h.told hc.toCloses
  refine h.pass (@Takes.of_same s _ [] h.told hfit hstarted ?_ hc.messages ?_ ?_ hc.ahead.symm)
  · intro id hid
    dsimp only
    rw [hc.history]
    exact List.mem_cons_of_mem _ hid
  · intro id
    by_cases hid : id = m
    · exact hid ▸ hc.diagnostic
    · exact congrArg Marker.diagnostic (hc.marker id hid)
  · exact fun id herror => congrArg Marker.state (hc.marker id (ne_of_error hc.was_opened herror))

theorem alloc_takes {data : NodeData} {span : Span} (h : Takes s₀ s L) :
    Takes s₀ (s.allocated data span) L where
  told := ⟨⟨h.told.tiles, h.told.solid, h.told.known⟩, h.told.started, h.told.told⟩
  reported := h.reported
  diagnosed := h.diagnosed
  taken := h.taken

theorem close_takes {n : NodeId} (h : Takes s₀ s L) :
    (close m n).Ensures s fun _ s' => Takes s₀ s' L :=
  ensures_close.mpr fun _ hd => settle_takes h (Draft.closeWith_settles h.told.known hd)

theorem finish_takes {start : Nat} {data : NodeData} (h : Takes s₀ s L) :
    (finish m start data).Ensures s fun _ s' => Takes s₀ s' L := by
  unfold finish
  simp only [ensures_bind, ensures_allocFrom, ensures_pure]
  exact close_takes (alloc_takes h)

theorem closeGroup_takes (h : Takes s₀ s L) :
    (closeGroup m).Ensures s fun _ s' => Takes s₀ s' L :=
  ensures_record.mpr fun _ hd => settle_takes h (Draft.closeGroup_settles h.told.known hd)

theorem dissolve_takes (h : Takes s₀ s L) :
    (dissolve m).Ensures s fun _ s' => Takes s₀ s' L :=
  ensures_record.mpr fun _ hd => settle_takes h (Draft.dissolve_settles h.told.known hd)

/-! ### Faults -/

/-- After a report a fault is on record, also if its message was there before. -/
theorem report_takes (h : Takes s₀ s L) (message : String) (span : Span) :
    (report m message span).Ensures s fun _ s' => Takes s₀ s' 0 := by
  refine ensures_record.mpr fun d hd => h.fault ?_
  have htold := Draft.closeError_told h.told.known hd
  have hc : s.draft.Closes m d := htold.elim (·.2.toCloses) (·.toCloses)
  have hopened : (s.draft.marker m).state = .opened := htold.elim (·.2.was_opened) (·.was_opened)
  obtain ⟨hfit, hstarted⟩ := fit_of_closes h.told hc
  have hmem : m ∈ s.draft.opened := by
    rw [hc.opened]
    simp
  have hstart (id : MarkerId) (hid : .start id ∈ s.draft.history) : .start id ∈ d.history := by
    rw [hc.history]
    exact List.mem_cons_of_mem _ hid
  have hold (text : String) (htext : text ∈ s.draft.messages.messages) :
      ∃ id diagnostic, .start id ∈ d.history ∧ (d.marker id).state = .error ∧
        (d.marker id).diagnostic = some diagnostic ∧ diagnostic.message = text := by
    obtain ⟨id, diagnostic, hid, herror, hdiagnostic, hmessage⟩ := h.told.told text htext
    have hkept := hc.marker id (ne_of_error hopened herror)
    rw [← hkept] at herror hdiagnostic
    exact ⟨id, diagnostic, hstart id hid, herror, hdiagnostic, hmessage⟩
  rcases htold with ⟨hsaid, -, hmessages, -, -, hdiagnostic⟩ |
    ⟨-, hnew, hmessages, -, hstate, hdiagnostic⟩
  · refine ⟨⟨hfit, hstarted, fun text htext => hold text (hmessages ▸ htext)⟩, ?_, ?_, [],
      hc.ahead.symm, fun hquiet => ?_⟩
    · exact fun text htext => hmessages.symm ▸ htext
    · intro id diagnostic hid
      by_cases hm : id = m
      · subst hm
        exact .inl (hdiagnostic.symm.trans hid)
      · exact .inl ((congrArg Marker.diagnostic (hc.marker id hm)).symm.trans hid)
    · unfold Quiet at hquiet
      dsimp only at hquiet
      rw [← hmessages, hquiet] at hsaid
      cases hsaid
  · refine ⟨⟨hfit, hstarted, fun text htext => ?_⟩, ?_, ?_, [], hc.ahead.symm, fun hquiet => ?_⟩
    · dsimp only at htext
      rw [hmessages] at htext
      rcases List.mem_cons.mp htext with rfl | htext
      · exact ⟨m, _, hstart m (h.told.started m hmem), hstate, hdiagnostic, rfl⟩
      · exact hold text htext
    · intro text htext
      dsimp only
      rw [hmessages]
      exact List.mem_cons_of_mem _ htext
    · intro id diagnostic hid
      dsimp only at hid
      by_cases hm : id = m
      · subst hm
        rw [hdiagnostic] at hid
        cases hid
        exact .inr hnew
      · exact .inl ((congrArg Marker.diagnostic (hc.marker id hm)).symm.trans hid)
    · unfold Quiet at hquiet
      dsimp only at hquiet
      rw [hmessages] at hquiet
      cases hquiet

theorem reportHere_takes (h : Takes s₀ s L) (source what : String) :
    (reportHere source m what).Ensures s fun _ s' => Takes s₀ s' 0 := by
  unfold reportHere
  simp only [ensures_bind, ensures_current]
  exact report_takes h _ _

/-- A token is taken if it is of the kind expected; otherwise its absence is reported. -/
theorem expect_takes {k : TokenKind} (h : Takes s₀ s L) (hk : k ≠ .eof) (source what : String) :
    (expect source k what).Ensures s fun found s' =>
      (found = true ∧ Takes s₀ s' (L * (Form.token k).language)) ∨
        (found = false ∧ Takes s₀ s' 0) := by
  unfold expect
  rw [ensures_bind]
  refine (accept_takes h hk).mono fun found s₁ hs₁ => ?_
  rcases hs₁ with ⟨rfl, hs₁⟩ | ⟨rfl, rfl⟩
  · exact ensures_pure.mpr (.inl ⟨rfl, hs₁⟩)
  · simp only [Bool.false_eq_true, if_false, ensures_bind, ensures_pure]
    refine (openMarker_takes h).mono fun m s₂ hs₂ => ?_
    exact (reportHere_takes hs₂.1 _ _).mono fun _ s₃ hs₃ => .inr ⟨trivial, hs₃⟩

theorem expect_fault {k : TokenKind} (h : Takes s₀ s L) (hat : s.draft.at? k = false)
    (source what : String) : (expect source k what).Ensures s fun _ s' => Takes s₀ s' 0 := by
  unfold expect accept
  simp only [ensures_bind, ensures_at?, hat, Bool.false_eq_true, if_false, ensures_pure]
  refine (openMarker_takes h).mono fun m s₁ hs₁ => ?_
  exact reportHere_takes hs₁.1 _ _

/-- A token that is expected was taken, unless a fault is on record. -/
theorem expect_token {k : TokenKind} (h : Takes s₀ s L) (hk : k ≠ .eof) (source what : String) :
    (expect source k what).Ensures s fun _ s' => Takes s₀ s' (L * (Form.token k).language) := by
  refine (expect_takes h hk source what).mono fun found s' hs' => ?_
  rcases hs' with ⟨-, hs'⟩ | ⟨-, hs'⟩
  · exact hs'
  · exact hs'.any

theorem skipUnexpected_takes (h : Takes s₀ s L) (source what : String) :
    (skipUnexpected source what).Ensures s fun _ s' => Takes s₀ s' 0 := by
  unfold skipUnexpected
  simp only [ensures_bind, ensures_current]
  refine (openMarker_takes h).mono fun m s₁ hs₁ => ?_
  split
  · rw [ensures_bind]
    refine (advance_takes hs₁.1).mono fun _ s₂ hs₂ => ?_
    obtain ⟨ts, hts, -⟩ := hs₂
    exact report_takes hts _ _
  · exact report_takes hs₁.1 _ _

/-! ### Attempts -/

/-- Taking a marker back forgets what was reported since it was opened, and nothing else. -/
theorem undo_takes {p : List Event} {ns : List NodeId} (h : s₀.Told) (hin : Inside m s₀ s p ns)
    (hs : Takes s₀ s L) : (undo m s₀.lastEnd).Ensures s fun _ s' => Takes s₀ s' 1 := by
  unfold undo
  simp only [ensures_bind, ensures_record, ensures_modify]
  intro d hd
  have hreads := hin.undo h.toFit hd
  have heq := hin.eq_of_undo hd
  set ids := (p.reverse ++ [Event.start m]).filterMap Event.started? with hids
  have hmem (id : MarkerId) : id ∈ ids ↔ .start id ∈ p ∨ id = m := by
    rw [hids, mem_started_iff]
    simp
  have hmessages : d.messages = (ids.foldl Draft.retract s.draft).messages := by rw [heq]
  have hdiagnostic (id : MarkerId) : (d.marker id).diagnostic =
      if id ∈ ids then none else (s.draft.marker id).diagnostic := by
    rw [heq]
    exact Draft.foldl_retract_diagnostic ids s.draft id
  have hkept (id : MarkerId) (hid : id ∉ ids) : d.marker id = s.draft.marker id := by
    rw [heq]
    exact (Draft.foldl_retract ids s.draft).2.2.2.2 id hid
  refine ⟨⟨hreads.fit, fun id hid => ?_, fun message hmessage => ?_⟩, fun message hmessage => ?_,
    fun id diagnostic hid => ?_, [], hreads.ahead, fun _ => rfl⟩
  · rw [hreads.events]
    rw [hreads.opened] at hid
    exact h.started id hid
  · dsimp only at hmessage
    rw [hmessages, Draft.mem_messages_foldl_retract] at hmessage
    obtain ⟨id, diagnostic, hid, herror, hd, htext⟩ := hs.told.told message hmessage.1
    have hfresh : id ∉ ids := fun hid => hmessage.2 id hid diagnostic hd htext
    refine ⟨id, diagnostic, ?_, ?_, ?_, htext⟩
    · rw [hreads.events]
      rw [hin.events, List.mem_append, List.mem_reverse, List.mem_cons] at hid
      rcases hid with hid | hid | hid
      · exact absurd ((hmem id).mpr (.inl hid)) hfresh
      · cases hid
        exact absurd ((hmem m).mpr (.inr rfl)) hfresh
      · exact hid
    · exact (congrArg Marker.state (hkept id hfresh)).trans herror
    · exact (congrArg Marker.diagnostic (hkept id hfresh)).trans hd
  · dsimp only
    rw [hmessages, Draft.mem_messages_foldl_retract]
    refine ⟨hs.reported message hmessage, fun id hid diagnostic hd htext => ?_⟩
    have hle : s₀.draft.markers.size ≤ id := by
      rcases (hmem id).mp hid with hid | rfl
      · exact (hin.fresh id hid).1
      · exact hin.new.1
    rcases hs.diagnosed id diagnostic hd with hold | hnew
    · unfold Draft.marker at hold
      rw [Array.getD_eq_getD_getElem?, Array.getElem?_eq_none hle] at hold
      cases hold
    · exact hnew (htext ▸ hmessage)
  · dsimp only at hid
    rw [hdiagnostic] at hid
    split at hid
    · cases hid
    · exact hs.diagnosed id diagnostic hid

/-! ### Loops -/

/-- If a word was taken, the next token is another one. -/
theorem current_ne_of_takes (h : s₀.Fit) (hs : Takes s₀ s L) (hnil : [] ∉ L)
    (hk : s₀.draft.current.kind ≠ .eof) (hquiet : s.Quiet) :
    s.draft.current ≠ s₀.draft.current := by
  obtain ⟨ts, hahead, hword⟩ := hs.taken
  have hts : ¬ ∀ t ∈ ts, t.isTrivia = true := fun hblank =>
    hnil (significantKinds_blank hblank ▸ hword hquiet)
  obtain ⟨start, -, htiles⟩ := h.tiles
  have hsolid := h.current_lt hk
  intro hsame
  rcases s₀.draft.current_cases with ⟨blank, rest, hcut, hblank, -⟩ | ⟨-, hend⟩
  · rcases s.draft.current_cases with ⟨blank', rest', hcut', -, -⟩ | ⟨-, hend⟩
    · rw [hcut] at hahead
      rcases List.append_eq_append_iff.mp hahead.symm with
        ⟨front, hfront, -⟩ | ⟨front, hfront, hrest⟩
      · exact hts fun t ht => hblank t (by rw [hfront]; exact List.mem_append_left _ ht)
      · cases front with
        | nil => exact hts fun t ht => hblank t (by simpa [hfront] using ht)
        | cons t front =>
          replace hrest : rest = front ++ s.draft.ahead := (List.cons.inj hrest).2
          have hall : s₀.draft.ahead = blank ++ s₀.draft.current ::
              ((front ++ blank') ++ s.draft.current :: rest') := by
            rw [hcut, hrest, List.append_assoc, ← hcut']
          rw [hall] at htiles
          have hle := htiles.start_le.2.2.start_le.1
          rw [hsame] at hle
          exact Nat.lt_irrefl _ (Nat.lt_of_lt_of_le hsolid hle)
    · rw [← hsame, hend] at hk
      exact hk rfl
  · rw [hend] at hk
    exact hk rfl

/-- A step that consumes no token has reported one. -/
theorem skipIfStuck_takes (h : s₀.Fit) (hs : Takes s₀ s L) (hnil : [] ∉ L)
    (hk : s₀.draft.current.kind ≠ .eof) :
    (skipIfStuck s₀.draft.current).Ensures s fun _ s' => Takes s₀ s' L := by
  unfold skipIfStuck
  simp only [ensures_bind, ensures_current]
  split
  · next hstuck =>
    have hloud : ¬ s.Quiet := fun hquiet => current_ne_of_takes h hs hnil hk hquiet hstuck
    exact (advance_fault (hs.of_loud hloud)).mono fun _ s' hs' => hs'.any
  · exact ensures_pure.mpr hs

theorem separated_takes {item : Production α} {f : Form} (h : Takes s₀ s L)
    (hitem : ∀ s', s'.Told → item.Ensures s' fun _ s'' => Takes s' s'' f.language) :
    (separated item).Ensures s fun _ s' => Takes s₀ s' (L * (Form.separated f).language) := by
  unfold separated
  refine repeatFrom_ensures (fun _ s' =>
    Takes s₀ s' (L * (f.language * (Form.token .comma).language)∗))
    (h.mono (Form.le_mul_kstar L _)) ?_
  · intro read s₁ h₁
    simp only [ensures_bind]
    refine (hitem s₁ h₁.told).mono fun a s₂ h₂ => ?_
    refine (accept_takes h₂ (by decide)).mono fun found s₃ h₃ => ?_
    rcases h₃ with ⟨rfl, h₃⟩ | ⟨rfl, rfl⟩
    · exact ensures_pure.mpr ((h₁.trans h₃).mono (Form.mul_kstar_mul_le L _))
    · refine ensures_pure.mpr ((h₁.trans h₂).mono ?_)
      rw [mul_assoc, Form.language_separated]
      exact mul_le_mul_right (Form.kstar_slide _ _) L

end Production

end ScriptAnalysis
