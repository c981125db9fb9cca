import ScriptAnalysis.Proofs.Grammar.Statements
import ScriptAnalysis.Proofs.Token.Cover

/-!
# Scripts always succeed

The parse of a script succeeds on every list of tokens that ends with the end of the text, and on
every text.  What it hands over (`Transcript.RecordsScript`) is one marker around all tokens, the
class of the script, with balanced markers in it.
-/

namespace ScriptAnalysis

open Production

variable {r : Rules} {n : Nat} {s : ParseState}

namespace Script

/-! ### The parts of a script -/

theorem package_yields (source : String) (h : s.draft.Ready) (hk : s.draft.current.kind ≠ .eof) :
    (package source).Yields s fun _ s' => s.draft.Grows s'.draft := by
  unfold package
  simp only [yields_bind]
  apply (advance_yields h hk).mono
  intro _ s₁ h₁
  refine (openMarker_yields h₁.grows.ready).mono ?_
  rintro m s₂ ⟨hw, -, -⟩
  rw [yields_here]
  apply (Rules.dottedPath_yields source hw.ready).mono
  intro path s₃ h₃
  rcases h₃ with ⟨-, hp, h₃⟩ | ⟨-, rfl, h₃⟩
  · obtain ⟨p, rfl⟩ := Option.isSome_iff_exists.mp hp
    simp only [yields_bind]
    apply (finish_yields (hw.trans h₃.grows) h₃.started _ _).mono
    intro _ s₄ h₄
    exact yields_pure.mpr (h₁.grows.trans h₄.wraps.grows)
  · simp only [yields_bind]
    rw [← h₃] at hw
    apply (reportHere_yields hw _ _).mono
    intro _ s₄ h₄
    exact yields_pure.mpr (h₁.grows.trans h₄.wraps.grows)

theorem importDecl_yields (source : String) (h : s.draft.Ready)
    (hk : s.draft.current.kind ≠ .eof) :
    (importDecl source).Yields s fun _ s' => s.draft.Grows s'.draft := by
  unfold importDecl
  rw [yields_bind]
  refine (openMarker_yields h).mono ?_
  rintro m s₁ ⟨hw, -, hcur⟩
  rw [yields_bind, yields_here, yields_bind]
  apply (advance_yields hw.ready (hcur ▸ hk)).mono
  intro _ s₂ h₂
  have finished : ∀ data s', s₂.draft.Grows s'.draft →
      (finish m s₁.draft.current.offset data).Yields s' fun _ s'' => s.draft.Grows s''.draft := by
    intro data s' hg
    have hc := h₂.trans_grows hg
    exact (finish_yields (hw.trans hc.grows) hc.started _ _).mono fun _ _ h' => h'.wraps.grows
  rw [yields_bind]
  apply (Rules.dottedPath_yields source h₂.grows.ready).mono
  intro found s₃ h₃
  extract_lets noName goOn
  have hgoOn : ∀ path s', s₂.draft.Grows s'.draft →
      (goOn path).Yields s' fun _ s'' => s.draft.Grows s''.draft := by
    intro path s' hg
    simp only [goOn, yields_bind]
    apply (accept_yields hg.ready (by decide)).mono
    intro renamed s₄ h₄
    split
    · simp only [yields_bind, yields_current]
      apply (expect_yields h₄.1.ready (by decide) _ _).mono
      intro named s₅ h₅
      have hg₅ := hg.trans (h₄.1.trans h₅.1)
      split
      · exact finished _ s₅ hg₅
      · exact finished _ s₅ hg₅
    · exact finished _ s₄ (hg.trans h₄.1)
  rcases h₃ with ⟨-, hp, h₃⟩ | ⟨-, rfl, h₃⟩
  · obtain ⟨path, rfl⟩ := Option.isSome_iff_exists.mp hp
    exact hgoOn path s₃ h₃.grows
  · simp only [yields_bind]
    have hg₃ : s₂.draft.Grows s₃.draft := by
      rw [h₃]
      exact Draft.Grows.refl h₂.grows.ready
    apply (expect_yields hg₃.ready (by decide) _ _).mono
    intro _ s₄ h₄
    exact yields_pure.mpr (hgoOn "" s₄ (hg₃.trans h₄.1))

theorem part_yields (hr : r.SafeBelow n) (h : s.draft.Ready) (hn : s.draft.ahead.length < n)
    (read : PartsRead) : (part r read).Yields s fun _ s' => s.draft.Grows s'.draft := by
  unfold part
  rw [yields_bind, yields_kind]
  split
  · next hk =>
    simp only [yields_bind]
    apply (importDecl_yields _ h (by simp [hk])).mono
    intro decl s₁ h₁
    apply (accept_yields h₁.ready (by decide)).mono
    intro _ s₂ h₂
    exact yields_pure.mpr (h₁.trans h₂.1)
  · next hk =>
    rw [yields_bind]
    exact (hr.classDecl s h (by simp [hk]) hn).mono fun _ _ hg => yields_pure.mpr hg
  · rw [yields_bind]
    exact (hr.statement s h hn).mono fun _ _ hg => yields_pure.mpr hg

/-- The parts are read up to the end of the text. -/
theorem parts_yields (hr : r.SafeBelow n) (h : s.draft.Ready) (hn : s.draft.ahead.length < n) :
    (parts r).Yields s fun _ s' => s.draft.Grows s'.draft ∧ s'.draft.current.kind = .eof := by
  unfold parts
  refine repeatFrom_yields (fun _ s' => s.draft.Grows s'.draft) (Draft.Grows.refl h) ?_
  intro read s' hg
  rw [yields_bind, yields_atEnd]
  split
  · next hend => exact yields_pure.mpr ⟨hg, by simpa [Draft.atEnd, Draft.at?] using hend⟩
  · next hend =>
    have hk : s'.draft.current.kind ≠ .eof := by
      intro he
      simp [Draft.atEnd, Draft.at?, he] at hend
    simp only [yields_bind, yields_current]
    apply (part_yields hr hg.ready (Nat.lt_of_le_of_lt hg.length_le hn) read).mono
    intro read s₁ h₁
    apply (skipIfStuck_yields hg.ready h₁ hk).mono
    intro _ s₂ h₂
    exact yields_pure.mpr ⟨hg.trans h₂.1, h₂.2⟩

end Script

/-! ### The end of a script -/

/-- The record of a whole script: everything is in one marker, that of the class `root`, and the
    last token in it ends the text. -/
structure Transcript.RecordsScript (t : Transcript) (root : NodeId) (ast : Ast) (m : MarkerId)
    (body : List Event) (last : Token) : Prop where
  events : t.events = .start m :: body ++ [.token last, .stop m]
  balanced : Balanced body
  fresh : .start m ∉ body
  last_kind : last.kind = .eof
  noEarlyNode : ∀ id, .stop id ∈ leadIn body →
    (t.marker id).state = .dropped ∨ (t.marker id).state = .error
  state : (t.marker m).state = .done
  kind : (t.marker m).kind = some .classDecl
  node : (t.marker m).node = some root
  data : ∃ decl, ast.data? root = some (.classDecl decl)

namespace Draft

/-- At the end of the text there is nothing after the next token. -/
theorem advance_at_eof {d : Draft} (h : EndsWithEof d.ahead) (hk : d.current.kind = .eof) :
    ∃ blank t, t.kind = .eof ∧ d.ahead = blank ++ [t] ∧ d.current = t ∧
      d.advance = { d with
        ahead := [], history := ((blank ++ [t]).map .token).reverse ++ d.history } := by
  rcases advance_cases d with ⟨blank, t, rest, he, -, -, hcur, hadv⟩ | ⟨hb, -⟩
  · rw [hcur] at hk
    have hrest : rest = [] := by
      obtain ⟨body, last, heq, -, hbody⟩ := h
      rcases List.eq_nil_or_concat rest with rfl | ⟨init, x, rfl⟩
      · rfl
      · rw [he, List.concat_eq_append, ← List.cons_append, ← List.append_assoc] at heq
        obtain ⟨rfl, -⟩ := List.append_inj' heq rfl
        exact absurd hk (hbody t (by simp))
    subst hrest
    exact ⟨blank, t, hk, he, hcur, hadv⟩
  · exact absurd hb h.not_all_trivia

/-- What is known of the innermost marker once it is ended as a node. -/
theorem closeAs_eq {d : Draft} {m : MarkerId} {outer : List MarkerId}
    (hstate : (d.marker m).state = .opened) (hopened : d.opened = m :: outer)
    (hm : m < d.markers.size) (node : NodeId) (kind : NodeKind) :
    ∃ d', d.closeAs m node kind = .ok d' ∧ d'.ahead = d.ahead ∧
      d'.events = d.events ++ [.stop m] ∧ d'.opened = outer ∧
      (d'.marker m).state = .done ∧ (d'.marker m).kind = some kind ∧
      (d'.marker m).node = some node ∧ ∀ id, id ≠ m → d'.marker id = d.marker id := by
  let record : Marker := { d.marker m with state := .done, offset := d.startOffset m }
  let d₁ : Draft := { d with
    markers := d.markers.setIfInBounds m record
    history := .stop m :: d.history
    opened := outer }
  have hclose : d.close m .done = .ok d₁ := by simp [close, hstate, hopened, record, d₁]
  have hsize : m < d₁.markers.size := by simpa [d₁] using hm
  have hmarker : ∀ id, d₁.marker id = if m = id then record else d.marker id :=
    fun id => d.marker_setIfInBounds m id record hm
  let complete (r : Marker) : Marker :=
    { r with kind := some kind, node := some node, nameMarker := d₁.nameMarker? m kind }
  refine ⟨d₁.modifyMarker m complete, ?_, rfl, ?_, rfl, ?_⟩
  · simp only [closeAs, hclose]
    rfl
  · simp [d₁, events, modifyMarker]
  · have hm₁ := fun id => d₁.marker_modify m id complete hsize
    refine ⟨by rw [hm₁, if_pos rfl, hmarker, if_pos rfl], by rw [hm₁, if_pos rfl],
      by rw [hm₁, if_pos rfl], ?_⟩
    intro id hid
    rw [hm₁, if_neg (Ne.symm hid), hmarker, if_neg (Ne.symm hid)]

variable {tokens : List Token}

theorem ofTokens_ready (h : EndsWithEof tokens) : (ofTokens tokens none).Ready :=
  ⟨rfl, by simp [ofTokens], by simp [NoEarlyNode, ofTokens, events, leadIn], h⟩

/-- Once the marker of a script is ended at the end of the text, the recording is complete. -/
theorem closeAs_records {d : Draft} {m : MarkerId}
    (hw : (ofTokens tokens none).Within m d) (hk : d.current.kind = .eof) {node : NodeId}
    {ast : Ast} {decl : ClassDecl} (hdata : ast.data? node = some (.classDecl decl)) :
    ∃ d' body last, d.advance.closeAs m node .classDecl = .ok d' ∧ d'.ahead = [] ∧
      d'.opened = [] ∧ tokensIn d'.events = tokens ∧
      Transcript.RecordsScript ⟨d'.events, d'.markers⟩ node ast m body last := by
  obtain ⟨blank, t, ht, hahead, -, hadv⟩ := advance_at_eof hw.ready.endsWithEof hk
  obtain ⟨p, hp, bp, fp, op, sp, -⟩ := hw
  have hm : m < d.markers.size := (hp.fresh m (by simp)).2
  have hmarkers : d.advance.markers = d.markers := by rw [hadv]
  have hmarker : ∀ id, d.advance.marker id = d.marker id := fun id => by
    rw [marker, hmarkers, marker]
  have hevents : d.events = .start m :: p := hp.events
  have hopen : (d.advance.marker m).state = .opened := by rw [hmarker, sp]
  have hopened : d.advance.opened = [m] := by
    rw [hadv]
    exact op
  obtain ⟨d', hok, ha, he, ho, hs, hkind, hnode, hother⟩ :=
    closeAs_eq hopen hopened (by rw [hmarkers]; exact hm) node .classDecl
  have hevents' : d'.events = .start m :: (p ++ blank.map .token) ++ [.token t, .stop m] := by
    have hrec : d.advance.events = d.events ++ (blank ++ [t]).map .token := by
      rw [hadv]
      simp [events]
    rw [he, hrec, hevents]
    simp
  refine ⟨d', p ++ blank.map .token, t, hok, ?_, ho, ?_, ?_⟩
  · rw [ha, hadv]
  · rw [hevents']
    have htokens : tokens = tokensIn p ++ d.ahead := hp.tokens
    rw [htokens, hahead]
    simp
  · refine ⟨hevents', bp.append (Balanced.tokens _), ?_, ht, ?_, hs, hkind, hnode, decl, hdata⟩
    · simpa using fp
    · intro id hid
      rcases mem_leadIn_append hid with hid | ⟨-, hid⟩
      · have hstate := hp.ready.noEarlyNode id (by
          rw [hevents]
          exact List.mem_cons_of_mem _ hid)
        have hne : id ≠ m := by
          rintro rfl
          simp [sp] at hstate
        have hsame : Transcript.marker ⟨d'.events, d'.markers⟩ id = d.marker id :=
          (hother id hne).trans (hmarker id)
        rw [hsame]
        exact hstate
      · have := leadIn_subset _ hid
        simp at this

end Draft

/-! ### Whole scripts -/

/-- The production of a script succeeds, whatever the tokens before the end of the text are. -/
theorem Script.script_yields (source : String) {tokens : List Token} (h : EndsWithEof tokens) :
    (script source).Yields { draft := Draft.ofTokens tokens none } fun root s' =>
      s'.draft.ahead = [] ∧ s'.draft.opened = [] ∧ tokensIn s'.draft.events = tokens ∧
      ∃ m body last, Transcript.RecordsScript ⟨s'.draft.events, s'.draft.markers⟩ root s'.ast m
        body last := by
  unfold script
  rw [yields_bind]
  refine (openMarker_yields (Draft.ofTokens_ready h)).mono ?_
  rintro m s₁ ⟨hw, -, -⟩
  rw [yields_bind, yields_here]
  extract_lets undeclared goOn
  have hgoOn : ∀ declared s', s₁.draft.Grows s'.draft →
      (goOn () declared).Yields s' fun root s'' =>
        s''.draft.ahead = [] ∧ s''.draft.opened = [] ∧ tokensIn s''.draft.events = tokens ∧
        ∃ m body last, Transcript.RecordsScript ⟨s''.draft.events, s''.draft.markers⟩ root s''.ast
          m body last := by
    intro declared s' hg
    simp only [goOn, yields_bind, yields_get]
    refine (parts_yields (Rules.upTo_safeBelow source declared _) hg.ready
      (Nat.lt_succ_self _)).mono ?_
    rintro read s₂ ⟨h₂, heof⟩
    have hw₂ := hw.trans (hg.trans h₂)
    unfold allocFrom
    simp only [yields_bind, yields_spanFrom]
    apply (alloc_yields _ _).mono
    intro body s₃ h₃
    unfold advance
    rw [yields_modify]
    simp only [yields_current]
    apply (alloc_yields _ _).mono
    intro node s₄ h₄
    have hdraft : s₄.draft = s₂.draft.advance := h₄.1.trans (congrArg Draft.advance h₃.1)
    obtain ⟨d', body', last, hok, ha, ho, ht, hrec⟩ := Draft.closeAs_records hw₂ heof h₄.2
    refine ⟨(), { s₄ with draft := d' }, ?_, yields_pure.mpr ⟨ha, ho, ht, m, body', last, hrec⟩⟩
    have hclose : s₄.draft.closeWith m node s₄.ast = .ok d' := by
      unfold Draft.closeWith
      rw [h₄.2, hdraft]
      exact hok
    unfold close
    rw [StateT.run, hclose]
    rfl
  rw [yields_bind, yields_at?]
  split
  · next hat =>
    have hk : s₁.draft.current.kind ≠ .eof := by
      intro he
      simp [Draft.at?, he] at hat
    simp only [yields_bind]
    apply (package_yields source hw.ready hk).mono
    intro declared s₂ h₂
    apply (accept_yields h₂.ready (by decide)).mono
    intro _ s₃ h₃
    exact hgoOn declared s₃ (h₂.trans h₃.1)
  · exact hgoOn none s₁ (Draft.Grows.refl hw.ready)

/-- A parse of a script succeeds on any tokens that end with the end of the text, and its
    transcript records all of them under the marker of one class. -/
theorem parseWith_script (source : String) {tokens : List Token} (h : EndsWithEof tokens) :
    ∃ p m body last, parseWith (Script.script source) tokens = .ok p ∧
      tokensIn p.transcript.events = tokens ∧
      p.transcript.RecordsScript p.root p.ast m body last := by
  obtain ⟨root, s', hrun, ha, ho, ht, m, body, last, hrec⟩ := Script.script_yields source h
  refine ⟨⟨root, s'.ast, ⟨s'.draft.events, s'.draft.markers⟩⟩, m, body, last, ?_, ht, hrec⟩
  have htranscript : s'.draft.toTranscript = .ok ⟨s'.draft.events, s'.draft.markers⟩ := by
    unfold Draft.toTranscript
    rw [ho, ha]
    simp
  unfold parseWith
  rw [hrun]
  simp only [htranscript, bind, Except.bind, pure, Except.pure]

/-- The parse of a script hands over what its production leaves. -/
theorem parseScript_run {text : String} {p : Parse} (h : parseScript text = .ok p) :
    ∃ root s, (Script.script text).run { draft := Draft.ofTokens (scan text) none } =
      .ok (root, s) ∧
      s.draft.ahead = [] ∧ p = ⟨root, s.ast, ⟨s.draft.events, s.draft.markers⟩⟩ := by
  obtain ⟨root, s, hrun, hahead, hopened, -⟩ :=
    Script.script_yields text (scan_endsWithEof text)
  have htranscript : s.draft.toTranscript = .ok ⟨s.draft.events, s.draft.markers⟩ := by
    unfold Draft.toTranscript
    rw [hopened, hahead, List.map_nil, List.append_nil]
  unfold parseScript parseWith at h
  rw [hrun] at h
  simp only [htranscript, bind, Except.bind, pure, Except.pure] at h
  exact ⟨root, s, hrun, hahead, (Except.ok.inj h).symm⟩

/-! ### Parses that are computed -/

section

variable {text : String} {P : Parse → Prop} [DecidablePred P]

/-- What can be computed of a text holds of its parse. -/
theorem of_parse {p : Parse} (hp : parseScript text = .ok p)
    (h : (parseScript text).toOption.any (fun p => decide (P p)) = true) : P p := by
  rw [hp] at h
  exact of_decide_eq_true h

theorem exists_of_parse (h : (parseScript text).toOption.any (fun p => decide (P p)) = true) :
    ∃ p, parseScript text = .ok p ∧ P p := by
  obtain ⟨p, -, -, -, hp, -⟩ := parseWith_script text (scan_endsWithEof text)
  exact ⟨p, hp, of_parse hp h⟩

end

end ScriptAnalysis
