import ScriptAnalysis.Proofs.Grammar.Contract
import ScriptAnalysis.Proofs.Grammar.Reading
import ScriptAnalysis.Proofs.Recording.Naming

/-!
# What a production does if it succeeds

`p.Ensures s Q` says that `Q` holds of the answer of `p` and of the state that it leaves, if `p`
succeeds from `s`.  The laws for sequences and loops come first, then what each building block of
productions reads.
-/

namespace ScriptAnalysis

open ParseState

namespace Production

variable {α β : Type} {s : ParseState}

/-- If the production succeeds from `s`, then `Q` holds of its answer and of the state it leaves. -/
def Ensures (p : Production α) (s : ParseState) (Q : α → ParseState → Prop) : Prop :=
  ∀ a s', p.run s = .ok (a, s') → Q a s'

/-! ### Sequences -/

theorem Ensures.mono {p : Production α} {Q R : α → ParseState → Prop} (h : p.Ensures s Q)
    (hQR : ∀ a s', Q a s' → R a s') : p.Ensures s R :=
  fun a s' hrun => hQR a s' (h a s' hrun)

theorem Ensures.and {p : Production α} {Q R : α → ParseState → Prop} (h : p.Ensures s Q)
    (k : p.Ensures s R) : p.Ensures s fun a s' => Q a s' ∧ R a s' :=
  fun a s' hrun => ⟨h a s' hrun, k a s' hrun⟩

@[simp] theorem ensures_pure {a : α} {Q : α → ParseState → Prop} :
    (pure a : Production α).Ensures s Q ↔ Q a s := by
  constructor
  · intro h
    exact h a s rfl
  · intro h b s' hrun
    cases hrun
    exact h

@[simp] theorem ensures_bind {p : Production α} {f : α → Production β}
    {Q : β → ParseState → Prop} :
    (p >>= f).Ensures s Q ↔ p.Ensures s fun a s' => (f a).Ensures s' Q := by
  constructor
  · intro h a s' hp b s'' hf
    refine h b s'' ?_
    rw [StateT.run_bind, hp]
    exact hf
  · intro h b s'' hrun
    rw [StateT.run_bind] at hrun
    cases hp : p.run s with
    | error e =>
      rw [hp] at hrun
      cases hrun
    | ok r =>
      rw [hp] at hrun
      exact h r.1 r.2 hp b s'' hrun

@[simp] theorem ensures_map {p : Production α} {f : α → β} {Q : β → ParseState → Prop} :
    (f <$> p).Ensures s Q ↔ p.Ensures s fun a s' => Q (f a) s' := by
  rw [← bind_pure_comp]
  simp only [ensures_bind, ensures_pure]

theorem ensures_throw {e : Fault} {Q : α → ParseState → Prop} :
    (throw e : Production α).Ensures s Q := fun _ _ hrun => by cases hrun

/-! ### Reading the state -/

@[simp] theorem ensures_get {Q : ParseState → ParseState → Prop} :
    (get : Production ParseState).Ensures s Q ↔ Q s s := ensures_pure (a := s)

@[simp] theorem ensures_current {Q : Token → ParseState → Prop} :
    current.Ensures s Q ↔ Q s.draft.current s := by
  simp [current]

@[simp] theorem ensures_kind {Q : TokenKind → ParseState → Prop} :
    kind.Ensures s Q ↔ Q s.draft.current.kind s := by
  simp [kind]

@[simp] theorem ensures_kindAfter {n : Nat} {Q : TokenKind → ParseState → Prop} :
    (kindAfter n).Ensures s Q ↔ Q (s.draft.lookahead n).kind s := by
  simp [kindAfter]

@[simp] theorem ensures_at? {k : TokenKind} {Q : Bool → ParseState → Prop} :
    (at? k).Ensures s Q ↔ Q (s.draft.at? k) s := by
  simp [at?]

@[simp] theorem ensures_atEnd {Q : Bool → ParseState → Prop} :
    atEnd.Ensures s Q ↔ Q s.draft.atEnd s := by
  simp [atEnd]

@[simp] theorem ensures_here {Q : Nat → ParseState → Prop} :
    here.Ensures s Q ↔ Q s.draft.current.offset s := by
  simp [here]

@[simp] theorem ensures_spanFrom {start : Nat} {Q : Span → ParseState → Prop} :
    (spanFrom start).Ensures s Q ↔ Q ⟨start, max s.lastEnd start⟩ s := by
  simp [spanFrom]

@[simp] theorem ensures_modify {f : ParseState → ParseState} {Q : Unit → ParseState → Prop} :
    (modify f : Production Unit).Ensures s Q ↔ Q () (f s) :=
  ⟨fun h => h () (f s) rfl, fun h _ _ hrun => by cases hrun; exact h⟩

@[simp] theorem ensures_alloc {data : NodeData} {span : Span} {Q : NodeId → ParseState → Prop} :
    (alloc data span).Ensures s Q ↔ Q s.ast.size (s.allocated data span) :=
  ⟨fun h => h _ _ rfl, fun h _ _ hrun => by cases hrun; exact h⟩

@[simp] theorem ensures_allocFrom {start : Nat} {data : NodeData}
    {Q : NodeId → ParseState → Prop} :
    (allocFrom start data).Ensures s Q ↔
      Q s.ast.size (s.allocated data ⟨start, max s.lastEnd start⟩) := by
  simp [allocFrom]

/-! ### Changing the recording -/

@[simp] theorem ensures_record {f : Draft → Except Fault Draft} {Q : Unit → ParseState → Prop} :
    (record f).Ensures s Q ↔ ∀ d, f s.draft = .ok d → Q () { s with draft := d } := by
  have hrun : (record f).run s = (f s.draft).bind fun d => .ok ((), { s with draft := d }) := rfl
  constructor
  · intro h d hd
    refine h () _ ?_
    rw [hrun, hd]
    rfl
  · intro h a s' hs'
    rw [hrun] at hs'
    cases hd : f s.draft with
    | error e =>
      rw [hd] at hs'
      cases hs'
    | ok d =>
      rw [hd] at hs'
      cases hs'
      exact h d hd

@[simp] theorem ensures_recordNew {f : Draft → Except Fault (MarkerId × Draft)}
    {Q : MarkerId → ParseState → Prop} :
    (recordNew f).Ensures s Q ↔ ∀ m d, f s.draft = .ok (m, d) → Q m { s with draft := d } := by
  have hrun : (recordNew f).run s =
      (f s.draft).bind fun r => .ok (r.1, { s with draft := r.2 }) := rfl
  constructor
  · intro h m d hd
    refine h m _ ?_
    rw [hrun, hd]
    rfl
  · intro h a s' hs'
    rw [hrun] at hs'
    cases hd : f s.draft with
    | error e =>
      rw [hd] at hs'
      cases hs'
    | ok r =>
      rw [hd] at hs'
      cases hs'
      exact h _ _ hd

@[simp] theorem ensures_close {m : MarkerId} {n : NodeId} {Q : Unit → ParseState → Prop} :
    (close m n).Ensures s Q ↔
      ∀ d, s.draft.closeWith m n s.ast = .ok d → Q () { s with draft := d } :=
  ensures_record (f := (·.closeWith m n s.ast))

/-! ### Loops -/

/-- What a step of a loop leaves: another instance of the invariant `I`, or a result. -/
def Turns (I : α → ParseState → Prop) (Q : β → ParseState → Prop) : α ⊕ β → ParseState → Prop
  | .inl a, s => I a s
  | .inr b, s => Q b s

/-- A loop keeps an invariant that each of its steps keeps.  By induction on its bound. -/
theorem repeatFrom_ensures {step : α → Production (α ⊕ β)} (I : α → ParseState → Prop)
    {Q : β → ParseState → Prop} {a : α} (h : I a s)
    (hstep : ∀ a s, I a s → (step a).Ensures s (Turns I Q)) : (repeatFrom step a).Ensures s Q := by
  unfold repeatFrom
  simp only [ensures_bind, ensures_get]
  induction s.draft.ahead.length + 1 generalizing a s with
  | zero => exact ensures_throw
  | succ bound ih =>
    unfold iterate
    rw [ensures_bind]
    refine (hstep a s h).mono fun r s' hr => ?_
    cases r with
    | inl next => exact ih hr
    | inr result => exact ensures_pure.mpr hr

/-! ### Tokens -/

/-- Tokens were consumed, at least one that is no trivia. -/
structure ReadsToken (s s' : ParseState) (p : List Event) : Prop where
  reads : Reads s s' p []
  tokens : ∃ ts : List Token, p = ts.map .token
  significant : firstOffset p ≠ none
  lt_lastEnd : s.draft.current.offset < s'.lastEnd

/-- The next token was consumed, and it is no trivia. -/
structure ReadsNext (s s' : ParseState) (p : List Event) : Prop extends ReadsToken s s' p where
  behind : BehindToken s'.draft.history
  first : firstOffset p = some s.draft.current.offset

/-- The first token that is no trivia is the one behind the trivia. -/
theorem firstOffset_blank {blank : List Token} {t : Token}
    (hblank : ∀ b ∈ blank, b.isTrivia = true) (ht : t.isTrivia = false) :
    firstOffset ((blank ++ [t]).map .token) = some t.offset := by
  have hnone : firstOffset (blank.map .token) = none := by
    refine List.findSome?_eq_none_iff.mpr fun e he => ?_
    obtain ⟨b, hb, rfl⟩ := List.mem_map.mp he
    simp [Event.significantOffset?, hblank b hb]
  rw [List.map_append, firstOffset_append, hnone]
  simp [firstOffset, Event.significantOffset?, ht]

/-- The next token is consumed, with the trivia before it. -/
theorem reads_advance (h : s.Fit) : ∃ ts : List Token,
    Reads s { s with draft := s.draft.advance, lastEnd := s.draft.current.span.stop }
      (ts.map .token) [] ∧
    (s.draft.current.kind ≠ .eof → firstOffset (ts.map .token) = some s.draft.current.offset ∧
      BehindToken s.draft.advance.history) := by
  obtain ⟨start, hle, htiles⟩ := h.tiles
  obtain ⟨hstart, hstop, hend⟩ := Draft.le_offset_current htiles
  have hrest := Draft.tiles_advance htiles
  obtain ⟨ts, hahead, hevents, hsig⟩ : ∃ ts, s.draft.ahead = ts ++ s.draft.advance.ahead ∧
      s.draft.advance = { s.draft with
        ahead := s.draft.advance.ahead, history := (ts.map .token).reverse ++ s.draft.history } ∧
      (s.draft.current.kind ≠ .eof → firstOffset (ts.map .token) = some s.draft.current.offset ∧
        BehindToken s.draft.advance.history) := by
    rcases Draft.advance_cases s.draft with
      ⟨blank, t, rest, hahead, hblank, ht, hcur, hadv⟩ | ⟨hb, hadv⟩
    · refine ⟨blank ++ [t], by rw [hadv, hahead]; simp, by rw [hadv], fun _ => ⟨?_, ?_⟩⟩
      · rw [hcur]
        exact firstOffset_blank hblank ht
      · rw [hadv]
        exact ⟨t, (blank.map .token).reverse ++ s.draft.history, by simp, ht⟩
    · refine ⟨s.draft.ahead, by rw [hadv]; simp, by rw [hadv], fun hk => ?_⟩
      rcases s.draft.current_cases with ⟨blank, rest, hahead, -, hcur⟩ | ⟨-, hcur⟩
      · rw [hb _ (by rw [hahead]; simp)] at hcur
        cases hcur
      · rw [hcur] at hk
        exact absurd rfl hk
  have hmarkers : s.draft.advance.markers = s.draft.markers := by rw [hevents]
  have htextEnd : s.draft.advance.textEnd = s.draft.textEnd := by rw [hevents]
  have hopened : s.draft.advance.opened = s.draft.opened := by rw [hevents]
  refine ⟨ts, ⟨⟨⟨?_, ?_, htextEnd, .refl _, .refl _, ?_, ⟨⟨_, Nat.le_refl _, ?_⟩, ?_, ?_⟩⟩, ?_, ?_,
    ?_, ?_, .tokens ts, .tokens ⟨Nat.le_refl _, ?_⟩, .refl fun id hid => ?_⟩, hopened⟩, hsig⟩
  · intro id _
    unfold Draft.marker
    rw [hmarkers]
  · exact Nat.le_of_eq (congrArg Array.size hmarkers.symm)
  · rw [← htextEnd] at hrest
    exact Nat.le_trans hstop (Draft.le_offset_current hrest).1
  · dsimp only
    rw [htextEnd]
    exact hrest
  · intro t ht
    exact h.solid t (by rw [hahead]; exact List.mem_append_right _ ht)
  · dsimp only
    rw [hopened, hmarkers]
    exact h.known
  · dsimp only
    rw [hevents]
  · rw [tokensIn_map_token]
    exact hahead
  · intro id hid
    simp at hid
  · rw [List.filterMap_map]
    simp [Function.comp_def, Event.started?]
  · exact Nat.le_trans h.lastEnd_le hstop
  · exact Draft.node_of_size_le (hmarkers ▸ hid)

theorem advance_ensures (h : s.Fit) (hk : s.draft.current.kind ≠ .eof) :
    advance.Ensures s fun _ s' => ∃ p, ReadsNext s s' p ∧ s'.ast = s.ast ∧
      s'.lastEnd = s.draft.current.span.stop ∧ s'.draft = s.draft.advance := by
  refine ensures_modify.mpr ?_
  obtain ⟨ts, hreads, hsig⟩ := reads_advance h
  obtain ⟨hfirst, hbehind⟩ := hsig hk
  exact ⟨_, ⟨⟨hreads, ⟨ts, rfl⟩, by simp [hfirst], h.current_lt hk⟩, hbehind, hfirst⟩, rfl, rfl,
    rfl⟩

/-- Whether the next token is of a kind, which is then consumed. -/
theorem accept_ensures {k : TokenKind} (h : s.Fit) (hk : k ≠ .eof) :
    (accept k).Ensures s fun found s' => (found = true ∧ ∃ p, ReadsNext s s' p) ∨
      (found = false ∧ s' = s) := by
  unfold accept
  simp only [ensures_bind, ensures_at?]
  split
  · next hat =>
    have hcur : s.draft.current.kind = k := by simpa [Draft.at?] using hat
    rw [ensures_bind]
    refine (advance_ensures h (hcur ▸ hk)).mono fun _ s' hs' => ?_
    obtain ⟨p, hp, -, -⟩ := hs'
    exact ensures_pure.mpr (.inl ⟨rfl, p, hp⟩)
  · exact ensures_pure.mpr (.inr ⟨rfl, rfl⟩)

/-! ### Markers -/

/-- A new marker changes nothing else. -/
theorem openMarker_ensures (h : s.Fit) : openMarker.Ensures s fun m s' => Inside m s s' [] [] ∧
    s'.draft.current = s.draft.current ∧ s'.lastEnd = s.lastEnd := by
  refine ensures_recordNew.mpr fun m d hopen => ?_
  unfold Draft.openMarker at hopen
  split at hopen
  · cases hopen
  · cases hopen
    have hmarker := fun id => s.draft.marker_push { resume := s.draft.ahead } id
    have hself := (hmarker s.draft.markers.size).trans (if_pos rfl)
    have hsize : (s.draft.markers.push { resume := s.draft.ahead }).size =
        s.draft.markers.size + 1 := by simp
    refine ⟨⟨⟨⟨?_, ?_, rfl, .refl _, .refl _, Nat.le_refl _, ⟨h.tiles, h.solid, ?_⟩⟩,
      rfl, rfl, by simp, .nil, .tokens [], .nil (.refl _), .refl fun id hid => ?_⟩,
      rfl, ?_, by simp, ?_, ?_, ?_, ?_⟩, rfl, rfl⟩
    · intro id hid
      exact (hmarker id).trans (if_neg (Nat.ne_of_lt hid))
    · exact Nat.le_of_lt (by simp)
    · intro id hid
      dsimp only at hid ⊢
      rw [hsize]
      rcases List.mem_cons.mp hid with rfl | hid
      · exact Nat.lt_succ_self _
      · exact Nat.lt_succ_of_lt (h.known id hid)
    · refine (congrArg Marker.node (hmarker id)).trans ?_
      split
      · rfl
      · exact Draft.node_of_size_le hid
    · exact ⟨Nat.le_refl _, by simp⟩
    · exact (congrArg Marker.state hself :)
    · exact (congrArg Marker.node hself :)
    · exact (congrArg Marker.kind hself :)
    · exact (congrArg Marker.resume hself :)

/-- An expression was read, and its marker still knows the tokens from its start on, so that
    another marker may be put around it. -/
structure ReadsExpr (s : ParseState) (m : MarkerId) (n : NodeId) (s' : ParseState)
    (p : List Event) : Prop where
  reads : Reads s s' (.start m :: p ++ [.stop m]) [n]
  not_mem : .start m ∉ p
  resume : (s'.draft.marker m).resume = s.draft.ahead
  kind : (s'.draft.marker m).kind ≠ some .varDecl
  nameless : Nameless s'.draft.marker (.start m :: p ++ [.stop m])
  expr : s'.ast.IsExpr n

theorem openBefore_ensures {s₀ : ParseState} {m : MarkerId} {n : NodeId} {p : List Event}
    (h : s₀.Fit) (he : ReadsExpr s₀ m n s p) : (openBefore m).Ensures s fun m' s' =>
      Inside m' s₀ s' (.start m :: p ++ [.stop m]) [n] ∧ s'.ast.IsExpr n := by
  obtain ⟨hreads, hmem, hresume, hkind, -, hexpr⟩ := he
  refine ensures_recordNew.mpr fun m' d hopen => ?_
  have hhistory : s.draft.history =
      (p ++ [Event.stop m]).reverse ++ .start m :: s₀.draft.history := by
    rw [hreads.events]
    simp
  have hm := hreads.fresh m (by simp)
  have hopened : m ∉ s.draft.opened := by
    rw [hreads.opened]
    intro hopened
    exact absurd (h.known m hopened) (Nat.not_lt.mpr hm.1)
  have hd : m' = s.draft.markers.size ∧ d = { s.draft with
      markers := s.draft.markers.push { resume := s₀.draft.ahead }
      history := (p ++ [Event.stop m]).reverse ++ .start m :: .start m' :: s₀.draft.history
      opened := m' :: s₀.draft.opened } := by
    rw [Draft.openBefore_eq hhistory (by simpa using hmem) hopened, hresume, hreads.opened] at hopen
    cases hopen
    exact ⟨rfl, rfl⟩
  obtain ⟨rfl, rfl⟩ := hd
  have hmarker := fun id => s.draft.marker_push { resume := s₀.draft.ahead } id
  have hself := (hmarker s.draft.markers.size).trans (if_pos rfl)
  have hsize : (s.draft.markers.push { resume := s₀.draft.ahead }).size =
      s.draft.markers.size + 1 := by simp
  have hsame : ∀ id, .start id ∈ Event.start m :: p ++ [Event.stop m] →
      ({ s.draft with markers := s.draft.markers.push { resume := s₀.draft.ahead } } : Draft).marker
        id = s.draft.marker id := fun id hid =>
    (hmarker id).trans (if_neg (Nat.ne_of_lt (hreads.fresh id hid).2))
  refine ⟨⟨⟨⟨?_, ?_, hreads.textEnd, hreads.ast, hreads.kept, hreads.here, ⟨hreads.fit.tiles,
    hreads.fit.solid, ?_⟩⟩, ?_, hreads.ahead, ?_, hreads.nodup, ?_,
    hreads.recorded.mono (.refl _) hsame, hreads.severed.congr fun id _ => ?_⟩, rfl,
    ⟨hreads.size, by simp⟩, ?_, ?_, ?_, ?_, ?_⟩, hexpr⟩
  · intro id hid
    exact (hmarker id).trans ((if_neg (Nat.ne_of_lt (Nat.lt_of_lt_of_le hid hreads.size))).trans
      (hreads.marker id hid))
  · exact Nat.le_trans hreads.size (Nat.le_of_lt (by simp))
  · intro id hid
    dsimp only at hid ⊢
    rw [hsize]
    rcases List.mem_cons.mp hid with rfl | hid
    · exact Nat.lt_succ_self _
    · exact Nat.lt_succ_of_lt (Nat.lt_of_lt_of_le (h.known id hid) hreads.size)
  · simp
  · intro id hid
    obtain ⟨h₁, h₂⟩ := hreads.fresh id hid
    exact ⟨h₁, by dsimp only; omega⟩
  · exact (hreads.announces.rebase hkind).congr hsame
  · by_cases hid : id = s.draft.markers.size
    · have hnone := (congrArg Marker.node hself :)
      exact .inr fun n hn => by cases (hid ▸ hn).symm.trans hnone
    · exact .inl ((hmarker id).trans (if_neg hid))
  · exact fun hid => Nat.lt_irrefl _ (hreads.fresh _ hid).2
  · exact (congrArg Marker.state hself :)
  · exact (congrArg Marker.node hself :)
  · exact (congrArg Marker.kind hself :)
  · exact (congrArg Marker.resume hself :)

variable {s₀ : ParseState} {m : MarkerId} {p : List Event} {ns : List NodeId}

/-- A marker that ends without a node still holds what it held. -/
structure EndsHidden (s₀ s s' : ParseState) (m : MarkerId) (p : List Event) (ns : List NodeId) :
    Prop where
  reads : Reads s₀ s' (.start m :: p ++ [.stop m]) ns
  resume : (s'.draft.marker m).resume = s₀.draft.ahead
  ast : s'.ast = s.ast

theorem dissolve_ensures (hw : Inside m s₀ s p ns) :
    (dissolve m).Ensures s fun _ s' => EndsHidden s₀ s s' m p ns ∧
      (s'.draft.marker m).kind = none ∧ ∀ id, id ≠ m → s'.draft.marker id = s.draft.marker id := by
  refine ensures_record.mpr fun d hd => ?_
  obtain ⟨hc, -, -, hnode, hkind⟩ := Draft.close_closes hw.new.2 hd
  have hkind := hkind.trans hw.kind
  exact ⟨⟨hw.ends_hidden hc hnode (by simp [hkind]), hc.resume.trans hw.resume, rfl⟩, hkind,
    hc.marker⟩

theorem closeGroup_ensures (hw : Inside m s₀ s p ns) :
    (closeGroup m).Ensures s fun _ s' => EndsHidden s₀ s s' m p ns ∧
      (s'.draft.marker m).state = .done ∧ (s'.draft.marker m).kind = some .group := by
  refine ensures_record.mpr fun d hd => ?_
  obtain ⟨hc, hnode, hstate, hkind⟩ := Draft.closeGroup_closes hw.new.2 hd
  exact ⟨⟨hw.ends_hidden hc hnode (by simp [hkind]), hc.resume.trans hw.resume, rfl⟩, hstate, hkind⟩

theorem report_ensures (hw : Inside m s₀ s p ns) (message : String) (span : Span) :
    (report m message span).Ensures s fun _ s' => EndsHidden s₀ s s' m p ns ∧
      (s'.draft.marker m).kind = none := by
  refine ensures_record.mpr fun d hd => ?_
  obtain ⟨hc, hnode, hkind⟩ := Draft.closeError_closes hw.new.2 hd
  have hkind := hkind.trans hw.kind
  exact ⟨⟨hw.ends_hidden hc hnode (by simp [hkind]), hc.resume.trans hw.resume, rfl⟩, hkind⟩

theorem undo_ensures (h : s₀.Fit) (hw : Inside m s₀ s p ns) :
    (undo m s₀.lastEnd).Ensures s fun _ s' => Reads s₀ s' [] [] := by
  unfold undo
  simp only [ensures_bind, ensures_record, ensures_modify]
  exact fun d hd => hw.undo h hd

/-- A node is allocated after its parts, and the marker around them ends with it. -/
structure EndsNode (s₀ s s' : ParseState) (m : MarkerId) (p : List Event) (n : NodeId)
    (data : NodeData) : Prop where
  reads : Reads s₀ s' (.start m :: p ++ [.stop m]) [n]
  resume : (s'.draft.marker m).resume = s₀.draft.ahead
  found : s'.ast.data? n = some data
  means : (s'.draft.marker m).Means n data p
  balanced : Balanced p
  ast : s.ast.Extends s'.ast
  lastEnd : s'.lastEnd = s.lastEnd

theorem of?_eq_varDecl {data : NodeData} (h : NodeKind.of? data = some .varDecl) :
    ∃ decl, data = .varDecl decl := by
  cases data with
  | varDecl decl => exact ⟨decl, rfl⟩
  | name text kind => cases kind <;> cases h
  | type type => cases type <;> cases h
  | _ => cases h

theorem close_ensures {data : NodeData} {span : Span} {b : ParsePoint} (hw : Inside m s₀ s p ns)
    (hlaid : Laid s.ast b ns s.point) (hb : s₀.point.Precedes b)
    (hlead : ∀ name value, data = .assign name value → span.start < b.text)
    (harranged : data.Arranged ns) (hkind : NodeKind.of? data ≠ none) (hformed : data.Formed s.ast)
    (hspan : Spans s₀ s data span)
    (hdecl : ∀ decl, data = .varDecl decl → s.ast.span decl = span)
    (hplain : ∀ params body, data ≠ .closure params body true)
    (hannounced : ∀ decl, data = .varDecl decl →
      (StartsVar s₀.draft.ahead → firstOffset p ≠ none) ∧
        (StartsVar s₀.draft.ahead ∨ BehindToken s₀.draft.history))
    (hshown : ∀ mk : MarkerId → Marker, (∀ j, j ≠ m → mk j = s.draft.marker j) →
      (∃ markers : Array Marker, (∀ j, j ≠ m → markers.getD j {} = s.draft.marker j) ∧
        (mk m).nameMarker = ((NodeKind.of? data).bind declaredNameKinds).bind fun wanted =>
          findName markers wanted m (p ++ [.stop m]) []) →
      data.Shown (s.allocated data span).ast mk m p) :
    (close m s.ast.size).Ensures (s.allocated data span) fun _ s' =>
      EndsNode s₀ s s' m p s.ast.size data := by
  refine ensures_close.mpr fun d hd => ?_
  obtain ⟨kind, hkind⟩ := Option.ne_none_iff_exists'.mp hkind
  unfold Draft.closeWith at hd
  rw [s.data?_allocated data span, Option.bind_some, hkind] at hd
  have hc := Draft.closeAs_closes (d := s.draft) hw.new.2 hw.events hw.not_mem hd
  have hshown := hshown d.marker hc.marker (by rw [hkind]; exact hc.name)
  have hvar : kind = .varDecl → Announced (d.marker m) s₀.draft.history s₀.draft.ahead := by
    rintro rfl
    obtain ⟨decl, rfl⟩ := of?_eq_varDecl hkind
    obtain ⟨hheld, hled⟩ := hannounced decl rfl
    exact ⟨hc.offset ▸ hheld, hled⟩
  exact ⟨hw.ends_node hlaid hb hlead harranged hkind hformed hspan hdecl hplain hc hvar hshown,
    hc.resume.trans hw.resume, s.data?_allocated data span, hc.means hkind,
    hw.recorded.balanced, s.extends_allocated data span, rfl⟩

/-- Of these nodes nothing has to be known but their parts. -/
def isPlain : NodeData → Bool
  | .identifier _ | .assign _ _ | .closure _ _ _ | .varDecl _ | .funDecl _ | .classDecl _
  | .varDeclExpr _ | .name _ _ | .type _ => false
  | _ => true

theorem close_plain_ensures {data : NodeData} {span : Span} (hw : Inside m s₀ s p ns)
    (hplain : isPlain data = true) (hns : ns = data.parts) (hkind : NodeKind.of? data ≠ none)
    (hformed : data.Formed s.ast) :
    (close m s.ast.size).Ensures (s.allocated data span) fun _ s' =>
      EndsNode s₀ s s' m p s.ast.size data := by
  refine close_ensures hw hw.recorded.laid (.refl _) ?_ ?_ hkind hformed ?_ ?_ ?_ ?_ ?_
  · rintro name value rfl
    cases hplain
  · cases data with
    | classDecl c => cases hplain
    | _ => exact hns
  · intro hsolid
    cases data with
    | identifier name => cases hplain
    | assign name value => cases hplain
    | varDeclExpr v => cases hplain
    | _ => cases hsolid
  · rintro decl rfl
    cases hplain
  · rintro params body rfl
    cases hplain
  · rintro decl rfl
    cases hplain
  · intro mk _ _
    cases data with
    | identifier name => cases hplain
    | closure params body isBlock => cases hplain
    | varDecl decl => cases hplain
    | funDecl decl => cases hplain
    | classDecl c => cases hplain
    | name text kind => cases hplain
    | type type => cases hplain
    | _ => trivial

theorem finish_plain_ensures {start : Nat} {data : NodeData} (hw : Inside m s₀ s p ns)
    (hplain : isPlain data = true) (hns : ns = data.parts) (hkind : NodeKind.of? data ≠ none)
    (hformed : data.Formed s.ast) :
    (finish m start data).Ensures s fun n s' => EndsNode s₀ s s' m p n data := by
  unfold finish
  simp only [ensures_bind, ensures_allocFrom, ensures_pure]
  exact close_plain_ensures hw hplain hns hkind hformed

/-- A node that is a leaf of the tree: its marker holds the tokens of its name or its type. -/
theorem close_leaf_ensures {data : NodeData} {span : Span} (hw : Inside m s₀ s p [])
    (hdata : data.isNameOrType = true) (htokens : ∃ ts : List Token, p = ts.map .token)
    (hoffset : firstOffset p ≠ none) :
    (close m s.ast.size).Ensures (s.allocated data span) fun _ s' =>
      (∃ ts : List Token, p = ts.map .token ∧ Reads s₀ s' (leafEvents m ts) [] ∧
        (s'.draft.marker m).Means s.ast.size data p) ∧
        s'.ast.data? s.ast.size = some data ∧ s'.lastEnd = s.lastEnd ∧
        s'.draft.ahead = s.draft.ahead := by
  obtain ⟨ts, rfl⟩ := htokens
  have hkind : ∃ kind, NodeKind.of? data = some kind := by
    cases data with
    | name text kind => exact ⟨_, rfl⟩
    | type type => cases type <;> exact ⟨_, rfl⟩
    | _ => cases hdata
  obtain ⟨kind, hkind⟩ := hkind
  refine ensures_close.mpr fun d hd => ?_
  unfold Draft.closeWith at hd
  rw [s.data?_allocated data span, Option.bind_some, hkind] at hd
  have hc := Draft.closeAs_closes (d := s.draft) hw.new.2 hw.events hw.not_mem hd
  have hmeans := hc.means hkind
  have hnoVar : (d.marker m).kind ≠ some .varDecl := by
    rw [hmeans.kind]
    intro hvar
    obtain ⟨decl, rfl⟩ := of?_eq_varDecl hvar
    cases hdata
  have hsize := s.size_allocated data span
  have hle := hw.recorded.precedes
  have hids := hle.ids
  have hparts : data.parts = [] := by
    cases data with
    | name text kind => rfl
    | type type => rfl
    | _ => cases hdata
  refine ⟨⟨ts, rfl, hw.ends rfl (s.extends_allocated data span)
    (hw.kept.trans (s.keeps_allocated data span)) hc.toCloses (fun hvar => absurd hvar hnoVar)
    (fun _ => .leaf (s.data?_allocated data span) hdata hmeans hoffset hle.ids ?_ ⟨?_, hle.text⟩)
    (hw.severed_allocated (by simp [hparts]) (by simp) ?_) fun n hn => ?_, hmeans⟩,
    s.data?_allocated data span, rfl, hc.ahead⟩
  · dsimp only [point]
    omega
  · dsimp only [point] at hids ⊢
    omega
  · rintro params body rfl
    cases hdata
  · obtain rfl := Option.some.inj (hc.node.symm.trans hn)
    exact ⟨by rw [hc.state]; decide, hids, Nat.lt_of_lt_of_eq (Nat.lt_succ_self _) hsize.symm⟩

theorem finish_leaf_ensures {start : Nat} {data : NodeData} (hw : Inside m s₀ s p [])
    (hdata : data.isNameOrType = true) (htokens : ∃ ts : List Token, p = ts.map .token)
    (hoffset : firstOffset p ≠ none) :
    (finish m start data).Ensures s fun n s' =>
      (∃ ts : List Token, p = ts.map .token ∧ Reads s₀ s' (leafEvents m ts) [] ∧
        (s'.draft.marker m).Means n data p) ∧
        s'.ast.data? n = some data ∧ s'.lastEnd = s.lastEnd ∧
        s'.draft.ahead = s.draft.ahead := by
  unfold finish
  simp only [ensures_bind, ensures_allocFrom, ensures_pure]
  exact close_leaf_ensures hw hdata htokens hoffset

end Production

end ScriptAnalysis
