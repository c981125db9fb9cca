import ScriptAnalysis.Proofs.Grammar.StatementNodes
import ScriptAnalysis.Proofs.Recording.Framed

/-!
# A parse step by step

Every production is made of few steps: it consumes the next token, allocates a node, opens a marker,
ends one or takes it back.  `Run text P phase s s'` says that such steps lead from the state `s` to
`s'`.  The phase tells what is left of the markers that were opened on the way, and `P` which nodes
may be allocated.

A marker may only end as a node if tokens were consumed since it was opened.  Where that is not
known the steps are `led`: they may only follow tokens in the node around them.

What all steps keep, every run keeps, by induction on the run.  `Run.goes` is the first such fact:
the events of a run are framed, and the run goes forth in the text.
-/

namespace ScriptAnalysis

namespace ParseState

/-- Tokens were consumed. -/
def Moved (s s' : ParseState) : Prop := s'.draft.ahead.length < s.draft.ahead.length

/-- The state after the next token was consumed. -/
def advanced (s : ParseState) : ParseState :=
  { s with draft := s.draft.advance, lastEnd := s.draft.current.span.stop }

/-- What is ahead follows what was consumed. -/
def Tiled (s : ParseState) : Prop :=
  ∃ start, s.lastEnd ≤ start ∧ Tiles start s.draft.ahead s.draft.textEnd

/-- What holds of a state between any two steps: the opened markers are known, no trivia ends the
    text, and what is ahead, apart from trivia, has the property `S`. -/
structure Sound (S : Token → Prop) (s : ParseState) : Prop where
  known : ∀ id ∈ s.draft.opened, id < s.draft.markers.size
  last : ∀ t, s.draft.ahead.getLast? = some t → t.isTrivia = false
  ahead : ∀ t ∈ s.draft.ahead, t.isTrivia = false → S t
  eof : S ⟨.eof, .point s.draft.textEnd⟩
  tiled : s.Tiled

variable {S : Token → Prop} {s : ParseState}

theorem Tiled.lastEnd_le (h : s.Tiled) : s.lastEnd ≤ s.draft.current.offset := by
  obtain ⟨start, hle, htiles⟩ := h
  exact Nat.le_trans hle (Draft.le_offset_current htiles).1

theorem Sound.current (h : s.Sound S) : S s.draft.current := by
  rcases s.draft.current_cases with ⟨blank, rest, hahead, -, ht⟩ | ⟨-, hcur⟩
  · exact h.ahead _ (by rw [hahead]; simp) ht
  · rw [hcur]
    exact h.eof

/-- What is ahead ends with a token, so there is a next one. -/
theorem moved_advanced_of_ne_nil (hs : s.Sound S) (h : s.draft.ahead ≠ []) :
    s.Moved s.advanced := by
  unfold Moved advanced
  rcases Draft.advance_cases s.draft with ⟨blank, t, rest, hahead, -, -, -, hadv⟩ | ⟨hb, -⟩
  · rw [hadv, hahead, List.length_append, List.length_cons]
    dsimp only
    omega
  · have ht := hs.last _ (List.getLast?_eq_some_getLast h)
    rw [hb _ (List.getLast_mem h)] at ht
    cases ht

theorem moved_advanced (hk : s.draft.current.kind ≠ .eof) : s.Moved s.advanced := by
  unfold Moved advanced
  rcases Draft.advance_cases s.draft with ⟨blank, t, rest, hahead, -, -, -, hadv⟩ | ⟨hb, -⟩
  · rw [hadv, hahead, List.length_append, List.length_cons]
    dsimp only
    omega
  · rcases s.draft.current_cases with ⟨blank, rest, hahead, -, ht⟩ | ⟨-, hcur⟩
    · rw [hb s.draft.current (by rw [hahead]; simp)] at ht
      cases ht
    · rw [hcur] at hk
      exact absurd rfl hk

end ParseState

open ParseState

/-- There is such a node, and this is where it starts. -/
def Ast.StartsAt (ast : Ast) (n : NodeId) (offset : Nat) : Prop :=
  (∃ data, ast.data? n = some data) ∧ (ast.span n).start = offset

theorem Ast.StartsAt.later {ast ast' : Ast} {n : NodeId} {offset : Nat} (h : ast.StartsAt n offset)
    (hast : ast.Extends ast') : ast'.StartsAt n offset := by
  obtain ⟨⟨data, hdata⟩, hstart⟩ := h
  obtain ⟨hspan, data', hdata', -⟩ := hast n data hdata
  exact ⟨⟨data', hdata'⟩, hspan ▸ hstart⟩

theorem startsAt_allocated (s : ParseState) (data : NodeData) (span : Span) :
    (s.allocated data span).ast.StartsAt s.ast.size span.start :=
  ⟨⟨data, s.data?_allocated data span⟩, by rw [s.span_allocated]⟩

/-- What may be said of a token: it is not what is expected, or it is a literal that is too
    large. -/
inductive Blames (text : String) (t : Token) : Diagnostic → Prop
  | unexpected (what : String) :
      Blames text t (.ofParse (Production.unexpected text t what) t.span)
  | tooLarge : t.kind = .intLiteral → Blames text t (.ofParse "Integer literal too large" t.span)

/-- What is left of the markers that were opened by some steps. -/
inductive Phase where
  /-- All of them were ended or taken back. -/
  | steps (led : Bool)
  /-- The marker was opened first, and it is the only one that is still open. -/
  | inside (m : MarkerId)
  /-- The marker was opened first and ended last. -/
  | whole (m : MarkerId) (led : Bool)

inductive Run (text : String) (P : NodeData → Span → Prop) : Phase → ParseState → ParseState → Prop
  | refl {led : Bool} (s : ParseState) : Run text P (.steps led) s s
  | advance {led : Bool} (s : ParseState) : Run text P (.steps led) s s.advanced
  | alloc {led : Bool} {data : NodeData} {span : Span} (s : ParseState) : P data span →
      Run text P (.steps led) s (s.allocated data span)
  /-- Braces turn out to be a plain block. -/
  | unbrace {led : Bool} {n body : NodeId} {isBlock : Bool} (s : ParseState) :
      s.ast.data? n = some (.closure [] body isBlock) →
      Run text P (.steps led) s
        { s with ast := s.ast.modify n fun node => { node with data := .closure [] body true } }
  | trans {led led' : Bool} {s₁ s₂ s₃ : ParseState} : Run text P (.steps led) s₁ s₂ →
      Run text P (.steps led') s₂ s₃ → (led' = true → led = true ∨ s₁.Moved s₂) →
      Run text P (.steps led) s₁ s₃
  | undo {led : Bool} {m : MarkerId} {s s' : ParseState} {d : Draft} : Run text P (.inside m) s s' →
      s'.draft.undo m = .ok d →
      Run text P (.steps led) s { s' with draft := d, lastEnd := s.lastEnd }
  | ended {led : Bool} {m : MarkerId} {s s' : ParseState} : Run text P (.whole m led) s s' →
      Run text P (.steps led) s s'
  | openMarker {m : MarkerId} {s : ParseState} {d : Draft} : s.draft.openMarker = .ok (m, d) →
      Run text P (.inside m) s { s with draft := d }
  | openBefore {m m' : MarkerId} {s s' : ParseState} {d : Draft} :
    Run text P (.whole m false) s s' →
      s'.draft.openBefore m = .ok (m', d) → Run text P (.inside m') s { s' with draft := d }
  | more {led : Bool} {m : MarkerId} {s₁ s₂ s₃ : ParseState} : Run text P (.inside m) s₁ s₂ →
      Run text P (.steps led) s₂ s₃ → (led = true → s₁.Moved s₂) → Run text P (.inside m) s₁ s₃
  | close {led : Bool} {m : MarkerId} {n : NodeId} {s s' : ParseState} {d : Draft} :
      Run text P (.inside m) s s' → s'.draft.closeWith m n s'.ast = .ok d →
      s'.ast.StartsAt n s.draft.current.offset → led = true ∨ s.Moved s' →
      Run text P (.whole m led) s { s' with draft := d }
  | closeGroup {led : Bool} {m : MarkerId} {s s' : ParseState} {d : Draft} :
      Run text P (.inside m) s s' → s'.draft.closeGroup m = .ok d → led = true ∨ s.Moved s' →
      Run text P (.whole m led) s { s' with draft := d }
  | dissolve {led : Bool} {m : MarkerId} {s s' : ParseState} {d : Draft} :
      Run text P (.inside m) s s' → s'.draft.dissolve m = .ok d →
      Run text P (.whole m led) s { s' with draft := d }
  | report {led : Bool} {m : MarkerId} {s s' : ParseState} {d : Draft} {diagnostic : Diagnostic} :
      Run text P (.inside m) s s' → s'.draft.closeError m diagnostic = .ok d →
      Blames text s.draft.current diagnostic →
      Run text P (.whole m led) s { s' with draft := d }
  /-- A node may still be allocated when its marker has ended. -/
  | behind {led : Bool} {m : MarkerId} {s s' : ParseState} {data : NodeData} {span : Span} :
      Run text P (.whole m led) s s' → P data span →
        Run text P (.whole m led) s (s'.allocated data span)

theorem Run.mono {text : String} {P Q : NodeData → Span → Prop}
    (hPQ : ∀ data span, P data span → Q data span)
    {phase : Phase} {s s' : ParseState} (h : Run text P phase s s') : Run text Q phase s s' := by
  induction h with
  | refl s => exact .refl s
  | advance s => exact .advance s
  | alloc s hP => exact .alloc s (hPQ _ _ hP)
  | unbrace s hdata => exact .unbrace s hdata
  | trans _ _ hled ih₁ ih₂ => exact .trans ih₁ ih₂ hled
  | undo _ hd ih => exact .undo ih hd
  | ended _ ih => exact .ended ih
  | openMarker hd => exact .openMarker hd
  | openBefore _ hd ih => exact .openBefore ih hd
  | more _ _ hled ih₁ ih₂ => exact .more ih₁ ih₂ hled
  | close _ hd hstarts hled ih => exact .close ih hd hstarts hled
  | closeGroup _ hd hled ih => exact .closeGroup ih hd hled
  | dissolve _ hd ih => exact .dissolve ih hd
  | report _ hd hblames ih => exact .report ih hd hblames
  | behind _ hP ih => exact .behind ih (hPQ _ _ hP)

/-! ### Ends of markers -/

namespace Draft

variable {m : MarkerId} {d d' : Draft} {p earlier : List Event}

/-- The marker was ended, and it has noted where the first of the events `p` in it stands that is a
    token but no trivia. -/
structure ClosesOver (m : MarkerId) (p : List Event) (d d' : Draft) : Prop
    extends d.Closes m d' where
  offset : (d'.marker m).offset = firstOffset p

theorem ClosesOver.modifyMarker (h : d.ClosesOver m p d') (hm : m < d.markers.size)
    {f : Marker → Marker} (hresume : ∀ r, (f r).resume = r.resume)
    (hoffset : ∀ r, (f r).offset = r.offset) : d.ClosesOver m p (d'.modifyMarker m f) where
  toCloses := h.toCloses.modifyMarker hm hresume
  offset := by rw [d'.marker_modify m m f (h.size ▸ hm), if_pos rfl, hoffset, h.offset]

section

variable (hm : m < d.markers.size) (hhistory : d.history = p.reverse ++ .start m :: earlier)
  (hfresh : .start m ∉ p)

include hm hhistory hfresh

theorem close_over {state : MarkerState} (h : d.close m state = .ok d') : d.ClosesOver m p d' := by
  obtain ⟨hcloses, -, hoffset, -, -⟩ := close_closes hm h
  exact ⟨hcloses, hoffset.trans (startOffset_eq hhistory hfresh)⟩

theorem closeWith_over {n : NodeId} {ast : Ast} (h : d.closeWith m n ast = .ok d') :
    d.ClosesOver m p d' := by
  unfold closeWith at h
  split at h
  · have hc := closeAs_closes hm hhistory hfresh h
    exact ⟨hc.toCloses, hc.offset⟩
  · exact close_over hm hhistory hfresh h

theorem closeGroup_over (h : d.closeGroup m = .ok d') : d.ClosesOver m p d' := by
  obtain ⟨d₁, hclose, rfl⟩ := closeGroup_cases h
  exact (close_over hm hhistory hfresh hclose).modifyMarker hm (fun _ => rfl) fun _ => rfl

theorem closeError_over {diagnostic : Diagnostic} (h : d.closeError m diagnostic = .ok d') :
    d.ClosesOver m p d' ∧ (d'.marker m).state ≠ .done := by
  rcases closeError_cases h with ⟨-, hdissolve⟩ | ⟨messages, d₁, -, hclose, rfl⟩
  · have hstate := (close_closes hm hdissolve).2.1
    exact ⟨close_over hm hhistory hfresh hdissolve, by simp [hstate]⟩
  · have hstate := (close_closes (d := { d with messages }) hm hclose).2.1
    obtain ⟨hc, hoffset⟩ := close_over (d := { d with messages }) hm hhistory hfresh hclose
    have hover : d.ClosesOver m p d₁ := ⟨hc.of_messages, hoffset⟩
    refine ⟨hover.modifyMarker hm (fun _ => rfl) fun _ => rfl, ?_⟩
    rw [d₁.marker_modify m m _ (hc.size ▸ hm), if_pos rfl, hstate]
    simp

end

end Draft

/-! ### What a run records -/

/-- The events `p` were recorded, under markers that are new. -/
structure Writes (s s' : ParseState) (p : List Event) : Prop where
  marker : ∀ id < s.draft.markers.size, s'.draft.marker id = s.draft.marker id
  size : s.draft.markers.size ≤ s'.draft.markers.size
  textEnd : s'.draft.textEnd = s.draft.textEnd
  events : s'.draft.history = p.reverse ++ s.draft.history
  ahead : s.draft.ahead = tokensIn p ++ s'.draft.ahead
  fresh : ∀ id, .start id ∈ p → s.draft.markers.size ≤ id ∧ id < s'.draft.markers.size

/-- Framed events were recorded. -/
structure Stepped (led : Bool) (s s' : ParseState) (p : List Event) : Prop
    extends Writes s s' p where
  opened : s'.draft.opened = s.draft.opened
  framed : Framed s'.draft.marker led p

/-- A marker was opened, and framed events after its start. -/
structure Within (m : MarkerId) (s s' : ParseState) (p : List Event) : Prop
    extends Writes s s' (.start m :: p) where
  opened : s'.draft.opened = m :: s.draft.opened
  not_mem : .start m ∉ p
  state : (s'.draft.marker m).state = .opened
  resume : (s'.draft.marker m).resume = s.draft.ahead
  framed : Framed s'.draft.marker false p

/-- A marker was opened and ended, and its record still tells where it was opened. -/
structure Closed (m : MarkerId) (led : Bool) (s s' : ParseState) (p : List Event) : Prop
    extends Stepped led s s' (.start m :: p ++ [.stop m]) where
  not_mem : .start m ∉ p
  resume : (s'.draft.marker m).resume = s.draft.ahead

def Phase.Records : Phase → ParseState → ParseState → Prop
  | .steps led, s, s' => ∃ p, Stepped led s s' p
  | .inside m, s, s' => ∃ p, Within m s s' p
  | .whole m led, s, s' => ∃ p, Closed m led s s' p

variable {S : Token → Prop} {s s' s₁ s₂ s₃ : ParseState} {p q : List Event} {m : MarkerId}
  {led : Bool}

namespace Writes

theorem trans (h : Writes s₁ s₂ p) (k : Writes s₂ s₃ q) : Writes s₁ s₃ (p ++ q) where
  marker id hid := by rw [k.marker id (Nat.lt_of_lt_of_le hid h.size), h.marker id hid]
  size := Nat.le_trans h.size k.size
  textEnd := k.textEnd.trans h.textEnd
  events := by rw [k.events, h.events, List.reverse_append, List.append_assoc]
  ahead := by rw [h.ahead, k.ahead, tokensIn_append, List.append_assoc]
  fresh id hid := by
    rcases List.mem_append.mp hid with hid | hid
    · obtain ⟨h₁, h₂⟩ := h.fresh id hid
      exact ⟨h₁, Nat.lt_of_lt_of_le h₂ k.size⟩
    · obtain ⟨h₁, h₂⟩ := k.fresh id hid
      exact ⟨Nat.le_trans h.size h₁, h₂⟩

/-- Tokens were consumed if there are any among the events. -/
theorem moved_iff (h : Writes s s' p) : s.Moved s' ↔ tokensIn p ≠ [] := by
  have hlength := congrArg List.length h.ahead
  rw [List.length_append] at hlength
  rw [← List.length_pos_iff]
  unfold Moved
  omega

theorem framed_later (h : Writes s₁ s₂ p) (k : Writes s₂ s₃ q)
    (hp : Framed s₂.draft.marker led p) : Framed s₃.draft.marker led p :=
  hp.congr fun id hid => k.marker id (h.fresh id hid).2

theorem sound (h : Writes s s' p) (hs : s.Sound S)
    (hopened : ∀ id ∈ s'.draft.opened, id ∈ s.draft.opened ∨ .start id ∈ p) (htiled : s'.Tiled) :
    s'.Sound S where
  known id hid := by
    rcases hopened id hid with hid | hid
    · exact Nat.lt_of_lt_of_le (hs.known id hid) h.size
    · exact (h.fresh id hid).2
  last t ht := by
    refine hs.last t ?_
    rw [h.ahead, List.getLast?_append, ht]
    rfl
  ahead t ht := hs.ahead t (by rw [h.ahead]; exact List.mem_append_right _ ht)
  eof := by
    rw [h.textEnd]
    exact hs.eof
  tiled := htiled

end Writes

namespace Stepped

theorem of_draft (h : s'.draft = s.draft) : Stepped led s s' [] := by
  refine ⟨⟨fun id _ => ?_, ?_, ?_, ?_, ?_, by simp⟩, ?_, .nil⟩ <;> rw [h] <;> simp

theorem trans {led' : Bool} (h : Stepped led s₁ s₂ p) (k : Stepped led' s₂ s₃ q)
    (hled : led' = true → led = true ∨ s₁.Moved s₂) : Stepped led s₁ s₃ (p ++ q) where
  toWrites := h.toWrites.trans k.toWrites
  opened := k.opened.trans h.opened
  framed := (h.framed_later k.toWrites h.framed).append k.framed
    fun h' => (hled h').imp_right h.moved_iff.mp

theorem sound (h : Stepped led s s' p) (hs : s.Sound S) (htiled : s'.Tiled) : s'.Sound S :=
  h.toWrites.sound hs (fun _ hid => .inl (h.opened ▸ hid)) htiled

end Stepped

theorem Closed.sound (h : Closed m led s s' p) (hs : s.Sound S) (htiled : s'.Tiled) : s'.Sound S :=
  h.toStepped.sound hs htiled

namespace Within

theorem sound (h : Within m s s' p) (hs : s.Sound S) (htiled : s'.Tiled) : s'.Sound S := by
  refine h.toWrites.sound hs (fun _ hid => ?_) htiled
  rw [h.opened] at hid
  rcases List.mem_cons.mp hid with rfl | hid
  · exact .inr (by simp)
  · exact .inl hid

theorem new (h : Within m s s' p) : s.draft.markers.size ≤ m ∧ m < s'.draft.markers.size :=
  h.fresh m (by simp)

theorem trans (h : Within m s₁ s₂ p) (k : Stepped led s₂ s₃ q)
    (hled : led = true → s₁.Moved s₂) : Within m s₁ s₃ (p ++ q) where
  toWrites := h.toWrites.trans k.toWrites
  opened := by rw [k.opened, h.opened]
  not_mem hid := by
    rcases List.mem_append.mp hid with hid | hid
    · exact h.not_mem hid
    · exact Nat.not_lt.mpr (k.fresh m hid).1 h.new.2
  state := by rw [k.marker m h.new.2, h.state]
  resume := by rw [k.marker m h.new.2, h.resume]
  framed := by
    have hp := h.framed.congr fun id hid =>
      k.marker id (h.fresh id (List.mem_cons_of_mem _ hid)).2
    refine hp.append k.framed fun h' => .inr ?_
    simpa using h.moved_iff.mp (hled h')

/-- Where the events of the marker begin. -/
theorem history (h : Within m s s' p) :
    s'.draft.history = p.reverse ++ .start m :: s.draft.history := by
  rw [h.events]
  simp

/-- When a marker is ended, the events in it are in its brackets. -/
theorem ends {d : Draft} (h : Within m s s' p) (hd : s'.draft.ClosesOver m p d)
    (hdone : (d.marker m).state = .done → led = true ∨ s.Moved s') :
    Closed m led s { s' with draft := d } p := by
  have hne : ∀ id, .start id ∈ p → id ≠ m := by
    rintro id hid rfl
    exact h.not_mem hid
  have hframed : Framed d.marker false p := h.framed.congr fun id hid => hd.marker id (hne id hid)
  refine ⟨⟨⟨?_, ?_, hd.textEnd.trans h.textEnd, ?_, ?_, ?_⟩, ?_, ?_⟩, h.not_mem,
    hd.resume.trans h.resume⟩
  · intro id hid
    exact (hd.marker id (Nat.ne_of_lt (Nat.lt_of_lt_of_le hid h.new.1))).trans (h.marker id hid)
  · exact Nat.le_trans h.size (Nat.le_of_eq hd.size.symm)
  · dsimp only
    rw [hd.history, h.events]
    simp
  · dsimp only
    rw [hd.ahead, h.ahead]
    simp
  · intro id hid
    dsimp only
    rw [hd.size]
    exact h.fresh id (by simpa using hid)
  · exact (List.cons.inj (hd.opened.symm.trans h.opened)).2
  · exact .wrap hframed (fun hstate => (hdone hstate).imp_right fun hmoved => by
      simpa using h.moved_iff.mp hmoved) hd.offset

/-- Taking a marker back leaves nothing. -/
theorem undo (led : Bool) {d : Draft} (h : Within m s s' p) (hundo : s'.draft.undo m = .ok d) :
    Stepped led s { s' with draft := d, lastEnd := s.lastEnd } [] := by
  obtain ⟨-, -, -, hsize, hmarker⟩ := Draft.foldl_retract
    ((p.reverse ++ [Event.start m]).filterMap Event.started?) s'.draft
  have hok := Draft.undo_eq h.state h.history (by simpa using h.not_mem) (α := []) h.opened
    List.not_mem_nil
  rw [h.resume] at hok
  have hd := Except.ok.inj (hundo.symm.trans hok)
  subst hd
  refine ⟨⟨?_, Nat.le_trans h.size (Nat.le_of_eq hsize.symm),
    (Draft.foldl_retract_textEnd _ _).trans h.textEnd, rfl, rfl, by simp⟩, rfl, .nil⟩
  intro id hid
  refine (hmarker id fun hmem => ?_).trans (h.marker id hid)
  have hstart : .start id ∈ Event.start m :: p := by
    simpa [or_comm] using mem_started_iff.mp hmem
  exact Nat.not_lt.mpr (h.fresh id hstart).1 hid

end Within

theorem stepped_advanced (led : Bool) (hs : s.Sound S) : ∃ p, Stepped led s s.advanced p := by
  obtain ⟨ts, hahead, hdraft, hframed⟩ : ∃ ts, s.draft.ahead = ts ++ s.draft.advance.ahead ∧
      s.draft.advance = { s.draft with
        ahead := s.draft.advance.ahead, history := (ts.map .token).reverse ++ s.draft.history } ∧
      Framed s.draft.marker led (ts.map .token) := by
    rcases Draft.advance_cases s.draft with ⟨blank, t, rest, hahead, hb, ht, -, hadv⟩ | ⟨hb, hadv⟩
    · exact ⟨blank ++ [t], by rw [hadv, hahead]; simp, by rw [hadv], .tokens hb ht⟩
    · have hnil : s.draft.ahead = [] := by
        rcases List.eq_nil_or_concat s.draft.ahead with hnil | ⟨init, t, hconcat⟩
        · exact hnil
        · have ht := hs.last t (by rw [hconcat]; simp)
          rw [hb t (by rw [hconcat]; simp)] at ht
          cases ht
      refine ⟨[], by rw [hadv, hnil]; rfl, ?_, .nil⟩
      rw [hadv, hnil]
  have hmarkers : s.draft.advance.markers = s.draft.markers := by rw [hdraft]
  have hmarker : s.draft.advance.marker = s.draft.marker := by
    funext id
    unfold Draft.marker
    rw [hmarkers]
  refine ⟨ts.map .token, ⟨⟨fun id _ => congrFun hmarker id, ?_, ?_, ?_, ?_, by simp⟩, ?_, ?_⟩⟩
  · exact Nat.le_of_eq (congrArg Array.size hmarkers.symm)
  · exact (congrArg Draft.textEnd hdraft :)
  · exact (congrArg Draft.history hdraft :)
  · rw [tokensIn_map_token]
    exact hahead
  · exact (congrArg Draft.opened hdraft :)
  · exact hmarker ▸ hframed

theorem within_openMarker {d : Draft} (hd : s.draft.openMarker = .ok (m, d)) :
    Within m s { s with draft := d } [] := by
  unfold Draft.openMarker at hd
  split at hd
  · cases hd
  · cases hd
    have hmarker := fun id => s.draft.marker_push { resume := s.draft.ahead } id
    have hself := (hmarker s.draft.markers.size).trans (if_pos rfl)
    refine ⟨⟨?_, by simp, rfl, rfl, rfl, ?_⟩, rfl, by simp, ?_, ?_, .nil⟩
    · intro id hid
      exact (hmarker id).trans (if_neg (Nat.ne_of_lt hid))
    · intro id hid
      simp only [List.mem_singleton, Event.start.injEq] at hid
      simp [hid]
    · exact (congrArg Marker.state hself :)
    · exact (congrArg Marker.resume hself :)

theorem within_openBefore {m' : MarkerId} {d : Draft} (hs : s.Sound S)
    (h : Closed m false s s' p) (hd : s'.draft.openBefore m = .ok (m', d)) :
    Within m' s { s' with draft := d } (.start m :: p ++ [.stop m]) := by
  have hm := h.fresh m (by simp)
  have hhistory : s'.draft.history =
      (p ++ [Event.stop m]).reverse ++ .start m :: s.draft.history := by
    rw [h.events]
    simp
  have hopened : m ∉ s'.draft.opened := by
    rw [h.opened]
    intro hmem
    exact absurd (hs.known m hmem) (Nat.not_lt.mpr hm.1)
  obtain ⟨rfl, rfl⟩ : m' = s'.draft.markers.size ∧ d = { s'.draft with
      markers := s'.draft.markers.push { resume := s.draft.ahead }
      history := (p ++ [Event.stop m]).reverse ++ .start m :: .start m' :: s.draft.history
      opened := m' :: s.draft.opened } := by
    rw [Draft.openBefore_eq hhistory (by simpa using h.not_mem) hopened, h.resume,
      h.opened] at hd
    cases hd
    exact ⟨rfl, rfl⟩
  have hmarker := fun id => s'.draft.marker_push { resume := s.draft.ahead } id
  have hself := (hmarker s'.draft.markers.size).trans (if_pos rfl)
  have hnew : .start s'.draft.markers.size ∉ Event.start m :: p ++ [Event.stop m] :=
    fun hid => Nat.lt_irrefl _ (h.fresh _ hid).2
  refine ⟨⟨?_, ?_, h.textEnd, by simp, h.ahead, ?_⟩, rfl, hnew, ?_, ?_, ?_⟩
  · intro id hid
    exact (hmarker id).trans ((if_neg (Nat.ne_of_lt (Nat.lt_of_lt_of_le hid h.size))).trans
      (h.marker id hid))
  · exact Nat.le_trans h.size (by simp)
  · intro id hid
    rcases List.mem_cons.mp hid with hid | hid
    · cases hid
      exact ⟨h.size, by simp⟩
    · obtain ⟨h₁, h₂⟩ := h.fresh id hid
      exact ⟨h₁, Nat.lt_of_lt_of_le h₂ (by simp)⟩
  · exact (congrArg Marker.state hself :)
  · exact (congrArg Marker.resume hself :)
  · exact h.framed.congr fun id hid => (hmarker id).trans (if_neg (Nat.ne_of_lt (h.fresh id hid).2))

/-! ### Where a run goes -/

/-- The second state is ahead of the first one in the text. -/
structure Forth (s s' : ParseState) : Prop where
  tiled : s'.Tiled
  here : s.draft.current.offset ≤ s'.draft.current.offset
  lastEnd : s.lastEnd ≤ s'.lastEnd

theorem Forth.trans (h : Forth s₁ s₂) (k : Forth s₂ s₃) : Forth s₁ s₃ :=
  ⟨k.tiled, Nat.le_trans h.here k.here, Nat.le_trans h.lastEnd k.lastEnd⟩

/-- Nothing was consumed. -/
theorem Forth.of_eq (ht : s.Tiled) (hahead : s'.draft.ahead = s.draft.ahead)
    (htextEnd : s'.draft.textEnd = s.draft.textEnd) (hlastEnd : s'.lastEnd = s.lastEnd) :
    Forth s s' := by
  refine ⟨?_, Nat.le_of_eq ?_, Nat.le_of_eq hlastEnd.symm⟩
  · unfold ParseState.Tiled
    rw [hahead, htextEnd, hlastEnd]
    exact ht
  · unfold Draft.current Draft.lookahead
    rw [hahead, htextEnd]

theorem Forth.advanced (hs : s.Sound S) : Forth s s.advanced := by
  obtain ⟨p, hp⟩ := stepped_advanced false hs
  obtain ⟨start, hle, htiles⟩ := hs.tiled
  obtain ⟨hstart, hstop, -⟩ := Draft.le_offset_current htiles
  have hrest := Draft.tiles_advance htiles
  rw [← hp.textEnd] at hrest
  exact ⟨⟨_, Nat.le_refl _, hrest⟩, Nat.le_trans hstop (Draft.le_offset_current hrest).1,
    Nat.le_trans hle (Nat.le_trans hstart hstop)⟩

theorem Forth.closesOver {d : Draft} (h : Forth s s') (hd : s'.draft.ClosesOver m p d) :
    Forth s { s' with draft := d } :=
  h.trans (.of_eq h.tiled hd.ahead hd.textEnd rfl)

/-- By induction on the run: what is recorded is framed, whatever the grammar does, and the run goes
    forth. -/
theorem Run.goes {text : String} {P : NodeData → Span → Prop} {phase : Phase}
    (h : Run text P phase s s') (hs : s.Sound S) : phase.Records s s' ∧ Forth s s' := by
  induction h with
  | refl s => exact ⟨⟨[], .of_draft rfl⟩, .of_eq hs.tiled rfl rfl rfl⟩
  | advance s => exact ⟨stepped_advanced _ hs, .advanced hs⟩
  | alloc s _ => exact ⟨⟨[], .of_draft rfl⟩, .of_eq hs.tiled rfl rfl rfl⟩
  | unbrace s _ => exact ⟨⟨[], .of_draft rfl⟩, .of_eq hs.tiled rfl rfl rfl⟩
  | trans _ _ hled ih₁ ih₂ =>
    obtain ⟨⟨p, hp⟩, hforth⟩ := ih₁ hs
    obtain ⟨⟨q, hq⟩, hforth'⟩ := ih₂ (hp.sound hs hforth.tiled)
    exact ⟨⟨p ++ q, hp.trans hq hled⟩, hforth.trans hforth'⟩
  | undo _ hd ih =>
    obtain ⟨⟨p, hp⟩, -⟩ := ih hs
    have hundone := hp.undo false hd
    exact ⟨⟨[], hp.undo _ hd⟩, .of_eq hs.tiled hundone.ahead.symm hundone.textEnd rfl⟩
  | ended _ ih =>
    obtain ⟨⟨p, hp⟩, hforth⟩ := ih hs
    exact ⟨⟨_, hp.toStepped⟩, hforth⟩
  | openMarker hd =>
    have hin := within_openMarker hd
    exact ⟨⟨[], hin⟩, .of_eq hs.tiled hin.ahead.symm hin.textEnd rfl⟩
  | openBefore _ hd ih =>
    obtain ⟨⟨p, hp⟩, hforth⟩ := ih hs
    refine ⟨⟨_, within_openBefore hs hp hd⟩, hforth.trans (.of_eq hforth.tiled ?_ ?_ rfl)⟩
    all_goals
      unfold Draft.openBefore at hd
      split at hd
      · cases hd
      · cases hd
        rfl
  | more _ _ hled ih₁ ih₂ =>
    obtain ⟨⟨p, hp⟩, hforth⟩ := ih₁ hs
    obtain ⟨⟨q, hq⟩, hforth'⟩ := ih₂ (hp.sound hs hforth.tiled)
    exact ⟨⟨p ++ q, hp.trans hq hled⟩, hforth.trans hforth'⟩
  | close _ hd _ hled ih =>
    obtain ⟨⟨p, hp⟩, hforth⟩ := ih hs
    have hover := Draft.closeWith_over hp.new.2 hp.history hp.not_mem hd
    exact ⟨⟨p, hp.ends hover fun _ => hled⟩, hforth.closesOver hover⟩
  | closeGroup _ hd hled ih =>
    obtain ⟨⟨p, hp⟩, hforth⟩ := ih hs
    have hover := Draft.closeGroup_over hp.new.2 hp.history hp.not_mem hd
    exact ⟨⟨p, hp.ends hover fun _ => hled⟩, hforth.closesOver hover⟩
  | dissolve _ hd ih =>
    obtain ⟨⟨p, hp⟩, hforth⟩ := ih hs
    have hover := Draft.close_over hp.new.2 hp.history hp.not_mem hd
    have hstate := (Draft.close_closes hp.new.2 hd).2.1
    exact ⟨⟨p, hp.ends hover fun hdone => by
      rw [hstate] at hdone
      cases hdone⟩, hforth.closesOver hover⟩
  | report _ hd _ ih =>
    obtain ⟨⟨p, hp⟩, hforth⟩ := ih hs
    obtain ⟨hover, hstate⟩ := Draft.closeError_over hp.new.2 hp.history hp.not_mem hd
    exact ⟨⟨p, hp.ends hover fun hdone => absurd hdone hstate⟩, hforth.closesOver hover⟩
  | behind _ _ ih =>
    obtain ⟨⟨p, hp⟩, hforth⟩ := ih hs
    exact ⟨⟨p, ⟨⟨⟨hp.marker, hp.size, hp.textEnd, hp.events, hp.ahead, hp.fresh⟩, hp.opened,
      hp.framed⟩, hp.not_mem, hp.resume⟩⟩, hforth.trans (.of_eq hforth.tiled rfl rfl rfl)⟩

namespace Run

variable {text : String} {P : NodeData → Span → Prop} {phase : Phase}

theorem records (h : Run text P phase s s') (hs : s.Sound S) : phase.Records s s' := (h.goes hs).1

theorem forth (h : Run text P phase s s') (hs : s.Sound S) : Forth s s' := (h.goes hs).2

theorem sound (h : Run text P phase s s') (hs : s.Sound S) : s'.Sound S := by
  have hrecords := h.records hs
  have htiled := (h.forth hs).tiled
  cases phase with
  | steps led =>
    obtain ⟨p, hp⟩ := hrecords
    exact hp.sound hs htiled
  | inside m =>
    obtain ⟨p, hp⟩ := hrecords
    exact hp.sound hs htiled
  | whole m led =>
    obtain ⟨p, hp⟩ := hrecords
    exact hp.sound hs htiled

theorem writes (h : Run text P phase s s') (hs : s.Sound S) : ∃ p, Writes s s' p := by
  have hrecords := h.records hs
  cases phase with
  | steps led =>
    obtain ⟨p, hp⟩ := hrecords
    exact ⟨_, hp.toWrites⟩
  | inside m =>
    obtain ⟨p, hp⟩ := hrecords
    exact ⟨_, hp.toWrites⟩
  | whole m led =>
    obtain ⟨p, hp⟩ := hrecords
    exact ⟨_, hp.toWrites⟩

/-- A run consumes tokens, or none. -/
theorem length_le (h : Run text P phase s s') (hs : s.Sound S) :
    s'.draft.ahead.length ≤ s.draft.ahead.length := by
  obtain ⟨p, hp⟩ := h.writes hs
  rw [hp.ahead, List.length_append]
  omega

theorem moved (h : Run text P phase s₁ s₂) (hs : s₁.Sound S) (k : s₂.Moved s₃) : s₁.Moved s₃ :=
  Nat.lt_of_lt_of_le k (h.length_le hs)

theorem keeps_moved (h : Run text P phase s₂ s₃) (hs : s₂.Sound S) (k : s₁.Moved s₂) :
    s₁.Moved s₃ :=
  Nat.lt_of_le_of_lt (h.length_le hs) k

/-- Steps that are not led may follow any others. -/
theorem append {led : Bool} (h : Run text P (.steps led) s₁ s₂)
    (k : Run text P (.steps false) s₂ s₃) :
    Run text P (.steps led) s₁ s₃ :=
  .trans h k (by simp)

theorem extend {m : MarkerId} (h : Run text P (.inside m) s₁ s₂)
    (k : Run text P (.steps false) s₂ s₃) :
    Run text P (.inside m) s₁ s₃ :=
  .more h k (by simp)

/-! ### What a run allocates -/

/-- The arena grew, and every node that is new has the property `P`, except that braces may have
    turned out to be a plain block. -/
structure Allocates (P : NodeData → Span → Prop) (ast ast' : Ast) : Prop where
  extends_ast : ast.Extends ast'
  size : ast.size ≤ ast'.size
  new : ∀ n data, ast'.data? n = some data → ast.size ≤ n →
    ∃ old, old.Alike data ∧ P old (ast'.span n)

theorem Allocates.refl (ast : Ast) : Allocates P ast ast :=
  ⟨.refl ast, Nat.le_refl _, fun _ _ hdata hn =>
    absurd (Ast.lt_size_of_data? hdata) (Nat.not_lt.mpr hn)⟩

theorem Allocates.trans {ast₁ ast₂ ast₃ : Ast} (h : Allocates P ast₁ ast₂)
    (k : Allocates P ast₂ ast₃) : Allocates P ast₁ ast₃ where
  extends_ast := h.extends_ast.trans k.extends_ast
  size := Nat.le_trans h.size k.size
  new n data hdata hn := by
    by_cases hlt : n < ast₂.size
    · obtain ⟨data₂, hdata₂⟩ : ∃ data₂, ast₂.data? n = some data₂ :=
        ⟨ast₂.nodes[n].data, by simp [Ast.data?, Ast.node?, Array.getElem?_eq_getElem hlt]⟩
      obtain ⟨hspan, data₃, hdata₃, halike⟩ := k.extends_ast n data₂ hdata₂
      obtain ⟨old, hold, hP⟩ := h.new n data₂ hdata₂ hn
      obtain rfl := Option.some.inj (hdata.symm.trans hdata₃)
      exact ⟨old, hold.trans halike, hspan ▸ hP⟩
    · exact k.new n data hdata (Nat.le_of_not_lt hlt)

theorem Allocates.alloc {data : NodeData} {span : Span} (s : ParseState) (hP : P data span) :
    Allocates P s.ast (s.allocated data span).ast where
  extends_ast := s.extends_allocated data span
  size := by
    rw [s.size_allocated]
    exact Nat.le_succ _
  new n data' hdata hn := by
    have hlt := Ast.lt_size_of_data? hdata
    rw [s.size_allocated] at hlt
    obtain rfl : n = s.ast.size := Nat.le_antisymm (Nat.le_of_lt_succ hlt) hn
    obtain rfl := Option.some.inj ((s.data?_allocated data span).symm.trans hdata)
    exact ⟨data, .refl data, by rwa [s.span_allocated]⟩

theorem Allocates.unbrace {ast : Ast} {n body : NodeId} {isBlock : Bool}
    (hdata : ast.data? n = some (.closure [] body isBlock)) : Allocates P ast
      (ast.modify n fun node => { node with data := .closure [] body true }) where
  extends_ast := Rules.extends_plainBlock hdata
  size := Nat.le_of_eq (by simp [Ast.size, Ast.modify])
  new n' data' hdata' hn := by
    have hlt := Ast.lt_size_of_data? hdata'
    simp only [Ast.size, Ast.modify, Array.size_modify] at hlt hn
    omega

/-- By induction on the run. -/
theorem allocates (h : Run text P phase s s') : Allocates P s.ast s'.ast := by
  induction h with
  | refl s => exact .refl _
  | advance s => exact .refl _
  | alloc s hP => exact .alloc s hP
  | unbrace s hdata => exact .unbrace hdata
  | trans _ _ _ ih₁ ih₂ => exact ih₁.trans ih₂
  | undo _ _ ih => exact ih
  | ended _ ih => exact ih
  | openMarker _ => exact .refl _
  | openBefore _ _ ih => exact ih
  | more _ _ _ ih₁ ih₂ => exact ih₁.trans ih₂
  | close _ _ _ _ ih => exact ih
  | closeGroup _ _ _ ih => exact ih
  | dissolve _ _ ih => exact ih
  | report _ _ _ ih => exact ih
  | behind _ hP ih => exact ih.trans (.alloc _ hP)

end Run

end ScriptAnalysis
