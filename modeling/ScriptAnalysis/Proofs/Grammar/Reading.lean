import ScriptAnalysis.Grammar.Production
import ScriptAnalysis.Proofs.Ast.Severed
import ScriptAnalysis.Proofs.Recording.Announced
import ScriptAnalysis.Proofs.Recording.Operations
import ScriptAnalysis.Proofs.Token.Cover

/-!
# What a production leaves behind

A production that succeeds has recorded some constructs and left their nodes in the arena:
`Reads s s' p ns` says that the events `p` were added, and that they record the nodes `ns`.  While a
construct is being read its marker is open: `Inside m s s' p ns` says that `m` was opened and that
`p` stands after its start.

Both go on with what is read next, and the ways to end a marker lead from the second to the first.
-/

namespace ScriptAnalysis

namespace ParseState

def point (s : ParseState) : ParsePoint := ⟨s.ast.size, s.lastEnd⟩

/-- What holds of a state between any two steps: the tokens ahead follow what was consumed, they
    are not empty, and the opened markers are known. -/
structure Fit (s : ParseState) : Prop where
  tiles : ∃ start, s.lastEnd ≤ start ∧ Tiles start s.draft.ahead s.draft.textEnd
  solid : ∀ t ∈ s.draft.ahead, t.kind ≠ .eof → t.span.start < t.span.stop
  known : ∀ id ∈ s.draft.opened, id < s.draft.markers.size

end ParseState

theorem Tiles.start_le {a b : Nat} {t : Token} {us ts : List Token}
    (h : Tiles a (us ++ t :: ts) b) : a ≤ t.span.start ∧ t.span.start ≤ t.span.stop ∧
      Tiles t.span.stop ts b := by
  obtain ⟨c, hus, hts⟩ := append_iff.mp h
  obtain ⟨rfl, hle, hrest⟩ := cons_iff.mp hts
  exact ⟨hus.le, hle, hrest⟩

namespace Draft

/-- The next token is ahead, unless nothing but trivia is. -/
theorem current_cases (d : Draft) :
    (∃ blank rest, d.ahead = blank ++ d.current :: rest ∧ (∀ b ∈ blank, b.isTrivia = true) ∧
      d.current.isTrivia = false) ∨
    ((∀ b ∈ d.ahead, b.isTrivia = true) ∧ d.current = ⟨.eof, .point d.textEnd⟩) := by
  rcases consume_cases d.ahead [] with ⟨blank, t, rest, he, hb, ht, hs, -⟩ | ⟨hb, hs, -⟩
  · have hcur : d.current = t := by simp [current, lookahead, hs]
    exact .inl ⟨blank, rest, by rw [hcur]; exact he, hb, by rw [hcur]; exact ht⟩
  · exact .inr ⟨hb, by simp [current, lookahead, hs]⟩

theorem le_offset_current {d : Draft} {start : Nat} (h : Tiles start d.ahead d.textEnd) :
    start ≤ d.current.offset ∧ d.current.offset ≤ d.current.span.stop ∧
      d.current.span.stop ≤ d.textEnd := by
  rcases d.current_cases with ⟨blank, rest, hahead, -, -⟩ | ⟨-, hcur⟩
  · rw [hahead] at h
    obtain ⟨h₁, h₂, h₃⟩ := h.start_le
    exact ⟨h₁, h₂, h₃.le⟩
  · rw [hcur]
    exact ⟨h.le, Nat.le_refl _, Nat.le_refl _⟩

/-- What is ahead after the next token starts where that token ends. -/
theorem tiles_advance {d : Draft} {start : Nat} (h : Tiles start d.ahead d.textEnd) :
    Tiles d.current.span.stop d.advance.ahead d.textEnd := by
  rcases advance_cases d with ⟨blank, t, rest, hahead, -, -, hcur, hadv⟩ | ⟨hb, hadv⟩
  · rw [hahead] at h
    rw [hcur, hadv]
    exact h.start_le.2.2
  · rcases d.current_cases with ⟨blank, rest, hahead, -, hcur⟩ | ⟨-, hcur⟩
    · rw [hb d.current (by rw [hahead]; simp)] at hcur
      cases hcur
    · rw [hcur, hadv]
      exact .nil _

end Draft

namespace ParseState

variable {s s' : ParseState}

theorem Fit.lastEnd_le (h : s.Fit) : s.lastEnd ≤ s.draft.current.offset := by
  obtain ⟨start, hle, htiles⟩ := h.tiles
  exact Nat.le_trans hle (Draft.le_offset_current htiles).1

theorem Fit.current_lt (h : s.Fit) (hk : s.draft.current.kind ≠ .eof) :
    s.draft.current.offset < s.draft.current.span.stop := by
  rcases s.draft.current_cases with ⟨blank, rest, hahead, -, -⟩ | ⟨-, hcur⟩
  · exact h.solid s.draft.current (by rw [hahead]; simp) hk
  · rw [hcur] at hk
    exact absurd rfl hk

end ParseState

/-! ### Steps of a parse -/

/-- What a step changes at most: it adds markers and nodes, and goes on in the text. -/
structure Advances (s s' : ParseState) : Prop where
  marker : ∀ id < s.draft.markers.size, s'.draft.marker id = s.draft.marker id
  size : s.draft.markers.size ≤ s'.draft.markers.size
  textEnd : s'.draft.textEnd = s.draft.textEnd
  ast : s.ast.Extends s'.ast
  kept : s.ast.Keeps s'.ast
  here : s.draft.current.offset ≤ s'.draft.current.offset
  fit : s'.Fit

/-- The events `p` were added to `history`, and they record the nodes `ns`. -/
structure Piece (history : List Event) (s s' : ParseState) (p : List Event) (ns : List NodeId) :
    Prop extends Advances s s' where
  events : s'.draft.history = p.reverse ++ history
  ahead : s.draft.ahead = tokensIn p ++ s'.draft.ahead
  fresh : ∀ id, .start id ∈ p → s.draft.markers.size ≤ id ∧ id < s'.draft.markers.size
  nodup : (p.filterMap Event.started?).Nodup
  announces : Announces s'.draft.marker history p s'.draft.ahead
  recorded : Recorded s'.ast s'.draft.marker s.point p ns s'.point
  severed : Severed s.ast.size s.draft.markers.size s'.ast s'.draft.marker ns

/-- The events `p` were added, and they record the nodes `ns`. -/
structure Reads (s s' : ParseState) (p : List Event) (ns : List NodeId) : Prop
    extends Piece s.draft.history s s' p ns where
  opened : s'.draft.opened = s.draft.opened

/-- The marker `m` was opened, and the events `p` after its start record the nodes `ns`. -/
structure Inside (m : MarkerId) (s s' : ParseState) (p : List Event) (ns : List NodeId) : Prop
    extends Piece (.start m :: s.draft.history) s s' p ns where
  opened : s'.draft.opened = m :: s.draft.opened
  new : s.draft.markers.size ≤ m ∧ m < s'.draft.markers.size
  not_mem : .start m ∉ p
  state : (s'.draft.marker m).state = .opened
  node : (s'.draft.marker m).node = none
  kind : (s'.draft.marker m).kind = none
  resume : (s'.draft.marker m).resume = s.draft.ahead

theorem Advances.trans {s₁ s₂ s₃ : ParseState} (h : Advances s₁ s₂) (k : Advances s₂ s₃) :
    Advances s₁ s₃ where
  marker id hid := by rw [k.marker id (Nat.lt_of_lt_of_le hid h.size), h.marker id hid]
  size := Nat.le_trans h.size k.size
  textEnd := k.textEnd.trans h.textEnd
  ast := h.ast.trans k.ast
  kept := h.kept.trans k.kept
  here := Nat.le_trans h.here k.here
  fit := k.fit

theorem Event.started_wrap (m : MarkerId) (p : List Event) :
    (Event.start m :: p ++ [Event.stop m]).filterMap Event.started? =
      m :: p.filterMap Event.started? := by
  simp [List.filterMap_cons, Event.started?]

theorem Event.nodup_wrap {m : MarkerId} {p : List Event} (hm : .start m ∉ p)
    (hp : (p.filterMap Event.started?).Nodup) :
    ((Event.start m :: p ++ [Event.stop m]).filterMap Event.started?).Nodup := by
  rw [Event.started_wrap]
  exact List.nodup_cons.mpr ⟨mt mem_started_iff.mp hm, hp⟩

/-- A marker that was not opened yet has no node. -/
theorem Draft.node_of_size_le {d : Draft} {m : MarkerId} (h : d.markers.size ≤ m) :
    (d.marker m).node = none := by
  unfold Draft.marker
  rw [Array.getD_eq_getD_getElem?, Array.getElem?_eq_none h]
  rfl

section Pieces

variable {s s₁ s₂ s₃ : ParseState} {history p q : List Event} {ns ms : List NodeId}

theorem Reads.refl (h : s.Fit) : Reads s s [] [] where
  marker _ _ := rfl
  size := Nat.le_refl _
  textEnd := rfl
  ast := .refl _
  kept := .refl _
  here := Nat.le_refl _
  fit := h
  events := rfl
  ahead := rfl
  opened := rfl
  fresh := by simp
  nodup := .nil
  announces := .tokens []
  recorded := .nil (.refl _)
  severed := .refl fun _ => Draft.node_of_size_le

namespace Piece

/-- What was recorded is still recorded later on. -/
theorem recorded_later (h : Piece history s₁ s₂ p ns) (k : Advances s₂ s₃) :
    Recorded s₃.ast s₃.draft.marker s₁.point p ns s₂.point :=
  h.recorded.mono k.ast fun id hid => k.marker id (h.fresh id hid).2

theorem trans (h : Piece history s₁ s₂ p ns) (k : Reads s₂ s₃ q ms) :
    Piece history s₁ s₃ (p ++ q) (ns ++ ms) where
  toAdvances := h.toAdvances.trans k.toAdvances
  events := by rw [k.events, h.events, List.reverse_append, List.append_assoc]
  ahead := by rw [h.ahead, k.ahead, tokensIn_append, List.append_assoc]
  fresh id hid := by
    rcases List.mem_append.mp hid with hid | hid
    · obtain ⟨h₁, h₂⟩ := h.fresh id hid
      exact ⟨h₁, Nat.lt_of_lt_of_le h₂ k.size⟩
    · obtain ⟨h₁, h₂⟩ := k.fresh id hid
      exact ⟨Nat.le_trans h.size h₁, h₂⟩
  nodup := by
    rw [List.filterMap_append]
    refine List.nodup_append.mpr ⟨h.nodup, k.nodup, fun i hi j hj => ?_⟩
    have hlt := (h.fresh i (mem_started_iff.mp hi)).2
    have hle := (k.fresh j (mem_started_iff.mp hj)).1
    exact Nat.ne_of_lt (Nat.lt_of_lt_of_le hlt hle)
  announces := by
    have hp := h.announces.congr fun id hid => k.marker id (h.fresh id hid).2
    have hq := k.announces
    rw [k.ahead] at hp
    rw [h.events] at hq
    exact hp.append hq
  recorded := (h.recorded_later k.toAdvances).append k.recorded
  severed := h.severed.append k.severed k.kept k.marker h.recorded.precedes.ids
    (fun _ => h.recorded.laid.mem_lt) fun _ => k.recorded.laid.mem_lt

end Piece

theorem Reads.trans (h : Reads s₁ s₂ p ns) (k : Reads s₂ s₃ q ms) :
    Reads s₁ s₃ (p ++ q) (ns ++ ms) where
  toPiece := h.toPiece.trans k
  opened := k.opened.trans h.opened

end Pieces

namespace Inside

variable {m : MarkerId} {s s₁ s₂ s₃ : ParseState} {p q : List Event} {ns ms : List NodeId}

/-- A marker among the events inside is another one. -/
theorem ne (h : Inside m s₁ s₂ p ns) {id : MarkerId} (hid : .start id ∈ p) : id ≠ m := by
  rintro rfl
  exact h.not_mem hid

theorem trans (h : Inside m s₁ s₂ p ns) (k : Reads s₂ s₃ q ms) :
    Inside m s₁ s₃ (p ++ q) (ns ++ ms) where
  toPiece := h.toPiece.trans k
  opened := k.opened.trans h.opened
  new := ⟨h.new.1, Nat.lt_of_lt_of_le h.new.2 k.size⟩
  not_mem hid := by
    rcases List.mem_append.mp hid with hid | hid
    · exact h.not_mem hid
    · exact Nat.not_lt.mpr (k.fresh m hid).1 h.new.2
  state := by rw [k.marker m h.new.2, h.state]
  node := by rw [k.marker m h.new.2, h.node]
  kind := by rw [k.marker m h.new.2, h.kind]
  resume := by rw [k.marker m h.new.2, h.resume]

end Inside

/-! ### Ending a marker -/

namespace Draft

variable {m : MarkerId} {d d' : Draft}

/-- What a marker has that ends as a node: its kind, and the name among the events `p` in it. -/
structure ClosesAs (m : MarkerId) (p : List Event) (n : NodeId) (kind : NodeKind) (d d' : Draft) :
    Prop extends d.Closes m d' where
  state : (d'.marker m).state = .done
  offset : (d'.marker m).offset = firstOffset p
  node : (d'.marker m).node = some n
  kind_eq : (d'.marker m).kind = some kind
  name : ∃ markers : Array Marker, (∀ j, j ≠ m → markers.getD j {} = d.marker j) ∧
    (d'.marker m).nameMarker = (declaredNameKinds kind).bind fun wanted =>
      findName markers wanted m (p ++ [.stop m]) []

theorem closeAs_closes {p : List Event} {n : NodeId} {kind : NodeKind} {earlier : List Event}
    (hm : m < d.markers.size) (hhistory : d.history = p.reverse ++ .start m :: earlier)
    (hfresh : .start m ∉ p) (h : d.closeAs m n kind = .ok d') : d.ClosesAs m p n kind d' := by
  obtain ⟨d₁, hclose, rfl⟩ := closeAs_cases h
  obtain ⟨hcloses, hstate, hoffset, -, -⟩ := close_closes hm hclose
  have hstart := startOffset_eq hhistory hfresh
  have hm₁ : m < d₁.markers.size := hcloses.size ▸ hm
  have hhistory₁ : d₁.history = (p ++ [Event.stop m]).reverse ++ .start m :: earlier := by
    rw [hcloses.history, hhistory]
    simp
  obtain ⟨hsince, hupTo⟩ := since_upTo_eq hhistory₁ (by simpa using hfresh)
  have hname : d₁.nameMarker? m kind = (declaredNameKinds kind).bind fun wanted =>
      findName d₁.markers wanted m (p ++ [.stop m]) [] := by
    unfold nameMarker?
    cases declaredNameKinds kind with
    | none => rfl
    | some wanted =>
      simp [hupTo, hsince]
  have hmarker := fun j => d₁.marker_modify m j (fun r =>
    { r with kind := some kind, node := some n, nameMarker := d₁.nameMarker? m kind }) hm₁
  refine ⟨hcloses.modifyMarker hm fun _ => rfl, ?_, ?_, ?_, ?_, d₁.markers, hcloses.marker, ?_⟩
  · rw [hmarker, if_pos rfl, hstate]
  · rw [hmarker, if_pos rfl, hoffset, hstart]
  · rw [hmarker, if_pos rfl]
  · rw [hmarker, if_pos rfl]
  · rw [hmarker, if_pos rfl, hname]

/-- A marker that ends with the kind of a node means the node. -/
theorem ClosesAs.means {p : List Event} {n : NodeId} {kind : NodeKind} {data : NodeData}
    (h : d.ClosesAs m p n kind d') (hkind : NodeKind.of? data = some kind) :
    (d'.marker m).Means n data p where
  state := h.state
  offset := h.offset
  node := h.node
  kind := h.kind_eq.trans hkind.symm
  known := by simp [hkind]
  unnamed hnone := by
    obtain ⟨markers, -, hname⟩ := h.name
    rw [hkind, Option.bind_some] at hnone
    rw [hname, hnone]
    rfl

theorem closeGroup_closes (hm : m < d.markers.size) (h : d.closeGroup m = .ok d') :
    d.Closes m d' ∧ (d'.marker m).node = (d.marker m).node ∧ (d'.marker m).state = .done ∧
      (d'.marker m).kind = some .group := by
  obtain ⟨d₁, hclose, rfl⟩ := closeGroup_cases h
  obtain ⟨hcloses, hstate, -, hnode, -⟩ := close_closes hm hclose
  have hmarker := d₁.marker_modify m m (fun r => { r with kind := some .group })
    (hcloses.size ▸ hm)
  refine ⟨hcloses.modifyMarker hm fun _ => rfl, ?_, ?_, ?_⟩
  · rw [hmarker, if_pos rfl, hnode]
  · rw [hmarker, if_pos rfl, hstate]
  · rw [hmarker, if_pos rfl]

theorem closeError_closes (hm : m < d.markers.size) {diagnostic : Diagnostic}
    (h : d.closeError m diagnostic = .ok d') :
    d.Closes m d' ∧ (d'.marker m).node = (d.marker m).node ∧
      (d'.marker m).kind = (d.marker m).kind := by
  rcases closeError_cases h with ⟨-, hdissolve⟩ | ⟨messages, d₁, -, hclose, rfl⟩
  · obtain ⟨hcloses, -, -, hnode, hkind⟩ := close_closes hm hdissolve
    exact ⟨hcloses, hnode, hkind⟩
  · obtain ⟨hcloses, -, -, hnode, hkind⟩ := close_closes (d := { d with messages }) hm hclose
    have hmarker := d₁.marker_modify m m (fun r => { r with diagnostic := some diagnostic })
      (hcloses.size ▸ hm)
    refine ⟨hcloses.of_messages.modifyMarker hm fun _ => rfl, ?_, ?_⟩
    · rw [hmarker, if_pos rfl, hnode]
      rfl
    · rw [hmarker, if_pos rfl, hkind]
      rfl

end Draft

namespace Inside

variable {m : MarkerId} {s₀ s s₁ : ParseState} {p : List Event} {ns ms : List NodeId} {d : Draft}

/-- When a marker is ended, perhaps after nodes were allocated for it, what its events record
    depends on how it is ended. -/
theorem ends (h : Inside m s₀ s p ns) (hlast : s₁.lastEnd = s.lastEnd) (hast : s.ast.Extends s₁.ast)
    (hkept : s₀.ast.Keeps s₁.ast) (hc : s.draft.Closes m d)
    (hannounced : (d.marker m).kind = some .varDecl →
      Announced (d.marker m) s₀.draft.history s₀.draft.ahead)
    (hrecorded : Recorded s₁.ast d.marker s₀.point p ns s.point →
      Recorded s₁.ast d.marker s₀.point (.start m :: p ++ [.stop m]) ms s₁.point)
    (hsevered : Severed s₀.ast.size s₀.draft.markers.size s₁.ast s.draft.marker ms)
    (hnode : ∀ n, (d.marker m).node = some n → (d.marker m).state ≠ .rolledBack ∧
      s₀.ast.size ≤ n ∧ n < s₁.ast.size) :
    Reads s₀ { s₁ with draft := d } (.start m :: p ++ [.stop m]) ms := by
  have hsame : d.current = s.draft.current := by
    unfold Draft.current Draft.lookahead
    rw [hc.ahead, hc.textEnd]
  have hmarker : ∀ id, .start id ∈ p → d.marker id = s.draft.marker id :=
    fun id hid => hc.marker id (h.ne hid)
  refine ⟨⟨⟨?_, ?_, hc.textEnd.trans h.textEnd, h.ast.trans hast, hkept, ?_, ?_⟩, ?_,
    ?_, ?_, ?_, ?_, ?_, ?_⟩, ?_⟩
  · intro id hid
    exact (hc.marker id (Nat.ne_of_lt (Nat.lt_of_lt_of_le hid h.new.1))).trans (h.marker id hid)
  · exact Nat.le_trans h.size (Nat.le_of_eq hc.size.symm)
  · dsimp only
    rw [hsame]
    exact h.here
  · have hfit := h.fit
    refine ⟨?_, ?_, ?_⟩
    · dsimp only
      rw [hlast, hc.ahead, hc.textEnd]
      exact hfit.tiles
    · dsimp only
      rw [hc.ahead]
      exact hfit.solid
    · intro id hid
      dsimp only
      rw [hc.size]
      exact hfit.known id (by rw [hc.opened]; exact List.mem_cons_of_mem _ hid)
  · dsimp only
    rw [hc.history, h.events]
    simp
  · dsimp only
    rw [hc.ahead, h.ahead]
    simp
  · intro id hid
    dsimp only
    rw [hc.size]
    rcases List.mem_append.mp hid with hid | hid
    · rcases List.mem_cons.mp hid with hid | hid
      · cases hid
        exact h.new
      · exact h.fresh id hid
    · simp at hid
  · exact Event.nodup_wrap h.not_mem h.nodup
  · dsimp only
    rw [hc.ahead]
    refine (h.announces.congr hmarker).wrap ?_
    rw [← h.ahead]
    exact hannounced
  · exact hrecorded (h.recorded.mono hast hmarker)
  · refine hsevered.congr fun id _ => ?_
    by_cases hid : id = m
    · exact .inr (hid ▸ hnode)
    · exact .inl (hc.marker id hid)
  · exact (List.cons.inj (hc.opened.symm.trans h.opened)).2

/-- A marker that ends without a node does not count. -/
theorem ends_hidden (h : Inside m s₀ s p ns) (hc : s.draft.Closes m d)
    (hnode : (d.marker m).node = (s.draft.marker m).node)
    (hkind : (d.marker m).kind ≠ some .varDecl) :
    Reads s₀ { s with draft := d } (.start m :: p ++ [.stop m]) ns :=
  h.ends rfl (.refl _) h.kept hc (fun hvar => absurd hvar hkind)
    (.hidden (hnode.trans h.node) hkind) h.severed
      fun n hn => by cases (hnode.trans h.node).symm.trans hn

/-- What taking a marker back makes of a recording. -/
theorem eq_of_undo (h : Inside m s₀ s p ns) (hundo : s.draft.undo m = .ok d) :
    d = { ((p.reverse ++ [Event.start m]).filterMap Event.started?).foldl Draft.retract s.draft with
      history := s₀.draft.history, opened := s₀.draft.opened, ahead := s₀.draft.ahead } := by
  have hok := Draft.undo_eq h.state h.events (by simpa using h.not_mem) (α := []) h.opened
    List.not_mem_nil
  rw [h.resume] at hok
  exact Except.ok.inj (hundo.symm.trans hok)

/-- Taking a marker back leaves nothing but nodes that belong to nothing. -/
theorem undo (h : Inside m s₀ s p ns) (hfit : s₀.Fit) (hundo : s.draft.undo m = .ok d) :
    Reads s₀ { s with draft := d, lastEnd := s₀.lastEnd } [] [] := by
  obtain ⟨hhistory, hopened, -, hsize, hmarker⟩ := Draft.foldl_retract
    ((p.reverse ++ [Event.start m]).filterMap Event.started?) s.draft
  have hd := h.eq_of_undo hundo
  have hold : ∀ id < s₀.draft.markers.size, d.marker id = s₀.draft.marker id := by
    intro id hid
    rw [hd, ← h.marker id hid]
    refine hmarker id ?_
    intro hmem
    have hle : s₀.draft.markers.size ≤ id := by
      rcases List.mem_append.mp (mem_started_iff.mp hmem) with hstart | hstart
      · exact (h.fresh id (List.mem_reverse.mp hstart)).1
      · cases List.mem_singleton.mp hstart
        exact h.new.1
    exact absurd hid (Nat.not_lt.mpr hle)
  have hahead : d.ahead = s₀.draft.ahead := by rw [hd]
  have htext : d.textEnd = s₀.draft.textEnd := by
    rw [hd]
    exact (Draft.foldl_retract_textEnd _ _).trans h.textEnd
  have hsame : d.current = s₀.draft.current := by
    unfold Draft.current Draft.lookahead
    rw [hahead, htext]
  have hsize' : s₀.draft.markers.size ≤ d.markers.size := by
    rw [hd]
    exact Nat.le_trans h.size (Nat.le_of_eq hsize.symm)
  refine ⟨⟨⟨hold, hsize', htext, h.ast, h.kept, ?_, ?_⟩, ?_, hahead.symm, by simp, .nil, .tokens [],
    .nil ⟨?_, Nat.le_refl _⟩, h.severed.forget fun id => ?_⟩, ?_⟩
  · exact Nat.le_of_eq (congrArg Token.offset hsame.symm)
  · refine ⟨?_, ?_, ?_⟩
    · dsimp only
      rw [hahead, htext]
      exact hfit.tiles
    · dsimp only
      rw [hahead]
      exact hfit.solid
    · intro id hid
      rw [show d.opened = s₀.draft.opened by rw [hd]] at hid
      exact Nat.lt_of_lt_of_le (hfit.known id hid) hsize'
  · rw [show d.history = s₀.draft.history by rw [hd]]
    rfl
  · exact h.recorded.precedes.ids
  · rw [hd]
    exact Draft.foldl_retract_node _ s.draft id
  · rw [hd]

end Inside

/-! ### New nodes -/

namespace ParseState

/-- The state after a node was allocated. -/
def allocated (s : ParseState) (data : NodeData) (span : Span) : ParseState :=
  { s with ast := (s.ast.alloc data span).2 }

variable (s : ParseState) (data : NodeData) (span : Span)

theorem size_allocated : (s.allocated data span).ast.size = s.ast.size + 1 :=
  s.ast.size_alloc data span

theorem keeps_allocated : s.ast.Keeps (s.allocated data span).ast := s.ast.keeps_alloc data span

theorem data?_allocated : (s.allocated data span).ast.data? s.ast.size = some data :=
  (s.ast.data?_alloc data span s.ast.size).trans (if_pos rfl)

theorem span_allocated : (s.allocated data span).ast.span s.ast.size = span := by
  simp [allocated, Ast.alloc, Ast.span, Ast.node?, Ast.size]

theorem extends_allocated : s.ast.Extends (s.allocated data span).ast := by
  intro n old hold
  have hn : n < s.ast.nodes.size := by
    by_contra hle
    rw [Ast.data?, Ast.node?, Array.getElem?_eq_none (Nat.le_of_not_lt hle)] at hold
    cases hold
  have hsame : (s.allocated data span).ast.node? n = s.ast.node? n := by
    simp [allocated, Ast.alloc, Ast.node?, Array.getElem?_push, Nat.ne_of_lt hn]
  refine ⟨?_, old, ?_, .refl old⟩
  · unfold Ast.span
    rw [hsame]
  · unfold Ast.data? at hold ⊢
    rw [hsame, hold]

variable {s data span}

/-- Where a new node stands that is known to stand for tokens. -/
def Spans (s₀ s : ParseState) (data : NodeData) (span : Span) : Prop :=
  data.isSolid = true → s₀.lastEnd ≤ span.start ∧ span.start < span.stop ∧ span.stop = s.lastEnd

theorem allots_allocated {s₀ : ParseState} {b : ParsePoint} (hformed : data.Formed s.ast)
    (hspan : Spans s₀ s data span) (hb : s₀.point.Precedes b)
    (hlead : ∀ name value, data = .assign name value → span.start < b.text)
    (hdecl : ∀ decl, data = .varDecl decl → s.ast.span decl = span) :
    Allots (s.allocated data span).ast s₀.point b s.point s.ast.size data
      (s.allocated data span).point where
  found := s.data?_allocated data span
  formed := (s.extends_allocated data span).formed hformed
  before := hb
  le_id := Nat.le_refl _
  id_lt := by
    dsimp only [point]
    rw [size_allocated]
    exact Nat.lt_succ_self _
  text := Nat.le_refl _
  start hsolid := by
    rw [span_allocated]
    exact (hspan hsolid).1
  solid hsolid := by
    rw [span_allocated]
    exact (hspan hsolid).2.1
  parts hsolid := by
    rw [span_allocated]
    exact Nat.le_of_eq (hspan hsolid).2.2.symm
  stop hsolid := by
    rw [span_allocated]
    exact Nat.le_of_eq (hspan hsolid).2.2
  lead name value hdata := by
    rw [span_allocated]
    exact hlead name value hdata
  decl decl hdata := by
    subst hdata
    obtain ⟨v, hv⟩ := hformed
    rw [span_allocated, (s.extends_allocated _ span).span hv]
    exact (hdecl decl rfl).symm

end ParseState

open ParseState

variable {m : MarkerId} {s₀ s : ParseState} {p : List Event} {ns ms : List NodeId} {data : NodeData}
  {span : Span}

theorem Advances.allocated (h : Advances s₀ s) : Advances s₀ (s.allocated data span) where
  marker := h.marker
  size := h.size
  textEnd := h.textEnd
  ast := h.ast.trans (s.extends_allocated data span)
  kept := h.kept.trans (s.keeps_allocated data span)
  here := h.here
  fit := ⟨h.fit.tiles, h.fit.solid, h.fit.known⟩

/-- A node is allocated from some of the constructs, and takes part in what is left. -/
theorem Piece.severed_allocated {history : List Event} (h : Piece history s₀ s p ns)
    (hparts : ∀ k ∈ data.parts, k ∈ ns) (hms : ∀ k ∈ ms, k ∈ ns ∨ k = s.ast.size)
    (hplain : ∀ params body, data ≠ .closure params body true) :
    Severed s₀.ast.size s₀.draft.markers.size (s.allocated data span).ast s.draft.marker ms :=
  h.severed.alloc (fun _ => h.recorded.laid.mem_lt) hparts hms hplain

theorem Piece.bare {history : List Event} (h : Piece history s₀ s p (ms ++ data.parts))
    (hbare : data.isBare = true) (hms : data.isSolid = true → ms = [])
    (hformed : data.Formed s.ast) (hspan : Spans s₀ s data span) :
    Piece history s₀ (s.allocated data span) p (ms ++ [s.ast.size]) where
  toAdvances := h.toAdvances.allocated
  events := h.events
  ahead := h.ahead
  fresh := h.fresh
  nodup := h.nodup
  announces := h.announces
  recorded := by
    refine .bare (h.recorded.mono (s.extends_allocated data span) fun _ _ => rfl) hbare hms
      (allots_allocated hformed hspan (.refl _) ?_ ?_)
    · rintro name value rfl
      cases hbare
    · rintro decl rfl
      cases hbare
  severed := by
    refine h.severed_allocated (fun k hk => List.mem_append_right _ hk) (fun k hk => ?_) ?_
    · rcases List.mem_append.mp hk with hk | hk
      · exact .inl (List.mem_append_left _ hk)
      · exact .inr (List.mem_singleton.mp hk)
    · rintro params body rfl
      cases hbare

/-- After its parts, a node is allocated that has no marker of its own. -/
theorem Reads.bare (h : Reads s₀ s p (ms ++ data.parts)) (hbare : data.isBare = true)
    (hms : data.isSolid = true → ms = []) (hformed : data.Formed s.ast)
    (hspan : Spans s₀ s data span) : Reads s₀ (s.allocated data span) p (ms ++ [s.ast.size]) where
  toPiece := h.toPiece.bare hbare hms hformed hspan
  opened := h.opened

theorem Inside.bare (h : Inside m s₀ s p (ms ++ data.parts)) (hbare : data.isBare = true)
    (hms : data.isSolid = true → ms = []) (hformed : data.Formed s.ast)
    (hspan : Spans s₀ s data span) :
    Inside m s₀ (s.allocated data span) p (ms ++ [s.ast.size]) where
  toPiece := h.toPiece.bare hbare hms hformed hspan
  opened := h.opened
  new := h.new
  not_mem := h.not_mem
  state := h.state
  node := h.node
  kind := h.kind
  resume := h.resume

/-- A node is allocated after its parts, and its marker ends with it. -/
theorem Inside.ends_node {d : Draft} {kind : NodeKind} {b : ParsePoint}
    (h : Inside m s₀ s p ns) (hlaid : Laid s.ast b ns s.point) (hb : s₀.point.Precedes b)
    (hlead : ∀ name value, data = .assign name value → span.start < b.text)
    (harranged : data.Arranged ns) (hkind : NodeKind.of? data = some kind)
    (hformed : data.Formed s.ast) (hspan : Spans s₀ s data span)
    (hdecl : ∀ decl, data = .varDecl decl → s.ast.span decl = span)
    (hplain : ∀ params body, data ≠ .closure params body true)
    (hc : s.draft.ClosesAs m p s.ast.size kind d)
    (hannounced : kind = .varDecl → Announced (d.marker m) s₀.draft.history s₀.draft.ahead)
    (hshown : data.Shown (s.allocated data span).ast d.marker m p) :
    Reads s₀ { s.allocated data span with draft := d } (.start m :: p ++ [.stop m])
      [s.ast.size] := by
  have hextends := s.extends_allocated data span
  have hvar : (d.marker m).kind = some .varDecl → kind = .varDecl := fun hvar =>
    Option.some.inj (hc.kind_eq.symm.trans hvar)
  refine h.ends rfl hextends (h.kept.trans (s.keeps_allocated data span)) hc.toCloses
    (fun h => hannounced (hvar h)) (fun hrecorded =>
      .node hrecorded (hlaid.later hextends) harranged
      (allots_allocated hformed hspan hb hlead hdecl) (hc.means hkind) hshown) ?_ fun n hn => ?_
  · exact h.severed_allocated (fun k hk => harranged.perm.mem_iff.mpr hk)
      (fun k hk => .inr (List.mem_singleton.mp hk)) hplain
  · obtain rfl := Option.some.inj (hc.node.symm.trans hn)
    refine ⟨by rw [hc.state]; decide, h.recorded.precedes.ids, ?_⟩
    exact Nat.lt_of_lt_of_eq (Nat.lt_succ_self _) (s.size_allocated data span).symm

end ScriptAnalysis
