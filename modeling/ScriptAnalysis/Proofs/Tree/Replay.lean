import ScriptAnalysis.Proofs.Recording.Brackets
import ScriptAnalysis.Proofs.Tree.Change
import ScriptAnalysis.Tree.Assembly

/-!
# The replay of a transcript, step by step

`Transcript.Step` says what the replay does at one event, and `Transcript.Replays` what it does at
some of them; the replay is the one run from the empty tree through all events.  A property that
every step keeps is a property of every tree.

The nodes of the entered markers are the open nodes of the tree, and a step is one of the changes of
such a tree.
-/

namespace ScriptAnalysis

/-- The nodes of the markers entered and not left, innermost first, and the root. -/
def openNodes (frames : List Frame) : List TreeId :=
  frames.filterMap Frame.node ++ [SourceTree.root]

theorem openNodes_eq (frames : List Frame) :
    ∃ above, openNodes frames = currentParent frames :: above := by
  unfold openNodes currentParent
  induction frames with
  | nil => exact ⟨[], rfl⟩
  | cons frame frames ih =>
    cases h : frame.node with
    | none => simpa [h] using ih
    | some node => exact ⟨frames.filterMap Frame.node ++ [SourceTree.root], by simp [h]⟩

theorem currentParent_mem (frames : List Frame) : currentParent frames ∈ openNodes frames := by
  obtain ⟨above, heq⟩ := openNodes_eq frames
  rw [heq]
  exact List.mem_cons_self

theorem openNodes_some {frame : Frame} {node : TreeId} (h : frame.node = some node)
    (frames : List Frame) : openNodes (frame :: frames) = node :: openNodes frames := by
  simp [openNodes, h]

theorem openNodes_none {frame : Frame} (h : frame.node = none) (frames : List Frame) :
    openNodes (frame :: frames) = openNodes frames := by
  simp [openNodes, h]

namespace Assembly

/-! ### What a step does to the tree -/

/-- A token is joined to the last leaf where it can be, and a leaf of its own otherwise. -/
theorem pushLeaf_tree (a : Assembly) (p : TreeId) (token : Token) :
    (∃ last, a.tree.Joins p token last ∧ (a.pushLeaf p token).tree = a.tree.join last token) ∨
    ((¬ ∃ last, a.tree.Joins p token last) ∧
      (a.pushLeaf p token).tree = (a.tree.push p (.token token.kind) token.span).2) := by
  unfold pushLeaf
  dsimp only
  split
  · next hblank =>
    split
    · next hback =>
      refine Or.inr ⟨?_, rfl⟩
      rintro ⟨last, h⟩
      rw [h.back] at hback
      cases hback
    · next last hback =>
      split
      · next kind hkind =>
        split
        · next hjoin =>
          rw [Bool.and_eq_true, beq_iff_eq] at hjoin
          exact Or.inl ⟨last, ⟨hblank, hback, ⟨kind, hkind, hjoin.1⟩, hjoin.2⟩, rfl⟩
        · next hno =>
          refine Or.inr ⟨?_, rfl⟩
          rintro ⟨last', h⟩
          have hlast : last' = last := by simpa [h.back] using hback
          subst hlast
          obtain ⟨kind', hkind', hb⟩ := h.kind
          rw [hkind'] at hkind
          cases hkind
          simp [hb, h.stop] at hno
      · next hno =>
        refine Or.inr ⟨?_, rfl⟩
        rintro ⟨last', h⟩
        have hlast : last' = last := by simpa [h.back] using hback
        subst hlast
        obtain ⟨kind', hkind', -⟩ := h.kind
        exact hno kind' hkind'
  · next hblank =>
    refine Or.inr ⟨?_, rfl⟩
    rintro ⟨last, h⟩
    exact hblank h.blank

/-- At its end a node gets the span of its children. -/
theorem closeNode_tree (a : Assembly) (id : TreeId) :
    (∃ first last, (a.tree.children id)[0]? = some first ∧
      (a.tree.children id).back? = some last ∧
      (a.closeNode id).tree = a.tree.coverChildren id first last) ∨
    (a.tree.children id = #[] ∧ (a.closeNode id).tree = a.tree) := by
  unfold closeNode
  dsimp only
  split
  · next first last hfirst hlast => exact Or.inl ⟨first, last, hfirst, hlast, rfl⟩
  · next hnone =>
    refine Or.inr ⟨?_, rfl⟩
    by_contra hne
    have hsize : 0 < (a.tree.children id).size := Array.size_pos_iff.mpr hne
    have hfirst := Array.getElem?_eq_getElem hsize
    have hlast := Array.getElem?_eq_getElem (Nat.sub_one_lt (Nat.ne_of_gt hsize))
    rw [← Array.back?_eq_getElem?] at hlast
    exact hnone _ _ hfirst hlast

theorem closeNode_children (a : Assembly) (id j : TreeId) :
    (a.closeNode id).tree.children j = a.tree.children j := by
  rcases a.closeNode_tree id with ⟨_, _, -, -, htree⟩ | ⟨-, htree⟩
  · rw [htree, SourceTree.children_coverChildren]
  · rw [htree]

theorem closeNode_size (a : Assembly) (id : TreeId) :
    (a.closeNode id).tree.size = a.tree.size := by
  rcases a.closeNode_tree id with ⟨_, _, -, -, htree⟩ | ⟨-, htree⟩
  · rw [htree, SourceTree.size_coverChildren]
  · rw [htree]

/-- No other node changes at the end of a node. -/
theorem closeNode_node (a : Assembly) {id j : TreeId} (hid : id < a.tree.size) (hj : id ≠ j) :
    (a.closeNode id).tree.node j = a.tree.node j := by
  rcases a.closeNode_tree id with ⟨_, _, -, -, htree⟩ | ⟨-, htree⟩
  · rw [htree, SourceTree.node_coverChildren hid, if_neg hj]
  · rw [htree]

theorem redirect_tree (a : Assembly) (key : AstKey) (nameKey : Option AstKey) (node : NodeId)
    (data : NodeData) : (a.redirect key nameKey node data).tree = a.tree := by
  unfold redirect
  split
  · rfl
  · split <;> rfl
  · split
    · split <;> rfl
    · rfl
  · rfl

/-- Keys are not part of the tree. -/
theorem index_tree (a : Assembly) (file : FileId) (markers : MarkerId → Marker) (ast : Ast)
    (m : Marker) (node : TreeId) (offset : Nat) :
    (a.index file markers ast m node offset).tree = a.tree := by
  unfold index
  split
  · split
    · rfl
    · rfl
    · rw [redirect_tree]
      rfl
  · rfl

/-! ### What a step does to the reports -/

theorem pushLeaf_diagnostics (a : Assembly) (p : TreeId) (token : Token) :
    (a.pushLeaf p token).diagnostics = a.diagnostics := by
  unfold pushLeaf
  dsimp only
  split
  · split
    · rfl
    · split
      · split <;> rfl
      · rfl
  · rfl

theorem closeNode_diagnostics (a : Assembly) (id : TreeId) :
    (a.closeNode id).diagnostics = a.diagnostics := by
  unfold closeNode
  dsimp only
  split <;> rfl

theorem index_diagnostics (a : Assembly) (file : FileId) (markers : MarkerId → Marker) (ast : Ast)
    (m : Marker) (node : TreeId) (offset : Nat) :
    (a.index file markers ast m node offset).diagnostics = a.diagnostics := by
  have hredirect (a : Assembly) (key : AstKey) (nameKey : Option AstKey) (node : NodeId)
      (data : NodeData) : (a.redirect key nameKey node data).diagnostics = a.diagnostics := by
    unfold redirect
    split
    · rfl
    · split <;> rfl
    · split
      · split <;> rfl
      · rfl
    · rfl
  unfold index
  split
  · split
    · rfl
    · rfl
    · rw [hredirect]
      rfl
  · rfl

end Assembly

namespace Transcript

variable {t : Transcript} {file : FileId} {ast : Ast} {later events : List Event} {e : Event}
  {a a' b : Assembly} {frames frames' : List Frame}

/-! ### Steps -/

/-- What the replay does at an event that has `later` events after it. -/
inductive Step (t : Transcript) (file : FileId) (ast : Ast) (later : List Event) :
    Event → Assembly → List Frame → Assembly → List Frame → Prop
  | token {a : Assembly} {frames : List Frame} (token : Token) :
      Step t file ast later (.token token) a frames
        (a.pushLeaf (currentParent frames) token) frames
  | enter {a : Assembly} {frames : List Frame} {id : MarkerId} {offset : Nat} :
      (t.marker id).hasTreeNode ast = true →
      (t.marker id).offset.or (firstOffset later) = some offset →
      Step t file ast later (.start id) a frames
        { a with tree := (a.tree.push (currentParent frames)
            (.node ((t.marker id).kind.getD .group)) (.point offset)).2 }
        (⟨id, some a.tree.size, offset⟩ :: frames)
  | pass {a : Assembly} {frames : List Frame} {id : MarkerId} :
      (t.marker id).hasTreeNode ast = false →
      Step t file ast later (.start id) a frames
        { a with diagnostics := a.diagnostics ++
            (t.marker id).report ((t.marker id).offset.or (firstOffset later)) }
        (⟨id, none, ((t.marker id).offset.or (firstOffset later)).getD 0⟩ :: frames)
  | leave {a : Assembly} {frame : Frame} {outer : List Frame} {node : TreeId} :
      frame.node = some node →
      Step t file ast later (.stop frame.marker) a (frame :: outer)
        ((a.closeNode node).index file t.marker ast (t.marker frame.marker) node frame.offset)
        outer
  | drop {a : Assembly} {frame : Frame} {outer : List Frame} :
      frame.node = none → Step t file ast later (.stop frame.marker) a (frame :: outer) a outer

/-- At the end of a marker with a node the tree leaves that node. -/
theorem Step.of_stop {id : MarkerId} {frame : Frame} {node : TreeId}
    (h : t.Step file ast later (.stop id) a (frame :: frames) a' frames')
    (hnode : frame.node = some node) : frames' = frames ∧ a'.tree = (a.closeNode node).tree := by
  cases h with
  | leave hnode' =>
    rw [hnode, Option.some.injEq] at hnode'
    rw [Assembly.index_tree, hnode']
    exact ⟨rfl, rfl⟩
  | drop hnone =>
    rw [hnode] at hnone
    cases hnone

/-- The replay succeeds if and only if its first step and the rest do. -/
theorem replay_cons {r : Assembly} :
    t.replay file ast (e :: later) a frames = .ok r ↔
      ∃ a' frames', t.Step file ast later e a frames a' frames' ∧
        t.replay file ast later a' frames' = .ok r := by
  constructor
  · intro h
    cases e with
    | token token => exact ⟨_, _, .token token, h⟩
    | start id =>
      unfold replay at h
      dsimp only at h
      split at h
      · next hnode =>
        split at h
        · cases h
        · next offset hoffset => exact ⟨_, _, .enter hnode hoffset, h⟩
      · next hnode => exact ⟨_, _, .pass (by simpa using hnode), h⟩
    | stop id =>
      unfold replay at h
      split at h
      · cases h
      · next frame outer =>
        split at h
        · cases h
        · next hid =>
          have hid : frame.marker = id := Decidable.not_not.mp hid
          subst hid
          split at h
          · next hnode => exact ⟨_, _, .drop hnode, h⟩
          · next node hnode => exact ⟨_, _, .leave hnode, h⟩
  · rintro ⟨a', frames', hstep, h⟩
    cases hstep with
    | token token => exact h
    | enter hnode hoffset =>
      unfold replay
      simp only [hnode, if_true, hoffset]
      exact h
    | pass hnode =>
      unfold replay
      simp only [hnode, Bool.false_eq_true, if_false]
      exact h
    | leave hnode =>
      unfold replay
      simp only [ne_eq, not_true_eq_false, if_false, hnode]
      exact h
    | drop hnode =>
      unfold replay
      simp only [ne_eq, not_true_eq_false, if_false, hnode]
      exact h

/-- What the replay does at some events that have `later` events after them. -/
inductive Replays (t : Transcript) (file : FileId) (ast : Ast) (later : List Event) :
    List Event → Assembly → List Frame → Assembly → List Frame → Prop
  | nil {a : Assembly} {frames : List Frame} : Replays t file ast later [] a frames a frames
  | cons {e : Event} {events : List Event} {a b c : Assembly} {fa fb fc : List Frame} :
      t.Step file ast (events ++ later) e a fa b fb → Replays t file ast later events b fb c fc →
      Replays t file ast later (e :: events) a fa c fc

theorem replay_append {r : Assembly} :
    t.replay file ast (events ++ later) a frames = .ok r ↔
      ∃ a' frames', t.Replays file ast later events a frames a' frames' ∧
        t.replay file ast later a' frames' = .ok r := by
  induction events generalizing a frames with
  | nil =>
    constructor
    · intro h
      exact ⟨a, frames, .nil, h⟩
    · rintro ⟨_, _, hnil, h⟩
      cases hnil
      exact h
  | cons e events ih =>
    rw [List.cons_append, replay_cons]
    constructor
    · rintro ⟨b, fb, hstep, h⟩
      obtain ⟨a', frames', hrest, h⟩ := ih.mp h
      exact ⟨a', frames', .cons hstep hrest, h⟩
    · rintro ⟨a', frames', hall, h⟩
      cases hall with
      | cons hstep hrest => exact ⟨_, _, hstep, ih.mpr ⟨a', frames', hrest, h⟩⟩

theorem Replays.append {b : Assembly} {fb : List Frame} {more : List Event}
    (h : t.Replays file ast (more ++ later) events a frames a' frames')
    (k : t.Replays file ast later more a' frames' b fb) :
    t.Replays file ast later (events ++ more) a frames b fb := by
  induction h with
  | nil => exact k
  | cons hstep _ ih =>
    rw [← List.append_assoc] at hstep
    exact .cons hstep (ih k)

/-- A replay ends with all markers left, and then the root gets its span. -/
theorem assemble_ok {r : Assembly} :
    t.assemble file ast = .ok r ↔
      ∃ a, t.Replays file ast [] t.events {} [] a [] ∧ r = a.closeNode SourceTree.root := by
  unfold assemble
  rw [← List.append_nil t.events, replay_append, List.append_nil]
  constructor
  · rintro ⟨a, frames, hrun, h⟩
    cases frames with
    | nil =>
      cases h
      exact ⟨a, hrun, rfl⟩
    | cons frame frames => cases h
  · rintro ⟨a, hrun, rfl⟩
    exact ⟨a, [], hrun, rfl⟩

/-! ### Reports -/

/-- A step adds the report of the marker it passes, if it passes one. -/
theorem Step.diagnostics (h : t.Step file ast later e a frames a' frames') :
    ∃ reports, a'.diagnostics = a.diagnostics ++ reports ∧
      ∀ id, e = .start id → (t.marker id).hasTreeNode ast = false →
        reports = (t.marker id).report ((t.marker id).offset.or (firstOffset later)) := by
  cases h with
  | token token =>
    exact ⟨[], by rw [Assembly.pushLeaf_diagnostics, List.append_nil], by simp⟩
  | @enter _ _ i offset hnode hoffset =>
    refine ⟨[], (List.append_nil _).symm, fun id hid hno => ?_⟩
    cases hid
    rw [hnode] at hno
    cases hno
  | @pass _ _ i hnode =>
    refine ⟨_, rfl, fun id hid _ => ?_⟩
    cases hid
    rfl
  | leave hnode =>
    refine ⟨[], ?_, by simp⟩
    rw [Assembly.index_diagnostics, Assembly.closeNode_diagnostics, List.append_nil]
  | drop hnode => exact ⟨[], (List.append_nil _).symm, by simp⟩

/-- An error marker among the events is reported. -/
theorem Replays.diagnostics_ne_nil (h : t.Replays file ast later events a frames a' frames')
    {id : MarkerId} {diagnostic : Diagnostic} (hstart : .start id ∈ events)
    (herror : (t.marker id).state = .error)
    (hdiagnostic : (t.marker id).diagnostic = some diagnostic) : a'.diagnostics ≠ [] := by
  have hkeeps {events : List Event} {a b : Assembly} {fa fb : List Frame}
      (h : t.Replays file ast later events a fa b fb) (ha : a.diagnostics ≠ []) :
      b.diagnostics ≠ [] := by
    induction h with
    | nil => exact ha
    | cons hstep _ ih =>
      obtain ⟨reports, heq, -⟩ := hstep.diagnostics
      exact ih (by simp [heq, ha])
  induction h with
  | nil => cases hstart
  | @cons e events a b c fa fb fc hstep hrest ih =>
    rcases List.mem_cons.mp hstart with rfl | hstart
    · obtain ⟨reports, heq, hreports⟩ := hstep.diagnostics
      refine hkeeps hrest ?_
      rw [heq, hreports id rfl (by simp [Marker.hasTreeNode, Marker.isDone, herror])]
      simp [Marker.report, herror, hdiagnostic]
    · exact ih hstart

/-! ### Markers entered and left -/

/-- A step opens and ends markers as its event says. -/
theorem Step.openedAfter (h : t.Step file ast later e a frames a' frames') :
    openedAfter (frames.map Frame.marker) [e] = some (frames'.map Frame.marker) := by
  cases h <;> simp

/-- A step that only ends markers that were entered inside does not touch those outside. -/
theorem Step.frames_append (h : t.Step file ast later e a frames a' frames')
    {inner base : List Frame} (hframes : frames = inner ++ base) {σ : List MarkerId}
    (hopen : ScriptAnalysis.openedAfter (inner.map Frame.marker) [e] = some σ) :
    ∃ inner', frames' = inner' ++ base ∧ inner'.map Frame.marker = σ := by
  have hstop : ∀ {frame : Frame} {outer : List Frame}, frame :: outer = inner ++ base →
      e = .stop frame.marker → ∃ inner', outer = inner' ++ base ∧ inner'.map Frame.marker = σ := by
    intro frame outer heq he
    subst he
    cases inner with
    | nil => cases hopen
    | cons top inner =>
      obtain ⟨rfl, rfl⟩ := List.cons.inj heq
      exact ⟨inner, rfl, by simpa using hopen⟩
  cases h with
  | token token => exact ⟨inner, hframes, by simpa using hopen⟩
  | enter _ _ => exact ⟨_ :: inner, by rw [hframes]; rfl, by simpa using hopen⟩
  | pass _ => exact ⟨_ :: inner, by rw [hframes]; rfl, by simpa using hopen⟩
  | leave _ => exact hstop hframes rfl
  | drop _ => exact hstop hframes rfl

/-- The markers outside of some balanced events are not touched. -/
theorem Replays.frames_append (h : t.Replays file ast later events a frames a' frames')
    {inner base : List Frame} (hframes : frames = inner ++ base) {τ : List MarkerId}
    (hopen : ScriptAnalysis.openedAfter (inner.map Frame.marker) events = some τ) :
    ∃ inner', frames' = inner' ++ base ∧ inner'.map Frame.marker = τ := by
  induction h generalizing inner with
  | nil => exact ⟨inner, hframes, by simpa using hopen⟩
  | @cons e events a b c fa fb fc hstep _ ih =>
    rw [show e :: events = [e] ++ events from rfl, openedAfter_append] at hopen
    obtain ⟨σ, hσ, hrest⟩ := Option.bind_eq_some_iff.mp hopen
    obtain ⟨inner₁, hfb, hmarkers⟩ := hstep.frames_append hframes hσ
    exact ih hfb (by rw [hmarkers]; exact hrest)

/-- After balanced events the markers are those from before. -/
theorem Replays.frames_of_balanced (h : t.Replays file ast later events a frames a' frames')
    (hb : Balanced events) : frames' = frames := by
  obtain ⟨inner, rfl, hinner⟩ := h.frames_append (List.nil_append frames).symm (hb [])
  rw [List.map_eq_nil_iff.mp hinner]
  rfl

/-- A replay only fails for want of brackets or of a token. -/
theorem replay_succeeds {events : List Event}
    (hopen : ScriptAnalysis.openedAfter (frames.map Frame.marker) events = some [])
    (htoken : ∀ id later, .start id :: later <:+ events → (t.marker id).hasTreeNode ast = true →
      ((t.marker id).offset.or (firstOffset later)).isSome) :
    ∃ r, t.replay file ast events a frames = .ok r := by
  induction events generalizing a frames with
  | nil =>
    rw [openedAfter_nil, Option.some.injEq, List.map_eq_nil_iff] at hopen
    subst hopen
    exact ⟨_, rfl⟩
  | cons e events ih =>
    rw [show e :: events = [e] ++ events from rfl, openedAfter_append] at hopen
    obtain ⟨σ, hσ, hrest⟩ := Option.bind_eq_some_iff.mp hopen
    have htoken' := fun id later (h : .start id :: later <:+ events) =>
      htoken id later (h.trans (List.suffix_cons e events))
    have hstep : ∃ a' frames', t.Step file ast events e a frames a' frames' := by
      cases e with
      | token token => exact ⟨_, _, .token token⟩
      | start id =>
        cases hnode : (t.marker id).hasTreeNode ast with
        | true =>
          obtain ⟨offset, hoffset⟩ :=
            Option.isSome_iff_exists.mp (htoken id events (List.suffix_refl _) hnode)
          exact ⟨_, _, .enter hnode hoffset⟩
        | false => exact ⟨_, _, .pass hnode⟩
      | stop id =>
        cases frames with
        | nil => cases hσ
        | cons frame outer =>
          have hid : frame.marker = id := by
            by_contra hne
            simp [ScriptAnalysis.openedAfter, hne] at hσ
          subst hid
          cases hnode : frame.node with
          | some node => exact ⟨_, _, .leave hnode⟩
          | none => exact ⟨_, _, .drop hnode⟩
    obtain ⟨a', frames', hstep⟩ := hstep
    have hframes : frames'.map Frame.marker = σ := by
      rw [← Option.some.injEq, ← hstep.openedAfter, hσ]
    have hopen' : ScriptAnalysis.openedAfter (frames'.map Frame.marker) events = some [] := by
      rw [hframes]
      exact hrest
    obtain ⟨r, hr⟩ := ih hopen' htoken'
    exact ⟨r, replay_cons.mpr ⟨a', frames', hstep, hr⟩⟩

/-! ### The tree so far -/

/-- A step is a change of the tree by the token of its event, if it is one. -/
theorem Step.change (h : t.Step file ast later e a frames a' frames') :
    a.tree.Change (openNodes frames) (tokensIn [e]) a'.tree (openNodes frames') := by
  cases h with
  | token token =>
    obtain ⟨above, heq⟩ := openNodes_eq frames
    rw [heq]
    rcases a.pushLeaf_tree (currentParent frames) token with ⟨last, hj, htree⟩ | ⟨hno, htree⟩
    · rw [htree]
      exact .join hj
    · rw [htree]
      exact .leaf hno
  | enter _ _ =>
    obtain ⟨above, heq⟩ := openNodes_eq frames
    rw [openNodes_some rfl, heq]
    exact .enter _ _
  | pass _ => exact .none
  | @leave _ frame _ node hnode =>
    have hpath : openNodes frames' ≠ [] := by simp [openNodes]
    rw [openNodes_some hnode, Assembly.index_tree]
    rcases a.closeNode_tree node with ⟨first, last, hfirst, hlast, htree⟩ | ⟨hnone, htree⟩
    · rw [htree]
      exact .leave hfirst hlast hpath
    · rw [htree]
      exact .leaveEmpty hnone hpath
  | drop hnode =>
    rw [openNodes_none hnode]
    exact .none

theorem Replays.changes (h : t.Replays file ast later events a frames a' frames') :
    a.tree.Changes (openNodes frames) (tokensIn events) a'.tree (openNodes frames') := by
  induction h with
  | nil => exact .nil
  | @cons e events a b c fa fb fc hstep _ ih =>
    rw [show e :: events = [e] ++ events from rfl, tokensIn_append]
    exact .cons hstep.change ih

end Transcript

end ScriptAnalysis
