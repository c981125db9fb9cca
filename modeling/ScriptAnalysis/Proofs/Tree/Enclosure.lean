import Mathlib.Data.List.Nodup
import ScriptAnalysis.Proofs.Recording.Bracketed
import ScriptAnalysis.Proofs.Tree.Replay
import ScriptAnalysis.Proofs.Tree.RoundTrip
import ScriptAnalysis.Proofs.Tree.Walk

/-!
# The tree of a recording is its bracket structure

A marker that becomes a node is above exactly those nodes whose events its brackets enclose, and a
token hangs in the innermost marker with a node that encloses it (`Transcript.Shows`).

The proof follows the replay as a sequence of states, one for each number of events
(`Transcript.Replays.states`).  What is above a node is settled when it is added: the open markers,
whose starts are kept in `Spine`, are then those that enclose its event (`Transcript.Follows`).
-/

namespace ScriptAnalysis

namespace Transcript

variable {t : Transcript} {file : FileId} {ast : Ast} {done later events : List Event} {e : Event}
  {a a' : Assembly} {frames frames' : List Frame} {place : Nat → TreeId}

/-- A marker that becomes a node starts at this position. -/
def showsAt (t : Transcript) (ast : Ast) (i : Nat) : Bool :=
  match t.events[i]? with
  | some (.start id) => (t.marker id).hasTreeNode ast
  | _ => false

/-- The positions at which a marker starts that becomes a node. -/
def shownStarts (t : Transcript) (ast : Ast) : List Nat :=
  (List.range t.events.length).filter (t.showsAt ast)

/-! ### The replay as a sequence of states -/

theorem Replays.states (h : t.Replays file ast later events a frames a' frames') :
    ∃ (as : Nat → Assembly) (fs : Nat → List Frame), as 0 = a ∧ fs 0 = frames ∧
      as events.length = a' ∧ fs events.length = frames' ∧
      ∀ before e after, events = before ++ e :: after →
        t.Step file ast (after ++ later) e (as before.length) (fs before.length)
          (as (before.length + 1)) (fs (before.length + 1)) := by
  induction h with
  | @nil a frames =>
    refine ⟨fun _ => a, fun _ => frames, rfl, rfl, rfl, rfl, ?_⟩
    intro before e after heq
    exact absurd heq.symm (by simp)
  | @cons e events a b c fa fb fc hstep _ ih =>
    obtain ⟨as, fs, rfl, rfl, rfl, rfl, hsteps⟩ := ih
    refine ⟨fun n => n.casesOn a as, fun n => n.casesOn fa fs, rfl, rfl, rfl, rfl, ?_⟩
    intro before e' after heq
    cases before with
    | nil =>
      obtain ⟨rfl, rfl⟩ := List.cons.inj heq
      exact hstep
    | cons e'' before =>
      obtain ⟨rfl, rfl⟩ := List.cons.inj heq
      exact hsteps before e' after rfl

/-- What the tree has of the events done so far.  The node or the leaf of the event at position `i`
    is `place i`. -/
structure Follows (t : Transcript) (ast : Ast) (place : Nat → TreeId) (done : List Event)
    (tree : SourceTree) (frames : List Frame) : Prop where
  built : tree.Built (openNodes frames)
  linked : tree.Linked
  root : tree.parent? SourceTree.root = none
  spine : ∃ starts, Spine done (frames.map Frame.marker) starts ∧
    frames.map Frame.node = starts.map fun i => if t.showsAt ast i then some (place i) else none
  inner : tree.innerNodes = ((List.range done.length).filter (t.showsAt ast)).map place
  kinds : ∀ before id after, done = before ++ .start id :: after →
    (t.marker id).hasTreeNode ast = true →
    tree.kind (place before.length) = .node ((t.marker id).kind.getD .group)
  above : ∀ before e after, done = before ++ e :: after →
    e.token?.isSome ∨ t.showsAt ast before.length = true →
    place before.length < tree.size ∧ ∃ markers starts, Spine before markers starts ∧
      tree.Above (place before.length) ((starts.filter (t.showsAt ast)).map place ++
        [SourceTree.root])
  leaf : ∀ before token after, done = before ++ .token token :: after →
    tree.Holds (place before.length) token
  onto : ∀ id < tree.size, (tree.node id).isToken = true → ∃ before token after,
    done = before ++ .token token :: after ∧ place before.length = id
  joined : ∀ before token after, done = before ++ .token token :: after →
    ∀ i < before.length, ∀ other, before[i]? = some (.token other) →
      place i = place before.length → other.kind.isBlank = true ∧ token.kind.isBlank = true

theorem getElem?_of_split {before after : List Event} (h : events = before ++ e :: after) :
    events[before.length]? = some e := by
  rw [h, List.getElem?_append_right (Nat.le_refl _), Nat.sub_self, List.getElem?_cons_zero]

theorem split_of_getElem? {i : Nat} (h : events[i]? = some e) :
    ∃ before after, events = before ++ e :: after ∧ before.length = i := by
  obtain ⟨hi, rfl⟩ := List.getElem?_eq_some_iff.mp h
  refine ⟨events.take i, events.drop (i + 1), ?_, List.length_take_of_le (Nat.le_of_lt hi)⟩
  rw [← List.drop_eq_getElem_cons hi, List.take_append_drop]

theorem showsAt_of_start {id : MarkerId} (h : t.events = done ++ .start id :: later) :
    t.showsAt ast done.length = (t.marker id).hasTreeNode ast := by
  unfold showsAt
  rw [getElem?_of_split h]

theorem showsAt_of_token {token : Token} (h : t.events = done ++ .token token :: later) :
    t.showsAt ast done.length = false := by
  unfold showsAt
  rw [getElem?_of_split h]

theorem showsAt_of_stop {id : MarkerId} (h : t.events = done ++ .stop id :: later) :
    t.showsAt ast done.length = false := by
  unfold showsAt
  rw [getElem?_of_split h]

/-- The last of some events is the last one, or one of those before it. -/
theorem split_concat {before after : List Event} {e' : Event}
    (h : done ++ [e] = before ++ e' :: after) :
    (before = done ∧ e' = e ∧ after = []) ∨ ∃ after', done = before ++ e' :: after' := by
  rcases List.eq_nil_or_concat after with rfl | ⟨init, last, rfl⟩
  · obtain ⟨rfl, hlast⟩ := List.append_inj' h rfl
    cases hlast
    exact Or.inl ⟨rfl, rfl, rfl⟩
  · rw [List.concat_eq_append, ← List.cons_append, ← List.append_assoc] at h
    obtain ⟨hdone, -⟩ := List.append_inj' h rfl
    exact Or.inr ⟨init, hdone⟩

theorem openNodes_of_starts {starts : List Nat}
    (hnodes : frames.map Frame.node =
      starts.map fun i => if t.showsAt ast i then some (place i) else none) :
    openNodes frames = (starts.filter (t.showsAt ast)).map place ++ [SourceTree.root] := by
  unfold openNodes
  have hmap : frames.filterMap Frame.node = (frames.map Frame.node).filterMap id := by
    rw [List.filterMap_map]
    rfl
  rw [hmap, hnodes, List.filterMap_map]
  congr 1
  clear hmap hnodes
  induction starts with
  | nil => rfl
  | cons i starts ih =>
    rw [List.filterMap_cons, List.filter_cons, ih]
    by_cases hshows : t.showsAt ast i = true
    · simp [hshows]
    · simp [hshows]

namespace Follows

variable {tree tree' : SourceTree} {tokens : List Token}

theorem empty : t.Follows ast place [] {} [] := by
  refine ⟨.empty, SourceTree.linked_empty, rfl, ⟨[], .nil .nil, rfl⟩, rfl, ?_, ?_, ?_, ?_, ?_⟩
  · intro before id after h
    exact absurd h.symm (by simp)
  · intro before e after h
    exact absurd h.symm (by simp)
  · intro before token after h
    exact absurd h.symm (by simp)
  · intro id hid htoken
    have hzero : id = 0 := Nat.lt_one_iff.mp hid
    subst hzero
    cases htoken
  · intro before token after h
    exact absurd h.symm (by simp)

/-- The nodes above a node that is added to the innermost open one. -/
theorem above_open (h : t.Follows ast place done tree frames) :
    ∃ above, openNodes frames = currentParent frames :: above ∧
      tree.Above (currentParent frames) above ∧ currentParent frames < tree.size := by
  obtain ⟨above, heq⟩ := ScriptAnalysis.openNodes_eq frames
  have hbuilt := h.built
  rw [heq] at hbuilt
  exact ⟨above, heq, hbuilt.laid.1.above h.linked h.root, hbuilt.lt_size (by simp)⟩

/-- What is known of the events done stays known, whatever the next event adds. -/
theorem keep (h : t.Follows ast place done tree frames) (hevents : t.events = done ++ e :: later)
    (hc : tree.Change (openNodes frames) tokens tree' (openNodes frames'))
    (hspine : ∃ starts, Spine (done ++ [e]) (frames'.map Frame.marker) starts ∧
      frames'.map Frame.node = starts.map fun i => if t.showsAt ast i then some (place i) else none)
    (hinner : tree'.innerNodes = tree.innerNodes ++
      if t.showsAt ast done.length then [place done.length] else [])
    (hkind : ∀ id, e = .start id → (t.marker id).hasTreeNode ast = true →
      tree'.kind (place done.length) = .node ((t.marker id).kind.getD .group))
    (habove : e.token?.isSome ∨ t.showsAt ast done.length = true →
      place done.length < tree'.size ∧ tree'.Above (place done.length) (openNodes frames))
    (hleaf : ∀ token, e = .token token → tree'.Holds (place done.length) token)
    (honto : ∀ id < tree'.size, (tree'.node id).isToken = true → id < tree.size ∨
      ∃ token, e = .token token ∧ place done.length = id)
    (hjoined : ∀ token, e = .token token → place done.length = tree.size ∨
      token.kind.isBlank = true ∧ ∃ kind : TokenKind, kind.isBlank = true ∧
        tree.kind (place done.length) = .token kind) :
    t.Follows ast place (done ++ [e]) tree' frames' := by
  have hk := hc.keeps h.built
  have hroot : SourceTree.root < tree.size := by
    obtain ⟨above, heq, habove, hlt⟩ := h.above_open
    exact Nat.lt_of_le_of_lt (Nat.zero_le _) hlt
  refine ⟨hc.built h.built, hc.linked h.built h.linked, ?_, hspine, ?_, ?_, ?_, ?_, ?_, ?_⟩
  · rw [hk.parent? _ hroot]
    exact h.root
  · rw [hinner, h.inner, List.length_append, List.length_singleton, List.range_succ,
      List.filter_append, List.map_append]
    congr 1
    by_cases hshows : t.showsAt ast done.length = true
    · simp [hshows]
    · simp [hshows]
  · intro before id after heq hnode
    rcases split_concat heq with ⟨rfl, rfl, -⟩ | ⟨after', heq'⟩
    · exact hkind id rfl hnode
    · have hshows : t.showsAt ast before.length = true := by
        rw [heq', List.append_assoc, List.cons_append] at hevents
        rw [showsAt_of_start hevents, hnode]
      have hkind' := h.kinds before id after' heq' hnode
      obtain ⟨hlt, -⟩ := h.above before _ after' heq' (Or.inr hshows)
      rw [hk.kind _ hlt, hkind']
      unfold TreeNode.isToken
      rw [show (tree.node (place before.length)).kind = _ from hkind']
  · intro before e' after heq hplaced
    rcases split_concat heq with ⟨rfl, rfl, -⟩ | ⟨after', heq'⟩
    · obtain ⟨hlt, habove⟩ := habove hplaced
      obtain ⟨starts, hspine, hnodes⟩ := h.spine
      exact ⟨hlt, _, starts, hspine, openNodes_of_starts hnodes ▸ habove⟩
    · obtain ⟨hlt, markers, starts, hspine, habove⟩ := h.above before e' after' heq' hplaced
      exact ⟨Nat.lt_of_lt_of_le hlt hk.size_le, markers, starts, hspine, habove.keeps hk hlt⟩
  · intro before token after heq
    rcases split_concat heq with ⟨rfl, rfl, -⟩ | ⟨after', heq'⟩
    · exact hleaf token rfl
    · obtain ⟨hlt, -⟩ := h.above before _ after' heq' (Or.inl rfl)
      exact hk.holds _ hlt token (h.leaf before token after' heq')
  · intro id hid htoken
    rcases honto id hid htoken with hlt | ⟨token, rfl, hplace⟩
    · obtain ⟨before, token, after, heq, hplace⟩ := h.onto id hlt (hk.isToken id hlt ▸ htoken)
      exact ⟨before, token, after ++ [e], by rw [heq]; simp, hplace⟩
    · exact ⟨done, token, [], rfl, hplace⟩
  · intro before token after heq i hi other hother hplace
    rcases split_concat heq with ⟨rfl, rfl, -⟩ | ⟨after', heq'⟩
    · obtain ⟨init, rest, hsplit, hlength⟩ := split_of_getElem? hother
      subst hlength
      obtain ⟨hlt, -⟩ := h.above init _ rest hsplit (Or.inl rfl)
      rcases hjoined token rfl with hnew | ⟨hblank, kind, hkind, hnode⟩
      · exact absurd (hplace.trans hnew) (Nat.ne_of_lt hlt)
      · refine ⟨?_, hblank⟩
        rcases h.leaf init other rest hsplit with hheld | ⟨hother, -⟩
        · obtain ⟨hsame, -⟩ := TreeNode.token?_eq_some.mp hheld
          rw [hplace, show (tree.node _).kind = _ from hnode] at hsame
          cases hsame
          exact hkind
        · exact hother
    · exact h.joined before token after' heq' i hi other hother hplace

/-- A node that is added to the innermost open node. -/
theorem above_push (h : t.Follows ast place done tree frames) (kind : TreeKind) (span : Span) :
    (tree.push (currentParent frames) kind span).2.Above tree.size (openNodes frames) := by
  obtain ⟨above, heq, habove, hlt⟩ := h.above_open
  rw [heq]
  refine .child ?_ hlt (habove.keeps (SourceTree.keeps_push kind span hlt) hlt)
  rw [SourceTree.parent?_push kind span hlt, if_pos rfl]

theorem spine_start (h : t.Follows ast place done tree frames) (frame : Frame)
    (hnode : frame.node = if t.showsAt ast done.length then some (place done.length) else none) :
    ∃ starts, Spine (done ++ [.start frame.marker]) ((frame :: frames).map Frame.marker) starts ∧
      (frame :: frames).map Frame.node =
        starts.map fun i => if t.showsAt ast i then some (place i) else none := by
  obtain ⟨starts, hspine, hnodes⟩ := h.spine
  refine ⟨done.length :: starts, hspine.start frame.marker, ?_⟩
  rw [List.map_cons, List.map_cons, hnode, hnodes]

theorem spine_stop {frame : Frame} (h : t.Follows ast place done tree (frame :: frames)) :
    ∃ starts, Spine (done ++ [.stop frame.marker]) (frames.map Frame.marker) starts ∧
      frames.map Frame.node =
        starts.map fun i => if t.showsAt ast i then some (place i) else none := by
  obtain ⟨starts, hspine, hnodes⟩ := h.spine
  cases starts with
  | nil => cases hspine
  | cons i starts => exact ⟨starts, hspine.stop, (List.cons.inj hnodes).2⟩

theorem spine_token (h : t.Follows ast place done tree frames) (token : Token) :
    ∃ starts, Spine (done ++ [.token token]) (frames.map Frame.marker) starts ∧
      frames.map Frame.node =
        starts.map fun i => if t.showsAt ast i then some (place i) else none := by
  obtain ⟨starts, hspine, hnodes⟩ := h.spine
  exact ⟨starts, hspine.append (.token token .nil), hnodes⟩

/-- An event that is no token and adds no node. -/
theorem keep_silent (h : t.Follows ast place done tree frames)
    (hevents : t.events = done ++ e :: later)
    (hc : tree.Change (openNodes frames) tokens tree' (openNodes frames'))
    (hspine : ∃ starts, Spine (done ++ [e]) (frames'.map Frame.marker) starts ∧
      frames'.map Frame.node = starts.map fun i => if t.showsAt ast i then some (place i) else none)
    (hsize : tree'.size = tree.size) (hshows : t.showsAt ast done.length = false)
    (htoken : e.token? = none) : t.Follows ast place (done ++ [e]) tree' frames' := by
  refine h.keep hevents hc hspine ?_ ?_ ?_ ?_ ?_ ?_
  · rw [SourceTree.innerNodes_eq (hc.keeps h.built), hsize, Nat.sub_self, hshows]
    rfl
  · rintro id rfl hnode
    rw [showsAt_of_start hevents, hnode] at hshows
    cases hshows
  · rintro (hplaced | hplaced)
    · rw [htoken] at hplaced
      cases hplaced
    · rw [hshows] at hplaced
      cases hplaced
  · rintro token rfl
    cases htoken
  · exact fun id hid _ => Or.inl (hsize ▸ hid)
  · rintro token rfl
    cases htoken

/-- A token that belongs to the last leaf. -/
theorem join (h : t.Follows ast place done tree frames) {token : Token} {last : TreeId}
    (hevents : t.events = done ++ .token token :: later)
    (hj : tree.Joins (currentParent frames) token last)
    (hplace : place done.length = (tree.join last token).size - 1) :
    t.Follows ast place (done ++ [.token token]) (tree.join last token) frames := by
  obtain ⟨above, heq, habove, -⟩ := h.above_open
  have hbuilt : tree.Built (currentParent frames :: above) := heq ▸ h.built
  have hc : tree.Change (openNodes frames) [token] (tree.join last token) (openNodes frames) :=
    heq ▸ .join hj
  have hlt := hj.lt_size hbuilt
  have hplaceLast : place done.length = last := by
    rw [hplace, SourceTree.size_join, ← hj.last_eq hbuilt, Nat.add_sub_cancel]
  have hmem : last ∈ tree.children (currentParent frames) := Array.mem_of_back? hj.back
  have habove' : tree.Above last (openNodes frames) := by
    rw [heq]
    exact .child ((h.linked _ _).mp hmem)
      (hbuilt.laid.2.ge _ (Array.mem_toList_iff.mpr hmem)) habove
  refine h.keep hevents hc (h.spine_token token) ?_ (by simp) ?_ ?_ ?_ ?_
  · rw [SourceTree.innerNodes_eq (hc.keeps h.built), SourceTree.size_join, Nat.sub_self,
      showsAt_of_token hevents]
    rfl
  · intro _
    rw [hplaceLast]
    exact ⟨Nat.lt_of_lt_of_le hlt (hc.keeps h.built).size_le, habove'.keeps (hc.keeps h.built) hlt⟩
  · rintro _ ⟨⟩
    rw [hplaceLast]
    refine Or.inr ⟨hj.blank, ?_⟩
    unfold SourceTree.kind
    rw [SourceTree.node_join token hlt, if_pos rfl]
  · intro id hid _
    rw [SourceTree.size_join] at hid
    exact Or.inl hid
  · rintro _ ⟨⟩
    obtain ⟨kind, hkind, hblank⟩ := hj.kind
    exact Or.inr ⟨hj.blank, kind, hblank, hplaceLast ▸ hkind⟩

/-- A token that has a leaf of its own. -/
theorem leaf_push (h : t.Follows ast place done tree frames) {token : Token}
    (hevents : t.events = done ++ .token token :: later)
    (hno : ¬ ∃ last, tree.Joins (currentParent frames) token last)
    (hplace : place done.length = tree.size) :
    t.Follows ast place (done ++ [.token token])
      (tree.push (currentParent frames) (.token token.kind) token.span).2 frames := by
  obtain ⟨above, heq, -, hlt⟩ := h.above_open
  have hc : tree.Change (openNodes frames) [token]
      (tree.push (currentParent frames) (.token token.kind) token.span).2 (openNodes frames) :=
    heq ▸ .leaf hno
  have hkind : (tree.push (currentParent frames) (.token token.kind) token.span).2.kind tree.size =
      .token token.kind := by
    rw [SourceTree.kind_push _ _ hlt, if_pos rfl]
  refine h.keep hevents hc (h.spine_token token) ?_ (by simp) ?_ ?_ ?_ fun _ _ => Or.inl hplace
  · rw [SourceTree.innerNodes_eq (hc.keeps h.built), SourceTree.size_push, Nat.add_sub_cancel_left,
      showsAt_of_token hevents]
    simp [hkind]
  · intro _
    rw [hplace, SourceTree.size_push]
    exact ⟨Nat.lt_succ_self _, h.above_push _ _⟩
  · rintro _ ⟨⟩
    rw [hplace]
    refine Or.inl (TreeNode.token?_eq_some.mpr ?_)
    rw [SourceTree.node_push _ _ hlt, if_pos rfl]
    exact ⟨rfl, rfl⟩
  · intro id hid _
    rw [SourceTree.size_push] at hid
    rcases Nat.lt_succ_iff_lt_or_eq.mp hid with hid | rfl
    · exact Or.inl hid
    · exact Or.inr ⟨token, rfl, hplace⟩

/-- The start of a marker that becomes a node. -/
theorem enter (h : t.Follows ast place done tree frames) {id : MarkerId} {offset : Nat}
    (hevents : t.events = done ++ .start id :: later)
    (hnode : (t.marker id).hasTreeNode ast = true) (hplace : place done.length = tree.size) :
    t.Follows ast place (done ++ [.start id])
      (tree.push (currentParent frames) (.node ((t.marker id).kind.getD .group))
        (.point offset)).2 (⟨id, some tree.size, offset⟩ :: frames) := by
  obtain ⟨above, heq, -, hlt⟩ := h.above_open
  have hshows : t.showsAt ast done.length = true := (showsAt_of_start hevents).trans hnode
  have hc : tree.Change (openNodes frames) []
      (tree.push (currentParent frames) (.node ((t.marker id).kind.getD .group)) (.point offset)).2
      (openNodes (⟨id, some tree.size, offset⟩ :: frames)) := by
    rw [openNodes_some rfl, heq]
    exact .enter _ _
  have hkind : (tree.push (currentParent frames) (.node ((t.marker id).kind.getD .group))
      (.point offset)).2.kind tree.size = .node ((t.marker id).kind.getD .group) := by
    rw [SourceTree.kind_push _ _ hlt, if_pos rfl]
  refine h.keep hevents hc (h.spine_start ⟨id, _, offset⟩ ?_) ?_ ?_ ?_ (by simp) ?_ (by simp)
  · rw [if_pos hshows, hplace]
  · rw [SourceTree.innerNodes_eq (hc.keeps h.built), SourceTree.size_push, Nat.add_sub_cancel_left,
      hshows, hplace]
    simp [hkind]
  · rintro _ ⟨⟩ -
    rw [hplace]
    exact hkind
  · intro _
    rw [hplace, SourceTree.size_push]
    exact ⟨Nat.lt_succ_self _, h.above_push _ _⟩
  · intro other hother htoken
    rw [SourceTree.size_push] at hother
    rcases Nat.lt_succ_iff_lt_or_eq.mp hother with hother | rfl
    · exact Or.inl hother
    · unfold TreeNode.isToken at htoken
      unfold SourceTree.kind at hkind
      rw [hkind] at htoken
      cases htoken

/-- By the cases of the event. -/
theorem step (h : t.Follows ast place done a.tree frames) (hevents : t.events = done ++ e :: later)
    (hstep : t.Step file ast later e a frames a' frames')
    (hplace : place done.length = a'.tree.size - 1) :
    t.Follows ast place (done ++ [e]) a'.tree frames' := by
  have hchange := hstep.change
  cases hstep with
  | token token =>
    rcases a.pushLeaf_tree (currentParent frames) token with ⟨last, hj, htree⟩ | ⟨hno, htree⟩
    · rw [htree] at hplace ⊢
      exact h.join hevents hj hplace
    · rw [htree] at hplace ⊢
      exact h.leaf_push hevents hno (by rw [hplace, SourceTree.size_push, Nat.add_sub_cancel])
  | enter hnode hoffset =>
    exact h.enter hevents hnode (by rw [hplace, SourceTree.size_push, Nat.add_sub_cancel])
  | @pass _ _ id hnode =>
    have hshows : t.showsAt ast done.length = false := (showsAt_of_start hevents).trans hnode
    refine h.keep_silent hevents hchange (h.spine_start ⟨id, none, _⟩ ?_) rfl hshows rfl
    simp [hshows]
  | leave hnode =>
    refine h.keep_silent hevents hchange h.spine_stop ?_ (showsAt_of_stop hevents) rfl
    rw [Assembly.index_tree, Assembly.closeNode_size]
  | drop hnode =>
    exact h.keep_silent hevents hchange h.spine_stop rfl (showsAt_of_stop hevents) rfl

/-- The last change of a tree gives the root its span. -/
theorem close (h : t.Follows ast place t.events a.tree []) :
    t.Follows ast place t.events (a.closeNode SourceTree.root).tree [] := by
  have hroot : SourceTree.root < a.tree.size := h.built.lt_size (by simp [openNodes])
  have hbuilt := (Assembly.closeNode_tokens h.built).1
  have hkeeps : a.tree.Keeps (a.closeNode SourceTree.root).tree := by
    rcases a.closeNode_tree SourceTree.root with ⟨first, last, -, -, htree⟩ | ⟨-, htree⟩
    · rw [htree]
      exact SourceTree.keeps_coverChildren hroot (h.built.inner _ (by simp [openNodes]))
    · rw [htree]
      exact .refl
  have hsize := a.closeNode_size SourceTree.root
  refine ⟨hbuilt, h.linked.keeps hkeeps hsize (a.closeNode_children _), ?_, h.spine, ?_, ?_, ?_, ?_,
    ?_, h.joined⟩
  · rw [hkeeps.parent? _ hroot]
    exact h.root
  · rw [SourceTree.innerNodes_eq hkeeps, hsize, Nat.sub_self, h.inner]
    simp
  · intro before id after heq hnode
    have hkind := h.kinds before id after heq hnode
    obtain ⟨hlt, -⟩ := h.above before _ after heq (Or.inr ((showsAt_of_start heq).trans hnode))
    rw [hkeeps.kind _ hlt, hkind]
    unfold TreeNode.isToken
    rw [show (a.tree.node (place before.length)).kind = _ from hkind]
  · intro before e after heq hplaced
    obtain ⟨hlt, markers, starts, hspine, habove⟩ := h.above before e after heq hplaced
    exact ⟨hsize ▸ hlt, markers, starts, hspine, habove.keeps hkeeps hlt⟩
  · intro before token after heq
    obtain ⟨hlt, -⟩ := h.above before _ after heq (Or.inl rfl)
    exact hkeeps.holds _ hlt token (h.leaf before token after heq)
  · intro id hid htoken
    rw [hsize] at hid
    exact h.onto id hid (hkeeps.isToken id hid ▸ htoken)

end Follows

/-- By induction on the number of events that are done. -/
theorem Replays.followed (h : t.Replays file ast [] t.events {} [] a frames) :
    ∃ (place : Nat → TreeId) (as : Nat → Assembly) (fs : Nat → List Frame),
      as 0 = {} ∧ fs 0 = [] ∧ as t.events.length = a ∧ fs t.events.length = frames ∧
      (∀ before e after, t.events = before ++ e :: after →
        t.Step file ast after e (as before.length) (fs before.length)
          (as (before.length + 1)) (fs (before.length + 1))) ∧
      ∀ n ≤ t.events.length, t.Follows ast place (t.events.take n) (as n).tree (fs n) := by
  obtain ⟨as, fs, hfirst, hframes, hlast, hdone, hsteps⟩ := h.states
  simp only [List.append_nil] at hsteps
  refine ⟨fun i => (as (i + 1)).tree.size - 1, as, fs, hfirst, hframes, hlast, hdone, hsteps, ?_⟩
  intro n
  induction n with
  | zero =>
    intro _
    rw [hfirst, hframes, List.take_zero]
    exact .empty
  | succ n ih =>
    intro hn
    have hsplit : t.events = t.events.take n ++ t.events[n] :: t.events.drop (n + 1) := by
      rw [← List.drop_eq_getElem_cons hn, List.take_append_drop]
    have hlength : (t.events.take n).length = n := List.length_take_of_le (Nat.le_of_lt hn)
    have hstep := hsteps _ _ _ hsplit
    rw [hlength] at hstep
    rw [List.take_add_one, List.getElem?_eq_getElem hn, Option.toList_some]
    exact (ih (Nat.le_of_lt hn)).step hsplit hstep (by rw [hlength])

theorem Replays.follows (h : t.Replays file ast [] t.events {} [] a frames) :
    ∃ place, t.Follows ast place t.events a.tree frames := by
  obtain ⟨place, as, fs, -, -, rfl, rfl, -, hfollows⟩ := h.followed
  have hall := hfollows _ (Nat.le_refl _)
  rw [List.take_length] at hall
  exact ⟨place, hall⟩

/-! ### The whole tree -/

/-- The tree has the node `place i` for each start `i` of a marker with a node, and for each token
    `i` the leaf `place i`, and they are in each other as the brackets say. -/
structure Shows (t : Transcript) (ast : Ast) (place : Nat → TreeId) (tree : SourceTree) : Prop where
  /-- The inner nodes are the starts, in the same order. -/
  inner : tree.innerNodes = (t.shownStarts ast).map place
  kinds : ∀ i ∈ t.shownStarts ast, ∀ id, t.events[i]? = some (.start id) →
    tree.kind (place i) = .node ((t.marker id).kind.getD .group)
  /-- A node is above another one if its brackets are around the start of that one. -/
  above : ∀ i ∈ t.shownStarts ast, ∀ j ∈ t.shownStarts ast,
    place i ∈ (tree.ancestors (place j)).tail ↔ Encloses t.events i j
  /-- The leaves are those of the tokens. -/
  tokens : ∀ leaf, leaf ∈ tree.leaves ↔ ∃ i token, t.events[i]? = some (.token token) ∧
    place i = leaf
  holds : ∀ i token, t.events[i]? = some (.token token) → tree.Holds (place i) token
  /-- Tokens share a leaf only if they are blanks that are joined. -/
  joined : ∀ i j token other, t.events[i]? = some (.token token) →
    t.events[j]? = some (.token other) → place i = place j →
    i = j ∨ token.kind.isBlank = true ∧ other.kind.isBlank = true
  /-- A token hangs in the innermost node whose brackets are around it. -/
  hangs : ∀ j token, t.events[j]? = some (.token token) → ∀ i ∈ t.shownStarts ast,
    Encloses t.events i j → (∀ k ∈ t.shownStarts ast, Encloses t.events k j → k = i ∨
      Encloses t.events k i) → tree.parent? (place j) = some (place i)
  /-- A token outside of all brackets hangs in the root. -/
  outside : ∀ j token, t.events[j]? = some (.token token) →
    (∀ i ∈ t.shownStarts ast, ¬ Encloses t.events i j) →
    tree.parent? (place j) = some SourceTree.root

theorem mem_shownStarts {i : Nat} : i ∈ t.shownStarts ast ↔ t.showsAt ast i = true := by
  unfold shownStarts
  rw [List.mem_filter, List.mem_range]
  refine ⟨And.right, fun h => ⟨?_, h⟩⟩
  by_contra hle
  unfold showsAt at h
  rw [List.getElem?_eq_none (Nat.le_of_not_lt hle)] at h
  cases h

theorem start_of_showsAt {i : Nat} (h : t.showsAt ast i = true) :
    ∃ before id after, t.events = before ++ .start id :: after ∧ before.length = i ∧
      (t.marker id).hasTreeNode ast = true := by
  unfold showsAt at h
  split at h
  · next id hid =>
    obtain ⟨before, after, heq, hlength⟩ := split_of_getElem? hid
    exact ⟨before, id, after, heq, hlength, h⟩
  · cases h

namespace Follows

variable {tree : SourceTree} (h : t.Follows ast place t.events tree [])

include h

theorem bracketed : Bracketed t.events := by
  obtain ⟨starts, hspine, -⟩ := h.spine
  exact bracketed_iff.mpr hspine.openedAfter

/-- The nodes above the place of an event are those of the brackets around it. -/
theorem above_place {j : Nat} (hj : t.events[j]? = some e)
    (hplaced : e.token?.isSome ∨ t.showsAt ast j = true) :
    place j < tree.size ∧ ∃ starts : List Nat, starts.Pairwise (· > ·) ∧
      tree.Above (place j) (starts.map place ++ [SourceTree.root]) ∧
      ∀ i, i ∈ starts ↔ t.showsAt ast i = true ∧ Encloses t.events i j := by
  obtain ⟨before, after, heq, rfl⟩ := split_of_getElem? hj
  obtain ⟨hlt, markers, starts, hspine, habove⟩ := h.above before e after heq hplaced
  refine ⟨hlt, starts.filter (t.showsAt ast), hspine.pairwise.filter _, habove, fun i => ?_⟩
  have hstop : ∀ id, e ≠ .stop id := by
    rintro id rfl
    rcases hplaced with hplaced | hplaced
    · cases hplaced
    · rw [showsAt_of_stop heq] at hplaced
      cases hplaced
  have hall := h.bracketed
  rw [heq] at hall
  rw [List.mem_filter, hspine.mem_iff hall hstop, ← heq]
  exact And.comm

theorem place_injective {i j : Nat} (hi : i ∈ t.shownStarts ast) (hj : j ∈ t.shownStarts ast)
    (heq : place i = place j) : i = j := by
  have hnodup : tree.innerNodes.Nodup := List.nodup_range.filter _
  rw [h.inner] at hnodup
  exact List.inj_on_of_nodup_map hnodup hi hj heq

theorem place_ne_root {i : Nat} (hi : t.showsAt ast i = true) : place i ≠ SourceTree.root := by
  obtain ⟨before, id, after, heq, rfl, -⟩ := start_of_showsAt hi
  obtain ⟨-, starts, -, habove, -⟩ := h.above_place (getElem?_of_split heq) (Or.inr hi)
  intro hroot
  have hparent := habove.parent?_eq
  rw [hroot, h.root] at hparent
  cases starts <;> cases hparent

/-- The brackets around the start of a marker are the nodes above its node. -/
theorem mem_ancestors {i j : Nat} (hi : i ∈ t.shownStarts ast) (hj : j ∈ t.shownStarts ast) :
    place i ∈ (tree.ancestors (place j)).tail ↔ Encloses t.events i j := by
  obtain ⟨before, id, after, heq, rfl, -⟩ := start_of_showsAt (mem_shownStarts.mp hj)
  obtain ⟨hlt, starts, -, habove, hmem⟩ :=
    h.above_place (getElem?_of_split heq) (Or.inr (mem_shownStarts.mp hj))
  rw [habove.ancestors hlt, List.tail_cons, List.mem_append, List.mem_singleton, List.mem_map]
  constructor
  · rintro (⟨k, hk, hplace⟩ | hroot)
    · obtain ⟨hshown, hencloses⟩ := (hmem k).mp hk
      rwa [← h.place_injective (mem_shownStarts.mpr hshown) hi hplace]
    · exact absurd hroot (h.place_ne_root (mem_shownStarts.mp hi))
  · intro hencloses
    exact Or.inl ⟨i, (hmem i).mpr ⟨mem_shownStarts.mp hi, hencloses⟩, rfl⟩

theorem mem_leaves {leaf : TreeId} : leaf ∈ tree.leaves ↔
    ∃ i token, t.events[i]? = some (.token token) ∧ place i = leaf := by
  rw [h.built.leaves_eq, List.mem_filter, List.mem_range]
  constructor
  · rintro ⟨hlt, htoken⟩
    obtain ⟨before, token, after, heq, rfl⟩ := h.onto leaf hlt htoken
    exact ⟨before.length, token, getElem?_of_split heq, rfl⟩
  · rintro ⟨i, token, hi, rfl⟩
    obtain ⟨before, after, heq, rfl⟩ := split_of_getElem? hi
    obtain ⟨hlt, -⟩ := h.above before _ after heq (Or.inl rfl)
    refine ⟨hlt, ?_⟩
    rcases h.leaf before token after heq with hheld | ⟨-, hkind⟩
    · rw [← TreeNode.isSome_token?, hheld]
      rfl
    · unfold TreeNode.isToken
      rw [show (tree.node (place before.length)).kind = _ from hkind]

/-- A token is joined only to an earlier one. -/
theorem blanks_of_joined {i j : Nat} {token other : Token} (hij : i < j)
    (hi : t.events[i]? = some (.token token)) (hj : t.events[j]? = some (.token other))
    (hplace : place i = place j) : token.kind.isBlank = true ∧ other.kind.isBlank = true := by
  obtain ⟨before, after, heq, rfl⟩ := split_of_getElem? hj
  refine h.joined before other after heq i hij token ?_ hplace
  rwa [heq, List.getElem?_append_left hij] at hi

/-- The node above a leaf is the last one whose brackets are around the token. -/
theorem leaf_parent {j : Nat} {token : Token} (hj : t.events[j]? = some (.token token)) :
    ∃ starts : List Nat, starts.Pairwise (· > ·) ∧
      tree.parent? (place j) = (starts.map place ++ [SourceTree.root]).head? ∧
      ∀ i, i ∈ starts ↔ i ∈ t.shownStarts ast ∧ Encloses t.events i j := by
  obtain ⟨-, starts, hpairwise, habove, hmem⟩ := h.above_place hj (Or.inl rfl)
  refine ⟨starts, hpairwise, habove.parent?_eq, fun i => ?_⟩
  rw [hmem i, mem_shownStarts]

theorem shows : t.Shows ast place tree := by
  refine ⟨h.inner, ?_, fun i hi j hj => h.mem_ancestors hi hj, fun leaf => h.mem_leaves,
    ?_, ?_, ?_, ?_⟩
  · intro i hi id hid
    obtain ⟨before, after, heq, rfl⟩ := split_of_getElem? hid
    exact h.kinds before id after heq ((showsAt_of_start heq).symm.trans (mem_shownStarts.mp hi))
  · intro i token hi
    obtain ⟨before, after, heq, rfl⟩ := split_of_getElem? hi
    exact h.leaf before token after heq
  · intro i j token other hi hj hplace
    rcases Nat.lt_trichotomy i j with hij | rfl | hji
    · exact Or.inr (h.blanks_of_joined hij hi hj hplace)
    · exact Or.inl rfl
    · exact Or.inr (h.blanks_of_joined hji hj hi hplace.symm).symm
  · intro j token hj i hi hencloses hinnermost
    obtain ⟨starts, hpairwise, hparent, hmem⟩ := h.leaf_parent hj
    have histarts := (hmem i).mpr ⟨hi, hencloses⟩
    cases starts with
    | nil => cases histarts
    | cons k starts =>
      -- The first of the starts is the last one in the order of the events.
      obtain ⟨hk, hkencloses⟩ := (hmem k).mp List.mem_cons_self
      have hle : i ≤ k := by
        rcases List.mem_cons.mp histarts with rfl | hmem'
        · exact Nat.le_refl _
        · exact Nat.le_of_lt (List.rel_of_pairwise_cons hpairwise hmem')
      rcases hinnermost k hk hkencloses with rfl | hki
      · exact hparent
      · exact absurd hki.lt (Nat.not_lt_of_le hle)
  · intro j token hj hnone
    obtain ⟨starts, -, hparent, hmem⟩ := h.leaf_parent hj
    cases starts with
    | nil => exact hparent
    | cons k starts =>
      obtain ⟨hk, hkencloses⟩ := (hmem k).mp List.mem_cons_self
      exact absurd hkencloses (hnone k hk)

end Follows

/-- The tree of a transcript is its bracket structure.  A walk in pre-order visits the ids in their
    order, parents and children are each other's, and the leaves stand in the order of their ids.
    The markers with a node are in each other as their brackets are, and each token hangs in the
    innermost one around it. -/
theorem tree_shows_brackets (t : Transcript) (file : FileId) (ast : Ast) (r : Assembly)
    (hr : t.assemble file ast = .ok r) :
    r.tree.walk = List.range r.tree.size ∧
    (∀ p c, c ∈ r.tree.children p ↔ r.tree.parent? c = some p) ∧
    r.tree.leaves = (List.range r.tree.size).filter (fun id => (r.tree.node id).isToken) ∧
    ∃ place, t.Shows ast place r.tree := by
  obtain ⟨a, hreplays, rfl⟩ := assemble_ok.mp hr
  obtain ⟨place, hfollows⟩ := hreplays.follows
  have hclosed := hfollows.close
  exact ⟨hclosed.built.laid.walk_eq, hclosed.linked, hclosed.built.leaves_eq, place,
    hclosed.shows⟩

/-- Two nodes in each other, with a marker without a node between them and two blanks that are
    joined. -/
theorem nested_tree_shows_brackets :
    ∃ r, Transcript.assemble ⟨[.start 0, .start 1, .token ⟨.whitespace, ⟨0, 1⟩⟩,
        .token ⟨.newline, ⟨1, 2⟩⟩, .start 2, .token ⟨.ident, ⟨2, 3⟩⟩, .stop 2, .stop 1, .stop 0],
        #[{ state := .done }, { state := .dropped }, { state := .done }]⟩ 0 {} = .ok r ∧
      r.tree.walk = [0, 1, 2, 3, 4] ∧ r.tree.leaves = [2, 4] ∧ ∃ place : Nat → TreeId,
        place 0 ∈ (r.tree.ancestors (place 4)).tail ∧
        r.tree.parent? (place 3) = some (place 0) := by
  refine ⟨_, rfl, ?_⟩
  obtain ⟨hwalk, -, hleaves, place, hshows⟩ := tree_shows_brackets
    ⟨[.start 0, .start 1, .token ⟨.whitespace, ⟨0, 1⟩⟩, .token ⟨.newline, ⟨1, 2⟩⟩, .start 2,
      .token ⟨.ident, ⟨2, 3⟩⟩, .stop 2, .stop 1, .stop 0],
      #[{ state := .done }, { state := .dropped }, { state := .done }]⟩ 0 {} _ rfl
  have hencloses : ∀ j, 0 < j → j ≤ 7 → Encloses _ 0 j := fun j hpos hle =>
    ⟨[], 0, [.start 1, .token ⟨.whitespace, ⟨0, 1⟩⟩, .token ⟨.newline, ⟨1, 2⟩⟩, .start 2,
      .token ⟨.ident, ⟨2, 3⟩⟩, .stop 2, .stop 1], [], rfl, bracketed_iff.mpr rfl, rfl,
        hpos, by simpa⟩
  refine ⟨hwalk, hleaves, place, ?_, hshows.hangs 3 _ rfl 0 (by decide) ?_ ?_⟩
  · exact (hshows.above 0 (by decide) 4 (by decide)).mpr (hencloses 4 (by decide) (by decide))
  · exact hencloses 3 (by decide) (by decide)
  · intro k hk hencloses
    have hlt := hencloses.lt
    have hmem : k ∈ [0, 4] := hk
    have hzero : k = 0 := by
      simp only [List.mem_cons, List.not_mem_nil, or_false] at hmem
      omega
    exact Or.inl hzero

end Transcript

end ScriptAnalysis
