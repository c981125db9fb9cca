import ScriptAnalysis.Proofs.Tree.Coherence
import ScriptAnalysis.Proofs.Tree.Enclosure
import ScriptAnalysis.Proofs.Tree.PointLookup
import ScriptAnalysis.Workspace.Analysis

/-!
# Where the keys of a script lead in its tree

The index tells for a key the node of the tree that was added at the start of the construct with
this key (`Transcript.Replays.places`), and above this node are those of the constructs around it.
So a walk from the key of an identifier towards the root meets the statements that declare a
variable around the identifier, the nearest first, and each of them has a key that leads back to it
(`Assembly.Placed.declarationAround?_cases`).
-/

namespace ScriptAnalysis

/-! ### Entries and places -/

/-- What is known of a script whose transcript was assembled: the constructs with their entries, and
    the places of the events in the tree. -/
structure Assembly.Placed (r : Assembly) (file : FileId) (t : Transcript) (ast : Ast) (root : Nat)
    (parts : ScriptParts) (cs : List (Construct × TreeId)) (place : Nat → TreeId) : Prop where
  script : ScriptRecorded ast t.marker t.events root parts
  ascending : Ascending t.events
  coherent : r.Coherent file ast t.marker t.events cs
  follows : t.Follows ast place t.events r.tree []
  root_kind : r.tree.kind SourceTree.root = .root
  /-- The entry of a construct tells the node that was added at its start. -/
  place_eq : ∀ x ∈ cs, x.2 = place x.1.start

namespace Transcript

variable {t : Transcript} {file : FileId} {ast : Ast} {root : Nat} {parts : ScriptParts}
  {place : Nat → TreeId} {done : List Event} {a : Assembly} {frame : Frame} {frames : List Frame}
  {cs : List (Construct × TreeId)}

/-- The innermost marker that was entered has its node at its start. -/
theorem Follows.place_of_frame {tree : SourceTree} {id : TreeId}
    (h : t.Follows ast place done tree (frame :: frames)) (hnode : frame.node = some id) :
    ∃ before after, done = before ++ .start frame.marker :: after ∧ place before.length = id := by
  obtain ⟨starts, hspine, hnodes⟩ := h.spine
  cases hspine with
  | @cons before body _ starts _ _ _ =>
    refine ⟨before, body, rfl, ?_⟩
    have hhead := (List.cons.inj hnodes).1
    rw [hnode] at hhead
    dsimp only at hhead
    split at hhead
    · exact (Option.some.inj hhead).symm
    · cases hhead

/-- By induction on the number of events that are done: an entry that is added is that of the
    innermost marker that was entered. -/
theorem Replays.places (hs : ScriptRecorded ast t.marker t.events root parts)
    (h : t.Replays file ast [] t.events {} [] a frames) :
    ∃ place cs, t.Follows ast place t.events a.tree frames ∧
      t.Progress file ast t.events.length a frames cs ∧ ∀ x ∈ cs, x.2 = place x.1.start := by
  obtain ⟨place, as, fs, hfirst, hframes, rfl, rfl, hsteps, hfollows⟩ := h.followed
  have hrun : ∀ n ≤ t.events.length, ∃ cs, t.Progress file ast n (as n) (fs n) cs ∧
      ∀ x ∈ cs, x.2 = place x.1.start := by
    intro n
    induction n with
    | zero =>
      intro _
      rw [hfirst, hframes]
      exact ⟨[], .empty, by simp⟩
    | succ n ih =>
      intro hn
      obtain ⟨cs, hcs, hplaces⟩ := ih (Nat.le_of_lt hn)
      have hsplit : t.events = t.events.take n ++ t.events[n] :: t.events.drop (n + 1) := by
        rw [← List.drop_eq_getElem_cons hn, List.take_append_drop]
      have hlength : (t.events.take n).length = n := List.length_take_of_le (Nat.le_of_lt hn)
      have hstep := hsteps _ _ _ hsplit
      rw [hlength] at hstep
      obtain ⟨cs', hcs', hnew⟩ := hstep.progress hs hsplit (by rw [hlength]; exact hcs)
      rw [hlength] at hcs'
      refine ⟨cs', hcs', fun x hx => ?_⟩
      rcases hnew x hx with hx | ⟨frame, hframe, hmarker, hnode⟩
      · exact hplaces x hx
      · obtain ⟨outer, houter⟩ := List.head?_eq_some_iff.mp hframe
        obtain ⟨before, after, hbefore, hplace⟩ :=
          Follows.place_of_frame (houter ▸ hfollows n (Nat.le_of_lt hn)) hnode
        rw [hbefore, List.append_assoc, hmarker, List.cons_append] at hsplit
        obtain ⟨heq, -⟩ := split_unique hs.nodup hsplit (hcs'.isIn hx).1.split rfl rfl
        rw [← hplace, heq, Construct.start]
  obtain ⟨cs, hcs, hplaces⟩ := hrun _ (Nat.le_refl _)
  have hall := hfollows _ (Nat.le_refl _)
  rw [List.take_length] at hall
  exact ⟨place, cs, hall, hcs, hplaces⟩

end Transcript

/-- The script of every text has places for its keys. -/
theorem Assembly.placed {file : FileId} {text : String} {p : Parse} {r : Assembly}
    (hparse : parseScript text = .ok p) (hr : p.transcript.assemble file p.ast = .ok r) :
    ∃ parts cs place, r.Placed file p.transcript p.ast p.root parts cs place := by
  obtain ⟨p', m, body, last, hparse', htokens, -⟩ := parseWith_script text (scan_endsWithEof text)
  obtain rfl : p' = p := Except.ok.inj (hparse'.symm.trans hparse)
  obtain ⟨parts, hs⟩ := ScriptRecorded.of_parse hparse
  have hroot := Transcript.assemble_root hr
  obtain ⟨a, hrun, rfl⟩ := Transcript.assemble_ok.mp hr
  obtain ⟨place, cs, hfollows, hcs, hplaces⟩ := hrun.places hs
  exact ⟨parts, cs, place, hs, ascending_of_scan htokens, hcs.coherent, hfollows.close, hroot,
    hplaces⟩

/-! ### Brackets around a construct -/

namespace Construct

variable {ast : Ast} {mk : MarkerId → Marker} {events : List Event} {c d : Construct}
  {p q : List Event}

/-- The brackets of a construct enclose the start of each construct in it. -/
theorem Inside.encloses (h : c.Inside d p q) (hd : d.In ast mk events) :
    Encloses events d.start c.start := by
  refine ⟨d.before, d.marker, d.body, d.after, hd.split, bracketed_iff.mpr (hd.balanced []), rfl,
    h.lt.1, ?_⟩
  have hstop := h.lt.2
  have := c.start_lt_stop
  unfold stop at hstop this
  rw [length_whole] at hstop
  rw [length_whole] at hstop this
  omega

/-- A construct whose start is enclosed is in the construct with these brackets. -/
theorem In.inside_of_encloses (hc : c.In ast mk events) (hd : d.In ast mk events)
    (hnodup : (events.filterMap Event.started?).Nodup)
    (h : Encloses events d.start c.start) : ∃ p q, c.Inside d p q := by
  obtain ⟨before, id, body, after, hevents, hbody, hlength, hlt, hle⟩ := h
  obtain ⟨rfl, hrest⟩ := List.append_inj (hevents.symm.trans hd.split) hlength
  obtain ⟨-, hrest⟩ := List.cons.inj hrest
  obtain ⟨rfl, -⟩ := body_unique hbody.balanced hd.balanced hrest
  have hmarker : c.marker ≠ d.marker := fun heq =>
    Nat.lt_irrefl _ (hc.eq_of_marker hd hnodup heq ▸ hlt)
  rcases hc.nested_or_apart hd hmarker with ⟨x, y, hin⟩ | hin | ⟨x, hx⟩ | ⟨x, hx⟩
  · exact absurd hin.lt.1 (Nat.lt_asymm hlt)
  · exact hin
  · have := hx.le
    have := c.start_lt_stop
    omega
  · have hstop := hx.le
    unfold stop at hstop
    rw [length_whole] at hstop
    omega

end Construct

/-! ### The places of constructs -/

namespace Assembly.Placed

variable {r : Assembly} {file : FileId} {t : Transcript} {ast : Ast} {root : Nat}
  {parts : ScriptParts} {cs : List (Construct × TreeId)} {place : Nat → TreeId} {c d : Construct}
  {decl : NodeId} {name : String} {key : AstKey} {id : TreeId} {i : Nat}

section

variable (h : r.Placed file t ast root parts cs place)

include h

theorem agrees : r.Agrees ast := h.coherent.agrees h.script h.ascending

/-- The key of an identifier leads to it and to its place, and it has this key. -/
theorem of_identifier (hc : c.In ast t.marker t.events) (hdata : c.data = .identifier name) :
    r.nodes[c.key file]? = some c.node ∧ r.treeNodes[c.key file]? = some (place c.start) ∧
      r.nodeKeys[c.node]? = some (c.key file) := by
  obtain ⟨id, hmem, hnode, hplace⟩ := h.coherent.found_of_identifier h.script h.ascending hc hdata
  refine ⟨hnode, h.place_eq _ hmem ▸ hplace, h.agrees.forth _ _ hnode ?_⟩
  rintro ⟨decl, hclass, -⟩
  rw [hc.found, hdata] at hclass
  cases hclass

/-- The key of a statement that declares a variable leads to it and to its place. -/
theorem of_varDecl (hc : c.In ast t.marker t.events) (hdata : c.data = .varDecl decl) :
    r.nodes[c.key file]? = some c.node ∧ r.treeNodes[c.key file]? = some (place c.start) := by
  obtain ⟨id, hmem, hnode, hplace⟩ := h.coherent.found_of_varDecl h.script h.ascending hc hdata
  exact ⟨hnode, h.place_eq _ hmem ▸ hplace⟩

/-- The node at the start of a construct that has one is of its kind. -/
theorem kind_place (hc : c.In ast t.marker t.events) (hkeyed : c.Keyed) :
    t.showsAt ast c.start = true ∧ r.tree.kind (place c.start) = .node (c.key file).kind := by
  have hshown := hc.hasTreeNode_iff.mpr hkeyed
  refine ⟨(Transcript.showsAt_of_start hc.split).trans hshown, ?_⟩
  rw [Construct.start, h.follows.kinds _ _ _ hc.split hshown, hc.kind_eq file]
  rfl

/-- A node of the kind of variables is at the start of a statement that declares one. -/
theorem varDecl_of_kind (hshows : t.showsAt ast i = true)
    (hkind : r.tree.kind (place i) = .node .varDecl) :
    ∃ d : Construct, d.In ast t.marker t.events ∧ (∃ decl, d.data = .varDecl decl) ∧
      d.start = i := by
  obtain ⟨before, m, after, hevents, rfl, hnode⟩ := Transcript.start_of_showsAt hshows
  rw [h.follows.kinds _ _ _ hevents hnode] at hkind
  have hvar : (t.marker m).kind = some .varDecl := by
    cases hm : (t.marker m).kind with
    | none =>
      rw [hm] at hkind
      cases hkind
    | some kind =>
      rw [hm] at hkind
      exact congrArg some (TreeKind.node.inj hkind)
  have hstart : .start m ∈ t.events := by rw [hevents]; simp
  obtain ⟨n, hn⟩ := Option.ne_none_iff_exists'.mp (h.script.node_of_varDecl hstart hvar)
  obtain ⟨d, rfl, hd, -⟩ := h.script.construct hstart hn
  obtain ⟨rfl, -⟩ := split_unique h.script.nodup hevents hd.split rfl rfl
  exact ⟨d, hd, NodeData.eq_varDecl (hd.means.kind.symm.trans hvar), rfl⟩

/-- A node of the tree has the key that leads to it. -/
theorem keyOfTree? {a : Analysis} (ha : a.assembly = r) (hplace : r.treeNodes[key]? = some id) :
    a.keyOfTree? id = some key := by
  unfold Analysis.keyOfTree?
  rw [ha]
  have hmem : (key, id) ∈ r.treeNodes.toList :=
    Std.TreeMap.mem_toList_iff_getElem?_eq_some.mpr hplace
  have hsome : (r.treeNodes.toList.find? fun entry => entry.2 == id).isSome := by
    rw [List.find?_isSome]
    exact ⟨_, hmem, beq_self_eq_true id⟩
  obtain ⟨entry, hentry⟩ := Option.isSome_iff_exists.mp hsome
  have hid : (entry.2 == id) = true :=
    List.find?_some (p := fun entry : AstKey × TreeId => entry.2 == id) hentry
  have hfound := Std.TreeMap.mem_toList_iff_getElem?_eq_some.mp (List.mem_of_find?_eq_some hentry)
  rw [eq_of_beq hid] at hfound
  rw [hentry, Option.map_some, h.agrees.place_inj entry.1 key id hfound hplace]

/-- The walk from an identifier to the root meets the nearest statement around it that declares a
    variable, if there is one. -/
theorem declarationAround?_cases {a : Analysis} (ha : a.assembly = r)
    (hc : c.In ast t.marker t.events) (hdata : c.data = .identifier name) :
    (∃ d : Construct, d.In ast t.marker t.events ∧ (∃ decl, d.data = .varDecl decl) ∧
      (∃ p q, c.Inside d p q) ∧ (∀ d' : Construct, d'.In ast t.marker t.events →
        (∃ decl, d'.data = .varDecl decl) → (∃ p q, c.Inside d' p q) → d'.start ≤ d.start) ∧
      a.declarationAround? (c.key file) = some d.node) ∨
    ((∀ d : Construct, d.In ast t.marker t.events → (∃ decl, d.data = .varDecl decl) →
      ¬ ∃ p q, c.Inside d p q) ∧ a.declarationAround? (c.key file) = none) := by
  obtain ⟨-, hplace, -⟩ := h.of_identifier hc hdata
  obtain ⟨hshows, hkind⟩ := h.kind_place hc (fun params body => by simp [hdata])
  obtain ⟨hlt, starts, hpairwise, habove, hmem⟩ :=
    h.follows.above_place hc.getElem?_start (.inr hshows)
  have hnot : (r.tree.kind (place c.start) == .node .varDecl) = false := by
    rw [hkind, Construct.key, hdata]
    rfl
  have hroot : (r.tree.kind SourceTree.root == .node .varDecl) = false := by
    rw [h.root_kind]
    rfl
  -- The starts at which the walk stops are those of the statements around the identifier.
  have hstops : ∀ i, (i ∈ starts ∧ r.tree.kind (place i) = .node .varDecl) ↔
      ∃ d : Construct, d.In ast t.marker t.events ∧ (∃ decl, d.data = .varDecl decl) ∧
        (∃ p q, c.Inside d p q) ∧ d.start = i := by
    intro i
    constructor
    · rintro ⟨hi, hvar⟩
      obtain ⟨hshown, hencloses⟩ := (hmem i).mp hi
      obtain ⟨d, hd, hddata, rfl⟩ := h.varDecl_of_kind hshown hvar
      exact ⟨d, hd, hddata, hc.inside_of_encloses hd h.script.nodup hencloses, rfl⟩
    · rintro ⟨d, hd, ⟨decl, hddata⟩, ⟨p, q, hin⟩, rfl⟩
      obtain ⟨hshown, hvar⟩ := h.kind_place hd (fun params body => by simp [hddata])
      refine ⟨(hmem _).mpr ⟨hshown, hin.encloses hd⟩, ?_⟩
      rw [hvar, Construct.key, hddata]
      rfl
  have hwalk : a.declarationAround? (c.key file) =
      (starts.find? fun i => r.tree.kind (place i) == .node .varDecl).bind fun i =>
        (a.keyOfTree? (place i)).bind a.lookup := by
    unfold Analysis.declarationAround? Analysis.treeNode? Analysis.tree
    rw [ha, hplace]
    simp only [bind, Option.bind]
    rw [habove.ancestors hlt, List.find?_cons, hnot, List.find?_append, List.find?_map]
    simp only [List.find?_cons, hroot, List.find?_nil, Option.or_none, Function.comp_def]
    cases starts.find? fun i => r.tree.kind (place i) == .node .varDecl with
    | none => rfl
    | some i => rfl
  cases hfind : starts.find? fun i => r.tree.kind (place i) == .node .varDecl with
  | none =>
    refine .inr ⟨fun d hd hddata hin => ?_, by rw [hwalk, hfind]; rfl⟩
    obtain ⟨hi, hvar⟩ := (hstops _).mpr ⟨d, hd, hddata, hin, rfl⟩
    exact List.find?_eq_none.mp hfind _ hi (beq_iff_eq.mpr hvar)
  | some i =>
    obtain ⟨hvar, earlier, later, hsplit, hearlier⟩ := List.find?_eq_some_iff_append.mp hfind
    obtain ⟨d, hd, ⟨decl, hddata⟩, hin, rfl⟩ :=
      (hstops i).mp ⟨List.mem_of_find?_eq_some hfind, eq_of_beq hvar⟩
    obtain ⟨hnode, hdplace⟩ := h.of_varDecl hd hddata
    refine .inl ⟨d, hd, ⟨decl, hddata⟩, hin, fun d' hd' hddata' hin' => ?_, ?_⟩
    · obtain ⟨hi, hvar'⟩ := (hstops _).mpr ⟨d', hd', hddata', hin', rfl⟩
      rw [hsplit] at hi hpairwise
      rcases List.mem_append.mp hi with hi | hi
      · have hnone := hearlier _ hi
        rw [hvar'] at hnone
        cases hnone
      · rcases List.mem_cons.mp hi with hi | hi
        · exact Nat.le_of_eq hi
        · exact Nat.le_of_lt (List.rel_of_pairwise_cons (List.pairwise_append.mp hpairwise).2.1 hi)
    · rw [hwalk, hfind, Option.bind_some, h.keyOfTree? ha hdplace, Option.bind_some]
      unfold Analysis.lookup
      rw [ha, hnode]

end

end Assembly.Placed

end ScriptAnalysis
