import Mathlib.Data.List.Find
import ScriptAnalysis.Proofs.Tree.Blames
import ScriptAnalysis.Proofs.Tree.Coherence

/-!
# The offsets of keys

A key has an offset, the node that it leads to has a span, and its place in the tree has leaves.
The first comes from the marker or from the events behind its start, the second from the parser and
the third from the order of the events.  All three tell the same token (`Assembly.OffsetsAgree`),
but for the class of the script, whose span starts with the text.
-/

namespace ScriptAnalysis

/-! ### The order of a document -/

namespace SourceTree

variable {t t' : SourceTree} {a b n : TreeId} {cs path path' : List TreeId} {tokens : List Token}

/-- A node and the nodes under it, in the order of the text, fewer than `depth` levels below it. -/
def nodesBelow (t : SourceTree) : Nat → TreeId → List TreeId
  | 0, _ => []
  | depth + 1, n => n :: (t.children n).toList.flatMap (t.nodesBelow depth)

/-- The nodes of a tree in the order of the text, each in front of those under it. -/
def documentOrder (t : SourceTree) : List TreeId := t.nodesBelow t.size root

/-- Where the first leaf starts that is no trivia, from a node on. -/
def firstFrom? (t : SourceTree) (n : TreeId) : Option Nat :=
  ((t.documentOrder.dropWhile (· ≠ n)).find? fun leaf =>
    (t.node leaf).isToken && !(t.kind leaf).isTrivia).map fun leaf => (t.node leaf).span.start

/-- By induction on the interval, as for the leaves. -/
theorem Runs.nodesBelow (h : t.Runs a cs b) {depth : Nat} (hdepth : b ≤ a + depth) :
    cs.flatMap (t.nodesBelow depth) = List.range' a (b - a) := by
  induction h generalizing depth with
  | nil a => simp
  | @cons a b c cs h₁ h₂ ih₁ ih₂ =>
    have hab : a < b := h₁.le
    have hbc : b ≤ c := h₂.le
    obtain ⟨depth, rfl⟩ : ∃ d, depth = d + 1 := by
      refine Nat.exists_eq_succ_of_ne_zero ?_
      rintro rfl
      exact Nat.lt_irrefl a (Nat.lt_of_lt_of_le hab (Nat.le_trans hbc hdepth))
    have hinner : b ≤ a + 1 + depth :=
      Nat.le_trans hbc (Nat.le_trans hdepth (Nat.le_of_eq (Nat.add_right_comm a depth 1)))
    rw [List.flatMap_cons, interval_append (Nat.le_of_lt hab) hbc, interval_cons hab,
      ih₂ (Nat.le_trans hdepth (Nat.add_le_add_right (Nat.le_of_lt hab) _)), ← ih₁ hinner]
    rfl

/-- The order of the text is that of the ids. -/
theorem Built.documentOrder_eq (h : t.Built [root]) : t.documentOrder = List.range t.size := by
  have hruns : t.Runs root [root] t.size := .cons h.laid.2 (.nil _)
  have hbelow := hruns.nodesBelow (Nat.le_add_left t.size root)
  rw [List.flatMap_singleton] at hbelow
  exact hbelow.trans List.range_eq_range'.symm

theorem Built.firstFrom?_eq (h : t.Built [root]) (hn : n < t.size)
    (hinner : (t.node n).isToken = false) : t.firstFrom? n = t.startAfter? n := by
  have hrange : List.range t.size =
      List.range n ++ n :: List.range' (n + 1) (t.size - (n + 1)) := by
    have hsplit := interval_append (Nat.zero_le n) (Nat.le_of_lt hn)
    rwa [interval_cons hn, Nat.sub_zero, Nat.sub_zero, ← List.range_eq_range',
      ← List.range_eq_range'] at hsplit
  have hbefore : ∀ id ∈ List.range n, id < n := fun id hid => List.mem_range.mp hid
  have hnothing : (List.range n).find? (fun id => decide ((t.node id).isToken = true ∧
      (decide (n < id) && !(t.kind id).isTrivia) = true)) = none :=
    List.find?_eq_none.mpr fun id hid => by simp [Nat.not_lt_of_gt (hbefore id hid)]
  rw [← h.nextStart?_eq, nextStart?, h.leaves_eq, List.find?_filter, firstFrom?, h.documentOrder_eq,
    hrange, List.dropWhile_append_of_pos fun id hid => by simpa using Nat.ne_of_lt (hbefore id hid),
    List.dropWhile_cons_of_neg (by simp), List.find?_append, hnothing, Option.none_or,
    List.find?_cons_of_neg (by simp [hinner]), List.find?_cons_of_neg (by simp [hinner])]
  refine congrArg (Option.map _) (List.find?_congr fun id hid => ?_)
  have hlt : n < id := (List.mem_range'_1.mp hid).1
  simp [hlt]

end SourceTree

/-! ### What a step does to the keys -/

namespace Assembly

variable {a b : Assembly} {file : FileId} {markers : MarkerId → Marker} {ast : Ast} {m : Marker}
  {node : TreeId} {offset : Nat}

/-- The least offset of the keys is noted. -/
structure NotesLeast (a : Assembly) : Prop where
  bound : ∀ (key : AstKey) n, a.nodes[key]? = some n → ∃ o, a.firstOffset = some o ∧ o ≤ key.offset
  attained : ∀ o, a.firstOffset = some o →
    ∃ (key : AstKey) (n : NodeId), a.nodes[key]? = some n ∧ key.offset = o

theorem NotesLeast.congr (h : a.NotesLeast) (hnodes : b.nodes = a.nodes)
    (hfirst : b.firstOffset = a.firstOffset) : b.NotesLeast :=
  ⟨hnodes ▸ hfirst ▸ h.bound, hnodes ▸ hfirst ▸ h.attained⟩

theorem NotesLeast.claimKey (h : a.NotesLeast) (key : AstKey) (n : NodeId) (place : TreeId) :
    (a.claimKey key n place).NotesLeast := by
  have hfirst : (a.claimKey key n place).firstOffset =
      some ((a.firstOffset.map (min · key.offset)).getD key.offset) := rfl
  have hnodes : ∀ key', (a.claimKey key n place).nodes[key']? =
      if key = key' then some n else a.nodes[key']? := fun _ => getElem?_insert_eq
  refine ⟨fun key' n' hkey => ⟨_, hfirst, ?_⟩, fun o ho => ?_⟩
  · rw [hnodes] at hkey
    split at hkey
    · next heq =>
      subst heq
      cases a.firstOffset with
      | none => exact Nat.le_refl _
      | some least => exact Nat.min_le_right _ _
    · obtain ⟨least, hleast, hle⟩ := h.bound key' n' hkey
      rw [hleast]
      exact Nat.le_trans (Nat.min_le_left _ _) hle
  · obtain rfl := Option.some.inj (hfirst.symm.trans ho)
    cases hleast : a.firstOffset with
    | none => exact ⟨key, n, by rw [hnodes, if_pos rfl], rfl⟩
    | some least =>
      rcases Nat.lt_or_ge least key.offset with hlt | hge
      · obtain ⟨key', n', hkey, rfl⟩ := h.attained least hleast
        have hne : key ≠ key' := by
          rintro rfl
          exact Nat.lt_irrefl _ hlt
        exact ⟨key', n', by rw [hnodes, if_neg hne, hkey], (Nat.min_eq_left hlt.le).symm⟩
      · exact ⟨key, n, by rw [hnodes, if_pos rfl], (Nat.min_eq_right hge).symm⟩

theorem redirect_same (a : Assembly) (key : AstKey) (nameKey : Option AstKey) (n : NodeId)
    (data : NodeData) : (a.redirect key nameKey n data).nodes = a.nodes ∧
      (a.redirect key nameKey n data).treeNodes = a.treeNodes := by
  unfold redirect
  split
  · exact ⟨rfl, rfl⟩
  · split <;> exact ⟨rfl, rfl⟩
  · split
    · split <;> exact ⟨rfl, rfl⟩
    · exact ⟨rfl, rfl⟩
  · exact ⟨rfl, rfl⟩

/-- The end of a marker enters its key, or none. -/
theorem index_cases (a : Assembly) (file : FileId) (markers : MarkerId → Marker) (ast : Ast)
    (m : Marker) (place : TreeId) (offset : Nat) : a.index file markers ast m place offset = a ∨
      ∃ kind n, (a.index file markers ast m place offset).nodes =
          (a.claimKey ⟨file, kind, offset⟩ n place).nodes ∧
        (a.index file markers ast m place offset).treeNodes =
          a.treeNodes.insert ⟨file, kind, offset⟩ place ∧
        (a.index file markers ast m place offset).firstOffset =
          (a.claimKey ⟨file, kind, offset⟩ n place).firstOffset := by
  unfold index
  split
  · next kind n _ _ =>
    split
    · exact .inl rfl
    · exact .inl rfl
    · refine .inr ⟨kind, n, ?_, ?_, ?_⟩
      · exact (redirect_same ..).1
      · exact (redirect_same ..).2
      · exact redirect_firstOffset ..
  · exact .inl rfl

theorem NotesLeast.index (h : a.NotesLeast) :
    (a.index file markers ast m node offset).NotesLeast := by
  rcases a.index_cases file markers ast m node offset with hsame | ⟨kind, n, hnodes, -, hfirst⟩
  · rwa [hsame]
  · exact (h.claimKey _ _ _).congr hnodes hfirst

/-- A node of the tree stands where an offset is: the first token behind it that is no trivia stands
    there, whether it is a leaf already or among the events to come. -/
def MeetsAt (a : Assembly) (later : List Event) (place : TreeId) (offset : Nat) : Prop :=
  place < a.tree.size ∧
    (a.tree.startAfter? place).or (ScriptAnalysis.firstOffset later) = some offset

end Assembly

namespace Transcript

variable {t : Transcript} {file : FileId} {ast : Ast} {later events : List Event} {e : Event}
  {a a' r : Assembly} {frames frames' : List Frame}

/-- The keys and the markers entered so far have the offsets of their nodes in the tree. -/
structure Meets (a : Assembly) (frames : List Frame) (later : List Event) : Prop where
  built : a.tree.Built (openNodes frames)
  keys : ∀ (key : AstKey) place, a.treeNodes[key]? = some place → a.MeetsAt later place key.offset
  frames : ∀ frame ∈ frames, ∀ place, frame.node = some place → a.MeetsAt later place frame.offset
  least : a.NotesLeast

theorem Meets.empty (later : List Event) : Meets {} [] later :=
  ⟨.empty, by simp, by simp, by simp, by simp⟩

theorem Step.meetsAt (h : t.Step file ast later e a frames a' frames')
    (hb : a.tree.Built (openNodes frames)) {place : TreeId} {offset : Nat}
    (ha : a.MeetsAt (e :: later) place offset) : a'.MeetsAt later place offset := by
  obtain ⟨hlt, hoffset⟩ := ha
  refine ⟨Nat.lt_of_lt_of_le hlt h.change.size_le, ?_⟩
  rw [h.change.startAfter?_eq hb hlt, Option.or_assoc, ← firstOffset_cons]
  exact hoffset

/-- What the markers of some events have noted is the first token behind their start. -/
def NotesFirst (t : Transcript) (events : List Event) : Prop :=
  ∀ id after, .start id :: after <:+ events →
    (t.marker id).offset.or (firstOffset after) = firstOffset after

theorem Step.meets (h : t.Step file ast later e a frames a' frames')
    (hnotes : t.NotesFirst (e :: later)) (ha : Meets a frames (e :: later)) :
    Meets a' frames' later := by
  have hbuilt := h.change.built ha.built
  have hold {place : TreeId} {offset : Nat} (hmeets : a.MeetsAt (e :: later) place offset) :
      a'.MeetsAt later place offset := h.meetsAt ha.built hmeets
  cases h with
  | token token =>
    have hsame := a.sameKeys_pushLeaf (currentParent frames) token
    refine ⟨hbuilt, fun key place hkey => hold (ha.keys key place (hsame.treeNodes ▸ hkey)),
      fun frame hframe place hplace => hold (ha.frames frame hframe place hplace),
      ha.least.congr hsame.nodes (a.pushLeaf_firstOffset _ token)⟩
  | @enter _ _ id offset _ hoffset =>
    refine ⟨hbuilt, fun key place hkey => hold (ha.keys key place hkey),
      List.forall_mem_cons.mpr ⟨fun place hplace => ?_,
        fun frame hframe place hplace => hold (ha.frames frame hframe place hplace)⟩,
      ha.least.congr rfl rfl⟩
    -- Nothing stands behind the new node yet.
    obtain rfl := Option.some.inj hplace
    have hsize := SourceTree.size_push (t := a.tree) (p := currentParent frames)
      (.node ((t.marker id).kind.getD .group)) (.point offset)
    refine ⟨Nat.lt_of_lt_of_eq (Nat.lt_succ_self _) hsize.symm, ?_⟩
    rw [SourceTree.startAfter?_last hsize.symm, Option.none_or, ← hoffset]
    exact (hnotes id later (List.suffix_refl _)).symm
  | pass _ =>
    exact ⟨hbuilt, fun key place hkey => hold (ha.keys key place hkey),
      List.forall_mem_cons.mpr ⟨nofun,
        fun frame hframe place hplace => hold (ha.frames frame hframe place hplace)⟩,
      ha.least.congr rfl rfl⟩
  | @leave _ frame _ node hnode =>
    obtain ⟨hframe, houter⟩ := List.forall_mem_cons.mp ha.frames
    have hsame := a.sameKeys_closeNode node
    have hleast := ha.least.congr hsame.nodes (a.closeNode_firstOffset node)
    refine ⟨hbuilt, fun key place hkey => hold ?_,
      fun frame hframe place hplace => hold (houter frame hframe place hplace), hleast.index⟩
    rcases (a.closeNode node).index_cases file t.marker ast (t.marker frame.marker) node
      frame.offset with hindex | ⟨kind, n, -, hplaces, -⟩
    · rw [hindex, hsame.treeNodes] at hkey
      exact ha.keys key place hkey
    · rw [hplaces, hsame.treeNodes, getElem?_insert_eq] at hkey
      split at hkey
      · next heq =>
        subst heq
        exact hframe place (hnode.trans hkey)
      · exact ha.keys key place hkey
  | drop _ =>
    exact ⟨hbuilt, fun key place hkey => hold (ha.keys key place hkey),
      fun frame hframe place hplace =>
        hold (ha.frames frame (List.mem_cons_of_mem _ hframe) place hplace), ha.least⟩

theorem Replays.meets (h : t.Replays file ast later events a frames a' frames')
    (hnotes : t.NotesFirst (events ++ later)) (ha : Meets a frames (events ++ later)) :
    Meets a' frames' later := by
  induction h with
  | nil => exact ha
  | cons hstep _ ih =>
    exact ih (fun id after hsuffix => hnotes id after (hsuffix.trans (List.suffix_cons _ _)))
      (hstep.meets hnotes ha)

/-- When all events are replayed, each key has the offset of the first leaf behind its place. -/
theorem assemble_meets (hnotes : t.NotesFirst t.events) (hr : t.assemble file ast = .ok r) :
    (∀ (key : AstKey) place, r.treeNodes[key]? = some place →
      r.tree.startAfter? place = some key.offset) ∧ r.NotesLeast := by
  obtain ⟨a, hreplays, rfl⟩ := assemble_ok.mp hr
  have hmeets := hreplays.meets (by rwa [List.append_nil]) (.empty _)
  have hsame := a.sameKeys_closeNode SourceTree.root
  refine ⟨fun key place hkey => ?_, hmeets.least.congr hsame.nodes (a.closeNode_firstOffset _)⟩
  have hroot : SourceTree.root ∈ openNodes [] := by simp [openNodes]
  have hafter : (a.closeNode SourceTree.root).tree.startAfter? place =
      a.tree.startAfter? place := by
    rcases a.closeNode_tree SourceTree.root with ⟨first, last, -, -, htree⟩ | ⟨-, htree⟩
    · rw [htree]
      exact SourceTree.startAfter?_coverChildren (hmeets.built.lt_size hroot)
        (hmeets.built.inner _ hroot)
    · rw [htree]
  obtain ⟨-, hoffset⟩ := hmeets.keys key place (hsame.treeNodes ▸ hkey)
  rw [hafter, ← hoffset]
  exact (Option.or_none).symm

end Transcript

/-! ### Where the offsets agree -/

/-- The offsets of the keys are those of the nodes that they lead to.  The class of the script has
    the least one; its span starts with the text. -/
structure Assembly.OffsetsAgree (a : Assembly) (ast : Ast) (script : AstKey) : Prop where
  first : a.firstOffset = some script.offset
  least : ∀ (key : AstKey) n, a.nodes[key]? = some n → script.offset ≤ key.offset
  placed : ∀ key : AstKey, (∃ n, a.nodes[key]? = some n) ↔ ∃ place, a.treeNodes[key]? = some place
  /-- The parser noted this start for the node. -/
  node : ∀ (key : AstKey) n, a.nodes[key]? = some n → key ≠ script → ast.StartsAt n key.offset
  /-- In the tree, the first leaf that is no trivia starts here, from the place of the key on. -/
  place : ∀ (key : AstKey) place, a.treeNodes[key]? = some place →
    a.tree.firstFrom? place = some key.offset

section

variable {file : FileId} {text : String} {p : Parse} {assembly : Assembly} {root : Nat}
  {parts : ScriptParts} {c : Construct} {first : Token}

/-- Of the tokens that are no trivia, the first one has the least offset. -/
theorem offset_le_of_significant {token : Token}
    (hfirst : (scan text).find? (fun t => !t.isTrivia) = some first) (ht : Significant text token) :
    first.offset ≤ token.offset := by
  obtain ⟨-, before, after, heq, hbefore⟩ := List.find?_eq_some_iff_append.mp hfirst
  have hascending := heq ▸ scan_ascending text
  obtain ⟨hmem, htrivia⟩ := ht
  rw [heq] at hmem
  rcases List.mem_append.mp hmem with hmem | hmem
  · have hfalse := hbefore token hmem
    rw [htrivia] at hfalse
    cases hfalse
  · rcases List.mem_cons.mp hmem with rfl | hmem
    · exact Nat.le_refl _
    · exact (List.rel_of_pairwise_cons (List.pairwise_append.mp hascending).2.1 hmem).le

namespace ParsedText

/-- The token that a construct starts with. -/
theorem startsWith (h : ParsedText file text p assembly)
    (hc : c.In p.ast p.transcript.marker p.transcript.events) : ∃ token, Significant text token ∧
      upcoming (tokensIn (c.body ++ .stop c.marker :: c.after)) text.utf8ByteSize = token ∧
      c.offset? = some token.offset := by
  obtain ⟨token, hsignificant, htoken, hoffset, -⟩ :=
    h.next (hc.split ▸ List.suffix_append c.before _)
  refine ⟨token, hsignificant, htoken, ?_⟩
  rw [← hoffset, Construct.offset?, firstOffset_append, firstOffset_append,
    Transcript.firstOffset_cons]
  rfl

/-- The class of the script starts with the first token of the text. -/
theorem script_startsWith (h : ParsedText file text p assembly)
    (hs : ScriptRecorded p.ast p.transcript.marker p.transcript.events root parts)
    (hc : c.In p.ast p.transcript.marker p.transcript.events) (hmarker : c.marker = parts.marker)
    (hfirst : (scan text).find? (fun t => !t.isTrivia) = some first) :
    c.offset? = some first.offset := by
  -- Nothing stands in front of it.
  obtain ⟨hbefore, -⟩ := split_unique hs.nodup hc.split
    (hs.events_eq.trans (List.nil_append _).symm) rfl (congrArg some hmarker.symm)
  obtain ⟨token, -, htoken, hoffset⟩ := h.startsWith hc
  rw [hoffset, ← htoken]
  have htokens : tokensIn (c.body ++ .stop c.marker :: c.after) = scan text := by
    rw [← h.tokens, hc.split, hbefore, List.nil_append,
      show ∀ events, Event.start c.marker :: events = [.start c.marker] ++ events from fun _ => rfl,
      tokensIn_append [.start c.marker]]
    rfl
  rw [htokens, upcoming, nthSignificant_eq, significant, ← List.head?_eq_getElem?,
    List.head?_filter, hfirst]
  rfl

/-- What a construct other than the class of the script stands for starts with its first token. -/
theorem startsAt (h : ParsedText file text p assembly)
    (hs : ScriptRecorded p.ast p.transcript.marker p.transcript.events root parts)
    (hc : c.In p.ast p.transcript.marker p.transcript.events) (hmarker : c.marker ≠ parts.marker) :
    ∃ o, c.offset? = some o ∧ p.ast.StartsAt c.node o := by
  obtain ⟨token, -, htoken, hoffset⟩ := h.startsWith hc
  have hsuffix : .start c.marker :: (c.body ++ .stop c.marker :: c.after) <:+
      .start parts.marker :: p.transcript.events.tail := by
    have htail : p.transcript.events = .start parts.marker :: p.transcript.events.tail := by
      rw [hs.events_eq]
      rfl
    exact htail ▸ hc.split ▸ List.suffix_append c.before _
  rcases List.suffix_cons_iff.mp hsuffix with heq | htail
  · exact absurd (Event.start.inj (List.cons.inj heq).1) hmarker
  · exact ⟨token.offset, hoffset, htoken ▸ (h.concerns htail).node c.node hc.means.node⟩

/-- A key belongs to a construct, and has its offset. -/
theorem construct_of_key (h : ParsedText file text p assembly) {cs : List (Construct × TreeId)}
    (hcs : assembly.Coherent file p.ast p.transcript.marker p.transcript.events cs) {key : AstKey}
    {n : NodeId} (hkey : assembly.nodes[key]? = some n) : ∃ c : Construct,
      c.In p.ast p.transcript.marker p.transcript.events ∧ c.node = n ∧ c.key file = key ∧
      c.offset? = some key.offset := by
  rw [hcs.node_eq] at hkey
  obtain ⟨x, hfind, rfl⟩ := Option.map_eq_some_iff.mp hkey
  have hin := (hcs.isIn (List.mem_of_find?_eq_some hfind)).1
  obtain ⟨token, -, -, hoffset⟩ := h.startsWith hin
  obtain rfl : x.1.key file = key := by simpa using List.find?_some hfind
  refine ⟨x.1, hin, rfl, rfl, ?_⟩
  rw [Construct.key, hoffset]
  rfl

/-- The place of a key is no leaf, so the leaves from there on are those behind it. -/
theorem firstFrom?_place (h : ParsedText file text p assembly) {cs : List (Construct × TreeId)}
    (hcs : assembly.Coherent file p.ast p.transcript.marker p.transcript.events cs) {key : AstKey}
    {place : TreeId} (hkey : assembly.treeNodes[key]? = some place) :
    assembly.tree.firstFrom? place = assembly.tree.startAfter? place := by
  rw [hcs.place_eq] at hkey
  obtain ⟨x, hfind, rfl⟩ := Option.map_eq_some_iff.mp hkey
  have hkind := hcs.kind x (List.mem_of_find?_eq_some hfind)
  refine h.finished.built.firstFrom?_eq ?_ (SourceTree.isToken_of_kind hkind)
  by_contra hle
  rw [SourceTree.kind, SourceTree.node_of_size_le (Nat.le_of_not_lt hle)] at hkind
  cases hkind

theorem notesFirst (h : ParsedText file text p assembly) :
    p.transcript.NotesFirst p.transcript.events := by
  intro id after hsuffix
  obtain ⟨token, -, -, hoffset, hnoted⟩ := h.next hsuffix
  exact hnoted.trans hoffset.symm

/-- In every text the offsets agree, by what the entries of its constructs tell. -/
theorem offsetsAgree (h : ParsedText file text p assembly)
    (hfirst : (scan text).find? (fun t => !t.isTrivia) = some first) :
    ∃ script, assembly.nodes[script]? = some p.root ∧ script.offset = first.offset ∧
      assembly.OffsetsAgree p.ast script := by
  obtain ⟨parts, hs⟩ := ScriptRecorded.of_parse h.parsed
  obtain ⟨cs, hcs⟩ := hs.coherent h.assembled
  obtain ⟨hplaces, hleast⟩ := Transcript.assemble_meets h.notesFirst h.assembled
  obtain ⟨script, -, hscript⟩ := hcs.key_of_script hs (ascending_of_scan h.tokens)
  obtain ⟨s, hsin, hsnode, hskey, hsoffset⟩ := h.construct_of_key hcs hscript
  have hsmarker := hs.marker_of_root hsin hsnode
  have hoffset : script.offset = first.offset :=
    Option.some.inj (hsoffset.symm.trans (h.script_startsWith hs hsin hsmarker hfirst))
  have hbound : ∀ (key : AstKey) n, assembly.nodes[key]? = some n → script.offset ≤ key.offset := by
    intro key n hkey
    obtain ⟨c, hc, -, -, hco⟩ := h.construct_of_key hcs hkey
    obtain ⟨token, hsignificant, -, htoken⟩ := h.startsWith hc
    rw [hoffset, Option.some.inj (hco.symm.trans htoken)]
    exact offset_le_of_significant hfirst hsignificant
  refine ⟨script, hscript, hoffset, ?_, hbound, fun key => ?_, ?_, ?_⟩
  · obtain ⟨o, ho, hle⟩ := hleast.bound script p.root hscript
    obtain ⟨key, n, hkey, rfl⟩ := hleast.attained o ho
    rw [ho, Nat.le_antisymm hle (hbound key n hkey)]
  · simp only [← Option.isSome_iff_exists, hcs.node_eq, hcs.place_eq, Option.isSome_map]
  · intro key n hkey hne
    obtain ⟨c, hc, rfl, hckey, hco⟩ := h.construct_of_key hcs hkey
    have hmarker : c.marker ≠ parts.marker := by
      intro heq
      obtain rfl := hc.eq_of_marker hsin hs.nodup (heq.trans hsmarker.symm)
      exact hne (hckey.symm.trans hskey)
    obtain ⟨o, ho, hstarts⟩ := h.startsAt hs hc hmarker
    obtain rfl := Option.some.inj (hco.symm.trans ho)
    exact hstarts
  · intro key place hkey
    rw [h.firstFrom?_place hcs hkey, hplaces key place hkey]

end ParsedText

end

/-- In every text the offsets of the keys are those of the nodes that the parser made and of their
    places in the tree.  The class of the script has the offset of the first token that is no
    trivia, which may be the end of the text. -/
theorem Toolchain.parse_offsets_agree (globals : Except GlobalsFault Globals) (file : FileId)
    (text : String) : ∃ p assembly first script,
      ({ globals } : Toolchain).parse file text = .ok (p, assembly) ∧
      (scan text).find? (fun t => !t.isTrivia) = some first ∧
      assembly.nodes[script]? = some p.root ∧ script.offset = first.offset ∧
      assembly.OffsetsAgree p.ast script := by
  obtain ⟨p, assembly, hparse, htext⟩ := parse_finishes globals file text
  obtain ⟨first, hfirst⟩ : ∃ first, (scan text).find? (fun t => !t.isTrivia) = some first := by
    obtain ⟨body, heq, -, -⟩ := scan_eq text
    rw [← Option.isSome_iff_exists, List.find?_isSome, heq]
    exact ⟨_, List.mem_append_right _ (List.mem_singleton_self _), rfl⟩
  obtain ⟨script, hscript, hoffset, hagree⟩ := htext.offsetsAgree hfirst
  exact ⟨p, assembly, first, script, hparse, hfirst, hscript, hoffset, hagree⟩

end ScriptAnalysis
