import Mathlib.Data.List.Nodup
import ScriptAnalysis.Proofs.Grammar.ScriptNodes
import ScriptAnalysis.Proofs.Recording.Marked
import ScriptAnalysis.Proofs.Tree.Keys
import ScriptAnalysis.Proofs.Tree.Replay

/-!
# The entries of a script

While the transcript of a script is replayed, each construct makes its entry when it ends, except
for braces that turned out to be a plain block (`Transcript.Progress`).  So at the end the indexes
hold what the constructs tell, those that end last first.
-/

namespace ScriptAnalysis

namespace ScriptRecorded

variable {ast : Ast} {mk : MarkerId → Marker} {events : List Event} {root : Nat}
  {parts : ScriptParts} {c d : Construct} {m : MarkerId} {n x decl : Nat}

/-! ### The constructs of a script -/

theorem start_cases (h : ScriptRecorded ast mk events root parts) (hm : .start m ∈ events) :
    m = parts.marker ∨ .start m ∈ parts.inside := by
  rw [h.events_eq] at hm
  simpa using hm

theorem construct (h : ScriptRecorded ast mk events root parts) (hm : .start m ∈ events)
    (hn : (mk m).node = some n) : ∃ c : Construct, c.marker = m ∧ c.In ast mk events ∧
      ((c.node = root ∧ c.data = .classDecl parts.decl) ∨ c.Displayed ast mk) := by
  rcases h.start_cases hm with rfl | hm
  · exact ⟨⟨parts.marker, root, .classDecl parts.decl, [], parts.inside, []⟩, rfl,
      ⟨by simp [h.events_eq, Construct.whole], h.recorded.balanced, h.means, h.data_root⟩,
      .inl ⟨rfl, rfl⟩⟩
  · obtain ⟨c, hc, hin, hdisplayed, -⟩ := h.recorded.construct hm hn
    refine ⟨c.widen [.start parts.marker] [.stop parts.marker], hc, ?_, .inr hdisplayed⟩
    rw [h.events_eq]
    exact hin.widen [.start parts.marker] [.stop parts.marker]

theorem construct_of_script (h : ScriptRecorded ast mk events root parts) :
    ∃ c : Construct, c.In ast mk events ∧ c.marker = parts.marker := by
  obtain ⟨c, hmarker, hc, -⟩ := h.construct (by rw [h.events_eq]; simp) h.means.node
  exact ⟨c, hc, hmarker⟩

/-- The markers of variables have nodes. -/
theorem node_of_varDecl (h : ScriptRecorded ast mk events root parts) (hm : .start m ∈ events)
    (hkind : (mk m).kind = some .varDecl) : (mk m).node ≠ none := by
  rcases h.start_cases hm with rfl | hm
  · rw [h.means.node]
    exact Option.some_ne_none _
  · exact h.recorded.node_of_varDecl hm hkind

theorem displayed (h : ScriptRecorded ast mk events root parts) (hc : c.In ast mk events) :
    (c.node = root ∧ c.data = .classDecl parts.decl) ∨ c.Displayed ast mk := by
  obtain ⟨d, hmarker, hd, hdisplayed⟩ := h.construct hc.start_mem hc.means.node
  rwa [hd.eq_of_marker hc h.nodup hmarker] at hdisplayed

/-- What a construct looks like that is no name, no type and not the class of the script. -/
theorem shown (h : ScriptRecorded ast mk events root parts) (hc : c.In ast mk events)
    (hname : c.data.isNameOrType = false)
    (hscript : ∀ decl, c.data = .classDecl decl → decl.isScript = false) :
    c.data.Shown ast mk c.marker c.body := by
  rcases h.displayed hc with ⟨-, hroot⟩ | ⟨hname', -⟩ | hshown
  · have hnot := hscript _ hroot
    rw [h.script.isScript] at hnot
    cases hnot
  · rw [hname] at hname'
    cases hname'
  · exact hshown

/-- Every node of a script belongs to a construct, unless it shares the marker of what is around
    it. -/
theorem construct_of_contains {data : NodeData} (h : ScriptRecorded ast mk events root parts)
    (hn : ast.Contains root n) (hdata : ast.data? n = some data) (hbare : data.isBare = false) :
    ∃ c : Construct, c.In ast mk events ∧ c.node = n ∧ c.data = data ∧
      ((n = root ∧ data = .classDecl parts.decl) ∨ data.Formed ast) := by
  have hmarked : (∃ j, .start j ∈ events ∧ (mk j).node = some n) ∧
      ((n = root ∧ data = .classDecl parts.decl) ∨ data.Formed ast) := by
    have hinside : ∀ k ∈ parts.members, ast.Contains k n →
        (∃ j, .start j ∈ events ∧ (mk j).node = some n) ∧ data.Formed ast := by
      intro k hk hn
      obtain ⟨⟨j, hj, hnode⟩, hformed⟩ := h.recorded.marked hk hn hdata hbare
      exact ⟨⟨j, by rw [h.events_eq]; simp [hj], hnode⟩, hformed⟩
    cases hn with
    | here =>
      obtain rfl := Option.some.inj (h.data_root.symm.trans hdata)
      exact ⟨⟨parts.marker, by rw [h.events_eq]; simp, h.means.node⟩, .inl ⟨rfl, rfl⟩⟩
    | @part _ k _ _ hroot hk hn =>
      obtain rfl := Option.some.inj (h.data_root.symm.trans hroot)
      have hparts : k ∈ parts.decl.imports ++ parts.decl.inner ∨ k = parts.body := by
        simpa [NodeData.parts, h.script.fields, h.script.methods, h.script.body, or_comm,
          or_left_comm] using hk
      rcases hparts with hk | rfl
      · obtain ⟨hmarker, hformed⟩ := hinside _ (h.perm.mem_iff.mpr (List.mem_append_left _ hk)) hn
        exact ⟨hmarker, .inr hformed⟩
      · cases hn with
        | here =>
          obtain rfl := Option.some.inj (h.data_body.symm.trans hdata)
          cases hbare
        | part hbody hk hn =>
          obtain rfl := Option.some.inj (h.data_body.symm.trans hbody)
          obtain ⟨hmarker, hformed⟩ := hinside _ (h.sublist.subset hk) hn
          exact ⟨hmarker, .inr hformed⟩
  obtain ⟨⟨j, hj, hnode⟩, hformed⟩ := hmarked
  obtain ⟨c, rfl, hc, -⟩ := h.construct hj hnode
  obtain rfl := Option.some.inj (hc.means.node.symm.trans hnode)
  exact ⟨c, hc, rfl, Option.some.inj (hc.found.symm.trans hdata), hformed⟩

/-- The class of a script has the greatest id. -/
theorem standsFor_lt (h : ScriptRecorded ast mk events root parts) (hm : .start m ∈ parts.inside)
    (hx : (mk m).StandsFor ast x) : x < root :=
  Nat.lt_of_lt_of_le (h.recorded.standsFor_mem hm hx).2
    (Nat.le_of_lt (Nat.lt_of_le_of_lt h.le_body h.body_lt))

/-- The construct of the root is that of the script. -/
theorem marker_of_root (h : ScriptRecorded ast mk events root parts) (hc : c.In ast mk events)
    (hroot : c.node = root) : c.marker = parts.marker := by
  rcases h.start_cases hc.start_mem with hmarker | hinside
  · exact hmarker
  · exact absurd (h.standsFor_lt hinside (.inl hc.means.node)) (hroot ▸ Nat.lt_irrefl _)

theorem standsFor_root (h : ScriptRecorded ast mk events root parts)
    (hx : (mk parts.marker).StandsFor ast x) : x = root := by
  rcases hx with hx | ⟨n, hn, hdecl⟩
  · exact Option.some.inj (hx.symm.trans h.means.node)
  · obtain rfl := Option.some.inj (hn.symm.trans h.means.node)
    rw [h.data_root] at hdecl
    cases hdecl

/-- No two constructs stand for one node. -/
theorem eq_of_standsFor (h : ScriptRecorded ast mk events root parts) (hc : c.In ast mk events)
    (hd : d.In ast mk events) (hx : (mk c.marker).StandsFor ast x)
    (hx' : (mk d.marker).StandsFor ast x) : c = d := by
  refine hc.eq_of_marker hd h.nodup ?_
  rcases h.start_cases hc.start_mem with hcm | hcm
  · rcases h.start_cases hd.start_mem with hdm | hdm
    · exact hcm.trans hdm.symm
    · obtain rfl := h.standsFor_root (hcm ▸ hx)
      exact absurd (h.standsFor_lt hdm hx') (Nat.lt_irrefl _)
  · rcases h.start_cases hd.start_mem with hdm | hdm
    · obtain rfl := h.standsFor_root (hdm ▸ hx')
      exact absurd (h.standsFor_lt hcm hx) (Nat.lt_irrefl _)
    · exact h.recorded.standsFor_inj hcm hdm hx hx'

theorem eq_of_node (h : ScriptRecorded ast mk events root parts) (hc : c.In ast mk events)
    (hd : d.In ast mk events) (hnode : c.node = d.node) : c = d :=
  h.eq_of_standsFor hc hd (.inl hc.means.node) (.inl (hnode ▸ hd.means.node))

/-- What a statement declares is what the statement requires. -/
theorem formed (h : ScriptRecorded ast mk events root parts) (hc : c.In ast mk events)
    (hdecl : c.data.declared? = some decl) : c.data.Formed ast := by
  have hfound : (ast.data? c.node).bind NodeData.declared? = some decl := by
    rw [hc.found]
    exact hdecl
  rcases h.start_cases hc.start_mem with hcm | hcm
  · have hroot : c.node = root := h.standsFor_root (.inl (hcm ▸ hc.means.node))
    rw [hroot, h.data_root] at hfound
    cases hfound
  · exact (h.recorded.declared hcm hc.means.node hfound).2.2.2 c.data hc.found

theorem isDecl (h : ScriptRecorded ast mk events root parts) (hc : c.In ast mk events)
    (hdecl : c.data.declared? = some decl) : ast.IsDecl decl := by
  refine Recorded.isDecl_of_formed (n := c.node) (fun data hdata => ?_) ?_
  · obtain rfl := Option.some.inj (hc.found.symm.trans hdata)
    exact h.formed hc hdecl
  · rw [hc.found]
    exact hdecl

end ScriptRecorded

/-! ### Entries of constructs -/

namespace Construct

/-- Whether the end of the construct makes an entry. -/
def Keyed (c : Construct) : Prop := ∀ params body, c.data ≠ .closure params body true

def key (file : FileId) (c : Construct) : AstKey :=
  ⟨file, (NodeKind.of? c.data).getD .group, c.offset?.getD 0⟩

def entry (file : FileId) (mk : MarkerId → Marker) (c : Construct) (place : TreeId) :
    Assembly.Entry where
  key := c.key file
  node := c.node
  place := place
  alias? := Assembly.alias? (c.key file) (Assembly.nameKey? file mk (mk c.marker)) c.node c.data
  nameKey? := Assembly.nameKey? file mk (mk c.marker)

variable {ast : Ast} {mk : MarkerId → Marker} {events : List Event} {c : Construct} {file : FileId}
  {place : TreeId} {x : NodeId}

/-- The alias of a construct belongs to its declaration or to itself. -/
theorem alias_cases {key : AstKey} (h : (c.entry file mk place).alias? = some (x, key)) :
    (c.data.declared? = some x) ∨ (x = c.node ∧ Assembly.nameKey? file mk (mk c.marker) = some key ∧
      ∃ decl, c.data = .classDecl decl ∧ decl.isScript = false) := by
  unfold entry at h
  dsimp only at h
  cases hdata : c.data with
  | varDecl decl =>
    rw [hdata] at h
    exact .inl (congrArg some (Prod.mk.inj (Option.some.inj h)).1)
  | funDecl decl =>
    rw [hdata] at h
    obtain ⟨name, -, hpair⟩ := Option.map_eq_some_iff.mp h
    exact .inl (congrArg some (Prod.mk.inj hpair).1)
  | classDecl decl =>
    rw [hdata] at h
    unfold Assembly.alias? at h
    dsimp only at h
    cases hscript : decl.isScript with
    | true =>
      rw [hscript] at h
      cases h
    | false =>
      rw [hscript] at h
      obtain ⟨name, hname, hpair⟩ := Option.map_eq_some_iff.mp h
      obtain ⟨rfl, rfl⟩ := Prod.mk.inj hpair
      exact .inr ⟨rfl, hname, decl, rfl, hscript⟩
  | _ =>
    rw [hdata] at h
    cases h

theorem In.standsFor (hc : c.In ast mk events) (h : (c.entry file mk place).Owns x) :
    (mk c.marker).StandsFor ast x := by
  rcases h with rfl | ⟨key, halias⟩
  · exact .inl hc.means.node
  · rcases alias_cases halias with hdecl | ⟨rfl, -⟩
    · refine .inr ⟨c.node, hc.means.node, ?_⟩
      rw [hc.found]
      exact hdecl
    · exact .inl hc.means.node

theorem In.hasTreeNode_iff (hc : c.In ast mk events) :
    (mk c.marker).hasTreeNode ast = true ↔ c.Keyed := by
  have hdone : (mk c.marker).isDone = true := by simp [Marker.isDone, hc.means.state]
  unfold Marker.hasTreeNode Marker.isPlainBlock Keyed
  rw [hdone, hc.means.node, Option.bind_some, hc.found, Bool.true_and]
  cases c.data with
  | closure params body isBlock => cases isBlock <;> simp
  | _ => simp

theorem In.kind_eq (file : FileId) (hc : c.In ast mk events) :
    (mk c.marker).kind = some (c.key file).kind := by
  obtain ⟨kind, hkind⟩ := Option.ne_none_iff_exists'.mp hc.means.known
  rw [hc.means.kind]
  simp [key, hkind]

/-- The end of a construct makes its entry. -/
theorem In.enters {offset : Nat} (hc : c.In ast mk events) (a : Assembly) (file : FileId)
    (place : TreeId) (h : c.offset? = some offset) : (c.entry file mk place).Enters a
      (a.index file mk ast (mk c.marker) place offset) := by
  have hkey : c.key file = ⟨file, (c.key file).kind, offset⟩ := by simp [key, h]
  have hnoop : c.data ≠ .noop := by
    intro hnoop
    exact hc.means.known (by rw [hnoop]; rfl)
  unfold entry
  rw [hkey]
  exact Assembly.index_enters (hc.kind_eq file) hc.means.node hc.found hnoop

end Construct

/-! ### Names -/

/-- The name that a declaration leads to is the only thing in a construct of its own. -/
structure Construct.IsNameOf (file : FileId) (ast : Ast) (mk : MarkerId → Marker)
    (events : List Event) (c d : Construct) (name : String) (kind : NameKind) : Prop where
  isIn : d.In ast mk events
  inside : ∃ p q, d.Inside c p q
  marker : (mk c.marker).nameMarker = some d.marker
  data : d.data = .name name kind
  key : Assembly.nameKey? file mk (mk c.marker) = some (d.key file)

theorem Construct.IsNameOf.data_eq {file : FileId} {ast : Ast} {mk : MarkerId → Marker}
    {events : List Event} {c d : Construct} {name : String} {kind : NameKind}
    (h : c.IsNameOf file ast mk events d name kind) :
    ast.data? d.node = some (.name name kind) := by
  rw [h.isIn.found, h.data]

theorem Assembly.nameKey?_of_none {file : FileId} {mk : MarkerId → Marker} {m : Marker}
    (h : m.nameMarker = none) : nameKey? file mk m = none := by
  unfold nameKey?
  rw [h]
  rfl

/-- A declaration leads to its name, unless it goes without one. -/
theorem Construct.In.name {ast : Ast} {mk : MarkerId → Marker} {events : List Event} {c : Construct}
    {name : String} {kind : NameKind} (file : FileId) (hc : c.In ast mk events)
    (hnames : Names ast mk c.marker c.body name kind) :
    ((mk c.marker).nameMarker = none ∧ name = "") ∨
      ∃ d, c.IsNameOf file ast mk events d name kind := by
  cases hmarker : (mk c.marker).nameMarker with
  | none => exact .inl ⟨rfl, hnames.nameless hmarker⟩
  | some j =>
    obtain ⟨before, ts, after, leaf, hbody, hoffset, hdata, hmeans⟩ := hnames.found j hmarker
    obtain ⟨o, ho⟩ := Option.ne_none_iff_exists'.mp hoffset
    let d : Construct := ⟨j, leaf, .name name kind, c.before ++ .start c.marker :: before,
      ts.map .token, after ++ .stop c.marker :: c.after⟩
    have hinside : d.Inside c before after := ⟨hbody, rfl, rfl⟩
    have hd : d.In ast mk events := by
      refine ⟨?_, .tokens ts, hmeans, hdata⟩
      rw [hc.split, hbody]
      simp [d, Construct.whole, leafEvents]
    have hkey : d.offset? = some o := Construct.offset?_of_body ho
    refine .inr ⟨d, hd, ⟨before, after, hinside⟩, hmarker, rfl, ?_⟩
    have hjkind : (mk j).kind = some (d.key file).kind := hd.kind_eq file
    have hjoffset : (mk j).offset = some (d.key file).offset := by
      rw [hmeans.offset, ho]
      simp [Construct.key, hkey]
    unfold Assembly.nameKey?
    simp only [hmarker, hjkind, hjoffset, bind, Option.bind, pure]
    rfl

namespace ScriptRecorded

variable {ast : Ast} {mk : MarkerId → Marker} {events : List Event} {root : Nat}
  {parts : ScriptParts} {c d : Construct} {file : FileId} {place : TreeId}

/-- The statement around a function declares one. -/
theorem function_of_statement {decl : NodeId} (h : ScriptRecorded ast mk events root parts)
    (hc : c.In ast mk events) (hdata : c.data = .funDecl decl) :
    ∃ f, ast.data? decl = some (.funDeclExpr f) := by
  have hdecl : c.data.declared? = some decl := by
    rw [hdata]
    rfl
  have hformed := h.formed hc hdecl
  rwa [hdata] at hformed

/-- A function leads to its name, at the offset that its declaration tells. -/
theorem name_of_function {decl : NodeId} {f : FunDecl} (h : ScriptRecorded ast mk events root parts)
    (hc : c.In ast mk events) (hdata : c.data = .funDecl decl)
    (hf : ast.data? decl = some (.funDeclExpr f)) (file : FileId) :
    ∃ d, c.IsNameOf file ast mk events d f.name f.nameKind ∧
      (d.key file).offset = f.nameOffset := by
  have hshown := h.shown hc (by rw [hdata]; rfl) (by simp [hdata])
  rw [hdata] at hshown
  have hnames := hshown.2 f hf
  obtain ⟨j, hmarker, hoffset⟩ := hnames.named
  rcases hc.name file hnames.toNames with ⟨hnone, -⟩ | ⟨d, hd⟩
  · rw [hnone] at hmarker
    cases hmarker
  · obtain rfl := Option.some.inj (hd.marker.symm.trans hmarker)
    rw [hd.isIn.means.offset] at hoffset
    refine ⟨d, hd, ?_⟩
    unfold Construct.key
    rw [Construct.offset?_of_body hoffset, Option.getD_some]

/-- A class that is not that of the script shows that it leads to its name, if it has one. -/
theorem class_shown {decl : ClassDecl} (h : ScriptRecorded ast mk events root parts)
    (hc : c.In ast mk events) (hdata : c.data = .classDecl decl) (hscript : decl.isScript = false) :
    Names ast mk c.marker c.body decl.name .ofClass ∧
      (decl.name = "" → (mk c.marker).nameMarker = none) := by
  have hshown := h.shown hc (by rw [hdata]; rfl) fun decl' hdecl' => by
    obtain rfl := NodeData.classDecl.inj (hdata.symm.trans hdecl')
    exact hscript
  rw [hdata] at hshown
  exact hshown.2

/-- A class with a name leads to it. -/
theorem name_of_class {decl : ClassDecl} (h : ScriptRecorded ast mk events root parts)
    (hc : c.In ast mk events) (hdata : c.data = .classDecl decl) (hscript : decl.isScript = false)
    (hname : decl.name ≠ "") (file : FileId) :
    ∃ d, c.IsNameOf file ast mk events d decl.name .ofClass :=
  (hc.name file (h.class_shown hc hdata hscript).1).resolve_left fun hnone => hname hnone.2

theorem balanced_events (h : ScriptRecorded ast mk events root parts) : Balanced events :=
  h.events_eq ▸ h.recorded.balanced.wrap parts.marker

theorem nodup_stopped (h : ScriptRecorded ast mk events root parts) :
    (events.filterMap Event.stopped?).Nodup := by
  have hperm := started_perm_stopped (h.balanced_events [])
  rw [List.append_nil, List.append_nil] at hperm
  exact hperm.nodup_iff.mp h.nodup

/-- The class of a script ends at the end. -/
theorem stop_of_script (h : ScriptRecorded ast mk events root parts) (hc : c.In ast mk events)
    (hmarker : c.marker = parts.marker) : c.stop = events.length := by
  rw [hc.stop_eq h.nodup_stopped (p := .start parts.marker :: parts.inside) (q := []), h.events_eq]
  · simp
  · rw [h.events_eq, hmarker]

/-- The names of classes have keys of their own. -/
theorem alias_ne_key (h : ScriptRecorded ast mk events root parts) (hc : c.In ast mk events) :
    (c.entry file mk place).alias? ≠ some (c.node, c.key file) := by
  intro halias
  rcases Construct.alias_cases halias with hdecl | ⟨-, hname, decl, hdata, hscript⟩
  · have hnone := (h.isDecl hc hdecl).declared?
    rw [hc.found, Option.bind_some, hdecl] at hnone
    cases hnone
  · rcases hc.name file (h.class_shown hc hdata hscript).1 with ⟨hnone, -⟩ | ⟨d, hd⟩
    · rw [Assembly.nameKey?_of_none hnone] at hname
      cases hname
    · have hkey : c.key file = d.key file := Option.some.inj (hname.symm.trans hd.key)
      have hkinds := congrArg AstKey.kind hkey
      simp only [Construct.key, hdata, hd.data, NodeKind.of?, Option.getD_some] at hkinds
      cases hkinds

theorem separate (h : ScriptRecorded ast mk events root parts) {cs : List (Construct × TreeId)}
    (hcs : ∀ x ∈ cs, x.1.In ast mk events) (hnodup : (cs.map Prod.fst).Nodup) :
    Assembly.Separate (cs.map fun x => x.1.entry file mk x.2) := by
  constructor
  · intro e he e' he' n hn hn'
    obtain ⟨x, hx, rfl⟩ := List.mem_map.mp he
    obtain ⟨y, hy, rfl⟩ := List.mem_map.mp he'
    have heq := h.eq_of_standsFor (hcs x hx) (hcs y hy) ((hcs x hx).standsFor hn)
      ((hcs y hy).standsFor hn')
    rw [List.inj_on_of_nodup_map hnodup hx hy heq]
  · intro e he
    obtain ⟨x, hx, rfl⟩ := List.mem_map.mp he
    exact h.alias_ne_key (hcs x hx)

end ScriptRecorded

/-! ### The replay of a script -/

theorem SourceTree.isToken_of_kind {t : SourceTree} {id : TreeId} {kind : NodeKind}
    (h : t.kind id = .node kind) : (t.node id).isToken = false := by
  unfold TreeNode.isToken
  rw [show (t.node id).kind = .node kind from h]

/-- What a frame knows of its marker. -/
structure Frame.Knows (t : Transcript) (ast : Ast) (tree : SourceTree) (frame : Frame) : Prop where
  hasNode : (t.marker frame.marker).hasTreeNode ast = frame.node.isSome
  offset : frame.node ≠ none → ∃ before after, t.events = before ++ .start frame.marker :: after ∧
    (t.marker frame.marker).offset.or (firstOffset after) = some frame.offset
  kind : ∀ id, frame.node = some id →
    tree.kind id = .node ((t.marker frame.marker).kind.getD .group)

namespace Transcript

/-- After some events, as many as `i`, the constructs that ended among them have made their entries.
    Their places in the tree are closed. -/
structure Progress (t : Transcript) (file : FileId) (ast : Ast) (i : Nat) (a : Assembly)
    (frames : List Frame) (cs : List (Construct × TreeId)) : Prop where
  indexed : Assembly.Indexed (cs.map fun x => x.1.entry file t.marker x.2) a
  mem_iff : ∀ c, (∃ place, (c, place) ∈ cs) ↔
    c.In ast t.marker t.events ∧ c.Keyed ∧ c.stop ≤ i
  descending : cs.Pairwise fun x y => y.1.stop < x.1.stop
  places : (cs.map Prod.snd).Nodup
  offset : ∀ x ∈ cs, x.1.offset? ≠ none
  placed : ∀ x ∈ cs, x.2 < a.tree.size ∧ x.2 ∉ openNodes frames ∧
    a.tree.kind x.2 = .node (x.1.key file).kind
  built : a.tree.Built (openNodes frames)
  knows : ∀ frame ∈ frames, frame.Knows t ast a.tree

variable {t : Transcript} {file : FileId} {ast : Ast} {root : Nat} {parts : ScriptParts}
  {done later events : List Event} {e : Event} {a a' b : Assembly} {frames frames' : List Frame}
  {cs : List (Construct × TreeId)}

theorem Progress.empty : Progress t file ast 0 {} [] [] where
  indexed := .empty
  mem_iff c := by
    refine iff_of_false (by simp) ?_
    rintro ⟨-, -, hstop⟩
    exact Nat.not_lt_zero _ (Nat.lt_of_lt_of_le c.start_lt_stop hstop)
  descending := .nil
  places := .nil
  offset := by simp
  placed := by simp
  built := .empty
  knows := by simp

namespace Progress

variable {i : Nat}

theorem isIn (h : t.Progress file ast i a frames cs) {x : Construct × TreeId} (hx : x ∈ cs) :
    x.1.In ast t.marker t.events ∧ x.1.Keyed ∧ x.1.stop ≤ i :=
  (h.mem_iff x.1).mp ⟨x.2, hx⟩

theorem nodup (h : t.Progress file ast i a frames cs) : (cs.map Prod.fst).Nodup := by
  rw [List.Nodup, List.pairwise_map]
  refine h.descending.imp fun hlt heq => ?_
  rw [heq] at hlt
  exact Nat.lt_irrefl _ hlt

/-- What is in the tree stays there. -/
theorem kept {tokens : List Token} (h : t.Progress file ast i a frames cs)
    (hchange : a.tree.Change (openNodes frames) tokens a'.tree (openNodes frames')) :
    (∀ x ∈ cs, x.2 < a'.tree.size ∧ x.2 ∉ openNodes frames' ∧
      a'.tree.kind x.2 = .node (x.1.key file).kind) ∧
    ∀ frame ∈ frames, frame.Knows t ast a'.tree := by
  constructor
  · intro x hx
    obtain ⟨hlt, hnot, hkind⟩ := h.placed x hx
    refine ⟨Nat.lt_of_lt_of_le hlt hchange.size_le, hchange.not_mem hlt hnot, ?_⟩
    rw [hchange.kind_eq h.built hlt (SourceTree.isToken_of_kind hkind), hkind]
  · intro frame hframe
    have hknows := h.knows frame hframe
    refine ⟨hknows.hasNode, hknows.offset, fun id hid => ?_⟩
    have hopen : id ∈ openNodes frames :=
      List.mem_append_left _ (List.mem_filterMap.mpr ⟨frame, hframe, hid⟩)
    rw [hchange.kind_eq h.built (h.built.lt_size hopen) (h.built.inner id hopen),
      hknows.kind id hid]

/-- A step at which no construct ends makes no entry. -/
theorem skip (h : t.Progress file ast i a frames cs)
    (hchange : a.tree.Change (openNodes frames) (tokensIn [e]) a'.tree (openNodes frames'))
    (hsame : a.SameKeys a') (hknows : ∀ frame ∈ frames', frame.Knows t ast a'.tree)
    (hnone : ∀ c : Construct, c.In ast t.marker t.events → c.Keyed → c.stop ≠ i + 1) :
    t.Progress file ast (i + 1) a' frames' cs where
  indexed := h.indexed.congr hsame
  mem_iff c := by
    rw [h.mem_iff]
    refine and_congr_right fun hin => and_congr_right fun hkeyed => ?_
    have := hnone c hin hkeyed
    omega
  descending := h.descending
  places := h.places
  offset := h.offset
  placed := (h.kept hchange).1
  built := hchange.built h.built
  knows := hknows

/-- At the end of a construct its entry is made. -/
theorem enter {c : Construct} {place : TreeId} (h : t.Progress file ast i a frames cs)
    (hs : ScriptRecorded ast t.marker t.events root parts)
    (hchange : a.tree.Change (openNodes frames) (tokensIn [e]) a'.tree (openNodes frames'))
    (henters : (c.entry file t.marker place).Enters a a')
    (hknows : ∀ frame ∈ frames', frame.Knows t ast a'.tree)
    (hin : c.In ast t.marker t.events) (hkeyed : c.Keyed) (hstop : c.stop = i + 1)
    (hoffset : c.offset? ≠ none) (hopen : place ∈ openNodes frames)
    (hclosed : place ∉ openNodes frames') (hkind : a.tree.kind place = .node (c.key file).kind) :
    t.Progress file ast (i + 1) a' frames' ((c, place) :: cs) := by
  have hlater : ∀ x ∈ cs, x.1.stop < c.stop := by
    intro x hx
    have := (h.isIn hx).2.2
    omega
  have hdescending : ((c, place) :: cs).Pairwise fun x y => y.1.stop < x.1.stop :=
    List.pairwise_cons.mpr ⟨hlater, h.descending⟩
  have hnew : c ∉ cs.map Prod.fst := by
    intro hmem
    obtain ⟨x, hx, rfl⟩ := List.mem_map.mp hmem
    exact Nat.lt_irrefl _ (hlater x hx)
  have hplace : place ∉ cs.map Prod.snd := by
    intro hmem
    obtain ⟨x, hx, rfl⟩ := List.mem_map.mp hmem
    exact (h.placed x hx).2.1 hopen
  refine ⟨?_, fun d => ?_, hdescending, List.nodup_cons.mpr ⟨hplace, h.places⟩, ?_, ?_,
    hchange.built h.built, hknows⟩
  · have hins : ∀ x ∈ (c, place) :: cs, x.1.In ast t.marker t.events :=
      List.forall_mem_cons.mpr ⟨hin, fun x hx => (h.isIn hx).1⟩
    refine h.indexed.enter henters (hs.separate hins (List.nodup_cons.mpr ⟨hnew, h.nodup⟩)) ?_
    · intro hmem
      obtain ⟨x, hx, heq⟩ := List.mem_map.mp hmem
      have hnode : x.1.node = c.node := congrArg Assembly.Entry.node heq
      exact hnew (List.mem_map.mpr ⟨x, hx, hs.eq_of_node (h.isIn hx).1 hin hnode⟩)
  · constructor
    · rintro ⟨q, hq⟩
      rcases List.mem_cons.mp hq with hq | hq
      · obtain ⟨rfl, -⟩ := Prod.mk.inj hq
        exact ⟨hin, hkeyed, Nat.le_of_eq hstop⟩
      · obtain ⟨hd, hdkeyed, hle⟩ := h.isIn hq
        exact ⟨hd, hdkeyed, Nat.le_succ_of_le hle⟩
    · rintro ⟨hd, hdkeyed, hle⟩
      by_cases heq : d.stop = i + 1
      · have hmarker : d = c := by
          have hdstop := hd.getElem?_stop
          have hcstop := hin.getElem?_stop
          rw [heq] at hdstop
          rw [hstop, hdstop] at hcstop
          exact hd.eq_of_marker hin hs.nodup (Event.stop.inj (Option.some.inj hcstop))
        exact ⟨place, hmarker ▸ List.mem_cons_self ..⟩
      · obtain ⟨q, hq⟩ := (h.mem_iff d).mpr ⟨hd, hdkeyed, by omega⟩
        exact ⟨q, List.mem_cons_of_mem _ hq⟩
  · exact List.forall_mem_cons.mpr ⟨hoffset, h.offset⟩
  · refine List.forall_mem_cons.mpr ⟨?_, (h.kept hchange).1⟩
    have hlt := h.built.lt_size hopen
    refine ⟨Nat.lt_of_lt_of_le hlt hchange.size_le, hclosed, ?_⟩
    rw [hchange.kind_eq h.built hlt (SourceTree.isToken_of_kind hkind), hkind]

end Progress

theorem getElem?_done (hevents : t.events = done ++ e :: later) :
    t.events[done.length]? = some e := by
  rw [hevents, List.getElem?_append_right (Nat.le_refl _)]
  simp

/-- Where a construct ends, its marker does. -/
theorem stop_of_event {c : Construct} (hevents : t.events = done ++ e :: later)
    (hin : c.In ast t.marker t.events) (hstop : c.stop = done.length + 1) : e = .stop c.marker := by
  have hend := hin.getElem?_stop
  rw [hstop, Nat.add_sub_cancel, getElem?_done hevents] at hend
  exact Option.some.inj hend

/-- The offset that a frame knows is that of the construct of its marker. -/
theorem offset_of_knows {c : Construct} {frame : Frame} {tree : SourceTree}
    (hs : ScriptRecorded ast t.marker t.events root parts) (hin : c.In ast t.marker t.events)
    (hmarker : frame.marker = c.marker) (hknows : frame.Knows t ast tree)
    (hnode : frame.node ≠ none) : c.offset? = some frame.offset := by
  obtain ⟨before, after, hevents, hoffset⟩ := hknows.offset hnode
  rw [hmarker] at hevents hoffset
  obtain ⟨-, rfl⟩ := split_unique hs.nodup hevents hin.split rfl rfl
  rw [hin.means.offset, firstOffset_append] at hoffset
  unfold Construct.offset?
  rw [firstOffset_append, ← hoffset]
  cases firstOffset c.body <;> rfl

/-- What a step does to the entries.  A new one is that of the innermost marker that was entered. -/
theorem Step.progress (hs : ScriptRecorded ast t.marker t.events root parts)
    (hstep : t.Step file ast later e a frames a' frames') (hevents : t.events = done ++ e :: later)
    (h : t.Progress file ast done.length a frames cs) :
    ∃ cs', t.Progress file ast (done.length + 1) a' frames' cs' ∧ ∀ x ∈ cs', x ∈ cs ∨
      ∃ frame ∈ frames.head?, frame.marker = x.1.marker ∧ frame.node = some x.2 := by
  have hchange := hstep.change
  have hkept := (h.kept hchange).2
  -- A construct only ends where its marker does.
  have hother : (∀ m, e ≠ .stop m) → ∀ c : Construct, c.In ast t.marker t.events → c.Keyed →
      c.stop ≠ done.length + 1 := fun he c hin _ hstop => he _ (stop_of_event hevents hin hstop)
  cases hstep with
  | token u =>
    exact ⟨cs, h.skip hchange (Assembly.sameKeys_pushLeaf _ _ _) hkept (hother (by simp)),
      fun _ hx => .inl hx⟩
  | @enter _ _ m offset hnode hoffset =>
    refine ⟨cs, h.skip hchange ⟨rfl, rfl, rfl, rfl⟩ ?_ (hother (by simp)), fun _ hx => .inl hx⟩
    refine List.forall_mem_cons.mpr ⟨⟨hnode, fun _ => ⟨done, later, hevents, hoffset⟩, ?_⟩, hkept⟩
    intro id hid
    obtain rfl := Option.some.inj hid
    obtain ⟨above, hpath⟩ := openNodes_eq frames
    have hparent : currentParent frames < a.tree.size := h.built.lt_size (by rw [hpath]; simp)
    unfold SourceTree.kind
    dsimp only
    rw [SourceTree.node_push _ _ hparent, if_pos rfl]
  | @pass _ _ m hnode =>
    refine ⟨cs, h.skip hchange ⟨rfl, rfl, rfl, rfl⟩ ?_ (hother (by simp)), fun _ hx => .inl hx⟩
    exact List.forall_mem_cons.mpr ⟨⟨hnode, fun hsome => absurd rfl hsome, by simp⟩, hkept⟩
  | @drop _ frame outer hnone =>
    refine ⟨cs, h.skip hchange (.refl _) (List.forall_mem_cons.mp hkept).2 ?_, fun _ hx => .inl hx⟩
    intro c hin hkeyed hstop
    have hmarker := Event.stop.inj (stop_of_event hevents hin hstop)
    have hnode := (h.knows frame (List.mem_cons_self ..)).hasNode
    rw [hmarker, hin.hasTreeNode_iff.mpr hkeyed, hnone] at hnode
    cases hnode
  | @leave _ frame outer place hplace =>
    have hknows := h.knows frame (List.mem_cons_self ..)
    have hclosed := a.sameKeys_closeNode place
    have houter := (List.forall_mem_cons.mp hkept).2
    cases hnode : (t.marker frame.marker).node with
    | none =>
      rw [Assembly.index_of_node_none hnode] at hchange houter ⊢
      refine ⟨cs, h.skip hchange hclosed houter fun c hin _ hstop => ?_, fun _ hx => .inl hx⟩
      have hmarker := Event.stop.inj (stop_of_event hevents hin hstop)
      rw [hmarker, hin.means.node] at hnode
      cases hnode
    | some n =>
      have hstart : .start frame.marker ∈ t.events := by
        obtain ⟨before, after, heq, -⟩ := hknows.offset (by simp [hplace])
        rw [heq]
        simp
      obtain ⟨c, hmarker, hin, -⟩ := hs.construct hstart hnode
      have hkeyed : c.Keyed := by
        rw [← hin.hasTreeNode_iff, hmarker, hknows.hasNode, hplace]
        rfl
      have hstop : c.stop = done.length + 1 := hin.stop_eq hs.nodup_stopped (hmarker ▸ hevents)
      have hoffset := offset_of_knows hs hin hmarker.symm hknows (by simp [hplace])
      have hpath : openNodes (frame :: frames') = place :: openNodes frames' :=
        openNodes_some hplace frames'
      have hpairwise := h.built.laid.pairwise
      rw [hpath] at hpairwise
      refine ⟨(c, place) :: cs, h.enter hs hchange ?_ houter hin hkeyed hstop (by simp [hoffset])
        (by rw [hpath]; simp) ?_ ?_, fun x hx => ?_⟩
      · have henters := hin.enters (a.closeNode place) file place hoffset
        rw [hmarker] at henters
        exact henters.congr hclosed
      · exact fun hmem => Nat.lt_irrefl _ (List.rel_of_pairwise_cons hpairwise hmem)
      · rw [hknows.kind place hplace, ← hmarker, hin.kind_eq file]
        rfl
      · rcases List.mem_cons.mp hx with rfl | hx
        · exact .inr ⟨frame, rfl, hmarker.symm, hplace⟩
        · exact .inl hx

/-- By induction on the steps. -/
theorem Replays.progress (hs : ScriptRecorded ast t.marker t.events root parts)
    (hrun : t.Replays file ast later events a frames a' frames')
    (hevents : t.events = done ++ (events ++ later))
    (h : t.Progress file ast done.length a frames cs) :
    ∃ cs', t.Progress file ast (done.length + events.length) a' frames' cs' := by
  induction hrun generalizing done cs with
  | nil => exact ⟨cs, h⟩
  | @cons e events a b c fa fb fc hstep _ ih =>
    obtain ⟨cs₁, h₁, -⟩ := hstep.progress hs hevents h
    have hdone : done.length + 1 = (done ++ [e]).length := by simp
    rw [hdone] at h₁
    obtain ⟨cs₂, h₂⟩ := ih (by rw [hevents]; simp) h₁
    rw [← hdone, Nat.add_assoc, Nat.add_comm 1] at h₂
    exact ⟨cs₂, h₂⟩

end Transcript

/-- The indexes of a script hold the entries of its constructs, those that end last first. -/
structure Assembly.Coherent (a : Assembly) (file : FileId) (ast : Ast) (mk : MarkerId → Marker)
    (events : List Event) (cs : List (Construct × TreeId)) : Prop where
  indexed : Indexed (cs.map fun x => x.1.entry file mk x.2) a
  mem_iff : ∀ c, (∃ place, (c, place) ∈ cs) ↔ c.In ast mk events ∧ c.Keyed
  descending : cs.Pairwise fun x y => y.1.stop < x.1.stop
  places : (cs.map Prod.snd).Nodup
  offset : ∀ x ∈ cs, x.1.offset? ≠ none
  kind : ∀ x ∈ cs, a.tree.kind x.2 = .node (x.1.key file).kind

/-- At the end of the replay. -/
theorem Transcript.Progress.coherent {t : Transcript} {file : FileId} {ast : Ast} {a : Assembly}
    {cs : List (Construct × TreeId)} (h : t.Progress file ast t.events.length a [] cs) :
    (a.closeNode SourceTree.root).Coherent file ast t.marker t.events cs := by
  refine ⟨h.indexed.congr (a.sameKeys_closeNode _), fun c => ?_, h.descending, h.places,
    h.offset, fun x hx => ?_⟩
  · rw [h.mem_iff]
    exact and_congr_right fun hin => and_iff_left_of_imp fun _ => hin.stop_le
  · obtain ⟨-, hnot, hkind⟩ := h.placed x hx
    have hroot : SourceTree.root < a.tree.size := h.built.lt_size (by simp [openNodes])
    have hne : SourceTree.root ≠ x.2 := by
      rintro heq
      exact hnot (by simp [openNodes, ← heq])
    unfold SourceTree.kind at hkind ⊢
    rw [Assembly.closeNode_node a hroot hne, hkind]

/-- By the run of the whole replay. -/
theorem ScriptRecorded.coherent {t : Transcript} {ast : Ast} {root : Nat} {parts : ScriptParts}
    {file : FileId} {r : Assembly} (h : ScriptRecorded ast t.marker t.events root parts)
    (hr : t.assemble file ast = .ok r) : ∃ cs, r.Coherent file ast t.marker t.events cs := by
  obtain ⟨a, hrun, rfl⟩ := Transcript.assemble_ok.mp hr
  have hall : t.events = [] ++ (t.events ++ []) := by simp
  obtain ⟨cs, hcs⟩ := hrun.progress h hall .empty
  rw [List.length_nil, Nat.zero_add] at hcs
  exact ⟨cs, hcs.coherent⟩

end ScriptAnalysis
