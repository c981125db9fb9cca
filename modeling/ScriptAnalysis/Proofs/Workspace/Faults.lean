import ScriptAnalysis.Proofs.Scope.Reports
import ScriptAnalysis.Proofs.Tree.Anchors
import ScriptAnalysis.Proofs.Tree.Spans
import ScriptAnalysis.Workspace.Toolchain

/-!
# Where faults are shown

Of the nodes that start with a token, those with children pass the faults of the token on to the
first of their children that is no trivia, and so the leaf of the token shows them.  A construct
that is missing in the text has no children to pass them on to: it shows the faults of the token
behind it as well.
-/

namespace ScriptAnalysis

namespace SourceTree

variable {t : SourceTree} {n c : TreeId}

/-- The leaf of a token that is no trivia. -/
def IsTokenLeaf (t : SourceTree) (leaf : TreeId) : Prop :=
  leaf < t.size ∧ (t.node leaf).isToken = true ∧ (t.kind leaf).isTrivia = false

theorem isTrivia_of_inner (h : (t.node n).isToken = false) : (t.kind n).isTrivia = false := by
  unfold TreeNode.isToken at h
  unfold kind
  split at h
  · cases h
  · next hkind =>
    cases hn : (t.node n).kind with
    | token k => exact absurd hn (hkind k)
    | root => rfl
    | node k => rfl

theorem firstSignificantChild?_eq_some (h : t.firstSignificantChild? n = some c) :
    c ∈ t.children n ∧ (t.kind c).isTrivia = false :=
  ⟨Array.mem_of_find?_eq_some h, by simpa using Array.find?_some h⟩

theorem firstSignificantChild?_of_childless (h : t.children n = #[]) :
    t.firstSignificantChild? n = Option.none := by
  unfold firstSignificantChild?
  rw [h]
  rfl

theorem firstTokenBelow_of_childless (h : t.children n = #[]) (depth : Nat) :
    t.firstTokenBelow depth n = n := by
  cases depth with
  | zero => rfl
  | succ depth =>
    unfold firstTokenBelow
    rw [firstSignificantChild?_of_childless h]

theorem significantStart_of_childless (h : t.children n = #[]) :
    t.significantStart n = (t.node n).span.start := by
  unfold significantStart
  rw [firstTokenBelow_of_childless h]

namespace Finished

/-- Children come after their parents. -/
theorem lt_of_child (hf : t.Finished) (hc : c ∈ t.children n) : n < c := by
  have hn : n < t.size := by
    by_contra hle
    rw [children_of_size_le (Nat.le_of_not_lt hle)] at hc
    simp at hc
  obtain ⟨e, -, hruns⟩ := hf.built.single hn
  cases hruns with
  | cons hchildren _ => exact hchildren.ge c (Array.mem_toList_iff.mpr hc)

/-- From a node on there are no more levels than nodes. -/
theorem firstTokenBelow_succ (hf : t.Finished) {depth : Nat} (hdepth : t.size ≤ n + depth) :
    t.firstTokenBelow (depth + 1) n = t.firstTokenBelow depth n := by
  induction depth generalizing n with
  | zero =>
    have hnone : t.children n = #[] := children_of_size_le hdepth
    rw [firstTokenBelow_of_childless hnone, firstTokenBelow_of_childless hnone]
  | succ depth ih =>
    rw [firstTokenBelow, firstTokenBelow]
    split
    · next child hchild =>
      have hlt := hf.lt_of_child (firstSignificantChild?_eq_some hchild).1
      exact ih (Nat.le_trans hdepth (Nat.le_trans (Nat.le_of_eq (Nat.add_right_comm n depth 1))
        (Nat.add_le_add_right hlt depth)))
    · rfl

/-- A node starts where its first child does that is no trivia. -/
theorem significantStart_child (hf : t.Finished) (h : t.firstSignificantChild? n = some c) :
    t.significantStart c = t.significantStart n := by
  obtain ⟨depth, hdepth⟩ : ∃ depth, t.size = depth + 1 :=
    Nat.exists_eq_succ_of_ne_zero (Nat.ne_of_gt (hf.built.lt_size (List.mem_singleton_self root)))
  have hlt := hf.lt_of_child (firstSignificantChild?_eq_some h).1
  have hle : t.size ≤ c + depth := by
    rw [hdepth, Nat.add_comm]
    exact Nat.add_le_add_right (Nat.succ_le_of_lt (Nat.zero_lt_of_lt hlt)) depth
  unfold significantStart
  rw [hdepth, hf.firstTokenBelow_succ hle, firstTokenBelow, h]

theorem exists_significant_child (hf : t.Finished) (hne : t.children n ≠ #[]) :
    ∃ c, t.firstSignificantChild? n = some c := by
  obtain ⟨c, hc, htrivia⟩ := hf.filled n hne
  refine Option.isSome_iff_exists.mp (Array.find?_isSome.mpr ⟨c, hc, by simp [htrivia]⟩)

end Finished

/-- Different tokens start at different offsets. -/
theorem IsTokenLeaf.unique {i j : TreeId} (hnodup : t.significantOffsets.Nodup)
    (hi : t.IsTokenLeaf i) (hj : t.IsTokenLeaf j)
    (heq : (t.node i).span.start = (t.node j).span.start) : i = j := by
  have hoffset {k : TreeId} (hk : t.IsTokenLeaf k) :
      (t.node k).token?.bind Token.significantOffset? = some (t.node k).span.start := by
    obtain ⟨-, htoken, htrivia⟩ := hk
    rw [← TreeNode.isSome_token?] at htoken
    obtain ⟨token, htoken⟩ := Option.isSome_iff_exists.mp htoken
    obtain ⟨hkind, hspan⟩ := TreeNode.token?_eq_some.mp htoken
    rw [kind, hkind] at htrivia
    have htrivia : token.kind.isTrivia = false := htrivia
    simp [htoken, hspan, Token.significantOffset?, Token.isTrivia, Token.offset, htrivia]
  unfold significantOffsets tokens at hnodup
  rw [List.filterMap_filterMap, List.Nodup, List.pairwise_filterMap] at hnodup
  have hlt {k l : TreeId} (hk : t.IsTokenLeaf k) (hl : t.IsTokenLeaf l) (hkl : k < l) :
      (t.node k).span.start ≠ (t.node l).span.start := by
    have hrange := List.pairwise_iff_getElem.mp hnodup k l (by simpa using hk.1)
      (by simpa using hl.1) hkl
    exact hrange _ (by simpa using hoffset hk) _ (by simpa using hoffset hl)
  rcases Nat.lt_trichotomy i j with h | h | h
  · exact absurd heq (hlt hi hj h)
  · exact h
  · exact absurd heq.symm (hlt hj hi h)

end SourceTree

/-! ### Diagnostics by offset -/

namespace DiagnosticIndex

variable {index : DiagnosticIndex} {d : Diagnostic} {ds : List Diagnostic} {o : Nat}

theorem reportedAt_push : (index.push d).reportedAt o =
    index.reportedAt o ++ [d].filter (·.offset == o) := by
  unfold reportedAt push
  rw [Std.TreeMap.getD_insert, List.filter_singleton]
  by_cases h : d.offset = o
  · simp [h]
  · have hne : (d.offset == o) = false := by simpa using h
    simp [h, hne]

theorem reportedAt_append : (index.append ds).reportedAt o =
    index.reportedAt o ++ ds.filter (·.offset == o) := by
  unfold append
  induction ds generalizing index with
  | nil => simp
  | cons d ds ih =>
    rw [List.foldl_cons, ih, reportedAt_push, List.append_assoc, ← List.filter_append]
    rfl

theorem reportedAt_ofList : (ofList ds).reportedAt o = ds.filter (·.offset == o) :=
  reportedAt_append

end DiagnosticIndex

namespace Analysis

variable {a : Analysis} {id : TreeId} {offset : Nat}

theorem errorsForNode_of_children (hf : a.tree.Finished) (hne : a.tree.children id ≠ #[]) :
    a.errorsForNode id = [] := by
  obtain ⟨c, hc⟩ := hf.exists_significant_child hne
  unfold errorsForNode isShadowed
  simp [hc, hf.significantStart_child hc]

theorem errorsForNode_of_childless (hnone : a.tree.children id = #[])
    (hkind : (a.tree.kind id).isTrivia = false) :
    a.errorsForNode id = a.errorsAt (a.tree.significantStart id) := by
  unfold errorsForNode isShadowed
  simp [SourceTree.firstSignificantChild?_of_childless hnone, hkind]

theorem errorsForNode_of_trivia (hkind : (a.tree.kind id).isTrivia = true) :
    a.errorsForNode id = [] := by
  unfold errorsForNode
  simp [hkind]

/-- The faults at a token are shown on its leaf, and on the constructs that are missing before
    it. -/
theorem shown_on_leaf (hf : a.tree.Finished) (hnodup : a.tree.significantOffsets.Nodup)
    (hoffset : offset ∈ a.tree.significantOffsets) (herrors : a.errorsAt offset ≠ []) :
    ∃ leaf, a.tree.IsTokenLeaf leaf ∧ a.tree.significantStart leaf = offset ∧
      a.errorsForNode leaf = a.errorsAt offset ∧
      ∀ id < a.tree.size, a.tree.significantStart id = offset →
        (a.errorsForNode id ≠ [] ↔ id = leaf ∨ a.tree.IsEmptyNode id) := by
  obtain ⟨leaf, hlt, htoken, htrivia, hstart⟩ := SourceTree.mem_significantOffsets.mp hoffset
  have hleaf : a.tree.IsTokenLeaf leaf := ⟨hlt, htoken, htrivia⟩
  have hnone := hf.built.childless leaf htoken
  have hat : a.tree.significantStart leaf = offset := by
    rw [SourceTree.significantStart_of_childless hnone, hstart]
  have hshown : a.errorsForNode leaf = a.errorsAt offset := by
    rw [errorsForNode_of_childless hnone htrivia, hat]
  refine ⟨leaf, hleaf, hat, hshown, fun id hid hidat => ⟨fun hne => ?_, ?_⟩⟩
  · have hchildless : a.tree.children id = #[] := by
      by_contra hchildren
      exact hne (errorsForNode_of_children hf hchildren)
    cases hidtoken : (a.tree.node id).isToken with
    | false => exact .inr ⟨hidtoken, hchildless⟩
    | true =>
      have hidtrivia : (a.tree.kind id).isTrivia = false := by
        by_contra htrue
        exact hne (errorsForNode_of_trivia (by simpa using htrue))
      rw [SourceTree.significantStart_of_childless hchildless] at hidat
      have hidleaf : a.tree.IsTokenLeaf id := ⟨hid, hidtoken, hidtrivia⟩
      exact .inl (hidleaf.unique hnodup hleaf (hidat.trans hstart.symm))
  · rintro (rfl | ⟨hinner, hchildless⟩)
    · rwa [hshown]
    · rwa [errorsForNode_of_childless hchildless (SourceTree.isTrivia_of_inner hinner), hidat]

end Analysis

/-! ### Texts -/

theorem Significant.mem_offsetsIn {text : String} {events : List Event} {token : Token}
    (htokens : tokensIn events = scan text) (h : Significant text token) :
    token.offset ∈ offsetsIn events := by
  rw [offsetsIn_eq, htokens]
  refine List.mem_filterMap.mpr ⟨token, h.1, ?_⟩
  simp [Token.significantOffset?, h.2]

namespace Toolchain

/-- Every fault that is reported of a text inside a place for scripts is anchored at a token. -/
theorem errorsAt_anchored {globals : Except GlobalsFault Globals} {file : FileId} {text : String}
    {source : SourceFile} {others : ClassLookup} {p : Parse} {assembly : Assembly}
    (hsource : source.package ≠ none) (htext : ParsedText file text p assembly)
    (hanchors : Transcript.Anchors (offsetsIn p.transcript.events) assembly [])
    (hfirst : assembly.firstOffset ≠ none) {offset : Nat}
    (herrors : (({ globals } : Toolchain).conclude file text source p assembly
      (({ globals } : Toolchain).resolution file source others p).value).errorsAt offset ≠ []) :
    offset ∈ offsetsIn p.transcript.events := by
  obtain ⟨package, hpackage⟩ := Option.ne_none_iff_exists'.mp hsource
  obtain ⟨d, hd⟩ := List.exists_mem_of_ne_nil _ herrors
  unfold Analysis.errorsAt conclude at hd
  rw [hpackage, DiagnosticIndex.reportedAt_ofList, ← List.filter_append, List.mem_filter,
    beq_iff_eq] at hd
  obtain ⟨hd, rfl⟩ := hd
  rcases List.mem_append.mp hd with hglobals | hd
  · cases globals with
    | ok globals => cases hglobals
    | error fault =>
      obtain ⟨o, ho⟩ := Option.ne_none_iff_exists'.mp hfirst
      obtain rfl := List.mem_singleton.mp hglobals
      unfold GlobalsFault.diagnostic
      rw [ho, Diagnostic.offset_anchoredAt]
      exact hanchors.first o ho
  · rw [Option.isNone_some, if_neg (by simp), List.append_nil] at hd
    rcases List.mem_append.mp hd with hsyntax | hresolution
    · exact hanchors.reports d hsyntax
    · unfold resolution at hresolution
      rw [hpackage] at hresolution
      obtain ⟨parts, hparts⟩ := ScriptRecorded.of_parse htext.parsed
      have ha : (ResolveInput.mk file source.name p.ast p.root
          ({ globals } : Toolchain).knownGlobals others).Anchored text (Significant text) :=
        .of_script htext.run hparts rfl rfl
      obtain ⟨token, htoken, hoffset⟩ :=
        (ResolveInput.reported_of_mem hparts ha hresolution).significant ha
      rw [← hoffset]
      exact htoken.mem_offsetsIn htext.tokens

/-- Of every text inside a place for scripts, the faults at an offset are shown on the leaf of the
    token that starts there.  Of all nodes that start with this token no other shows them, but for
    the constructs that are missing in front of it. -/
theorem faults_shown_on_leaves (globals : Except GlobalsFault Globals) (file : FileId)
    (text : String) (others : ClassLookup) {source : SourceFile} (hsource : source.package ≠ none) :
    ∃ a, ({ globals } : Toolchain).analyse file text source others = .ok a ∧
      ∀ offset, a.value.errorsAt offset ≠ [] → ∃ leaf, a.value.tree.IsTokenLeaf leaf ∧
        a.value.tree.significantStart leaf = offset ∧
        a.value.errorsForNode leaf = a.value.errorsAt offset ∧
        ∀ id < a.value.tree.size, a.value.tree.significantStart id = offset →
          (a.value.errorsForNode id ≠ [] ↔ id = leaf ∨ a.value.tree.IsEmptyNode id) := by
  obtain ⟨p, assembly, hparse, htext⟩ := parse_finishes globals file text
  obtain ⟨m, body, last, hrecords⟩ := htext.records
  obtain ⟨hanchors, hfirst, hleaves⟩ := hrecords.anchored htext.run.framed htext.assembled
  have hnodup : assembly.tree.significantOffsets.Nodup := by
    rw [hleaves]
    exact (ascending_of_scan htext.tokens).imp Nat.ne_of_lt
  unfold analyse
  rw [hparse]
  refine ⟨_, rfl, fun offset herrors => ?_⟩
  have hoffset : offset ∈ assembly.tree.significantOffsets := by
    rw [hleaves]
    exact errorsAt_anchored hsource htext hanchors hfirst herrors
  exact Analysis.shown_on_leaf htext.finished hnodup hoffset herrors

theorem unknown_name_shown : (SourceFile.detached "x").package ≠ none ∧ ∃ a,
    ({ globals := .ok .empty } : Toolchain).analyse 0 "x" (.detached "x") .none = .ok a ∧
      a.value.errorsAt 0 = [.ofResolution "Unknown variable 'x'" ⟨0, 1⟩] ∧
      ∃ leaf, a.value.tree.IsTokenLeaf leaf ∧ a.value.tree.significantStart leaf = 0 ∧
        a.value.errorsForNode leaf = a.value.errorsAt 0 ∧
        ∀ id < a.value.tree.size, a.value.tree.significantStart id = 0 →
          (a.value.errorsForNode id ≠ [] ↔ id = leaf ∨ a.value.tree.IsEmptyNode id) := by
  have hsource : (SourceFile.detached "x").package ≠ none := by decide
  obtain ⟨a, ha, hshown⟩ := faults_shown_on_leaves (.ok .empty) 0 "x" .none hsource
  have hcomputed : (({ globals := .ok .empty } : Toolchain).analyse 0 "x" (.detached "x")
      .none).toOption.any (fun a => decide (a.value.errorsAt 0 =
        [.ofResolution "Unknown variable 'x'" ⟨0, 1⟩])) = true := by decide +kernel
  rw [ha] at hcomputed
  have herrors : a.value.errorsAt 0 = [.ofResolution "Unknown variable 'x'" ⟨0, 1⟩] :=
    of_decide_eq_true hcomputed
  exact ⟨hsource, a, ha, herrors, hshown 0 (by simp [herrors])⟩

/-- The body of the function is missing, and stands where the next statement starts: the fault of
    that statement is shown on the empty block as well as on its own name. -/
theorem missing_body_shows_fault : ∃ a,
    ({ globals := .ok .empty } : Toolchain).analyse 0 "int f() x" (.detached "int f() x") .none =
      .ok a ∧ a.value.errorsAt 8 ≠ [] ∧
      (a.value.tree.kind 11 = .node .block ∧ a.value.tree.significantStart 11 = 8 ∧
        a.value.errorsForNode 11 = a.value.errorsAt 8) ∧
      (a.value.tree.kind 15 = .token .ident ∧ a.value.tree.significantStart 15 = 8 ∧
        a.value.errorsForNode 15 = a.value.errorsAt 8) := by
  obtain ⟨a, ha⟩ := analyse_succeeds (.ok .empty) 0 "int f() x" (.detached "int f() x") .none
  have hcomputed : (({ globals := .ok .empty } : Toolchain).analyse 0 "int f() x"
      (.detached "int f() x") .none).toOption.any (fun a => decide (a.value.errorsAt 8 ≠ [] ∧
        (a.value.tree.kind 11 = .node .block ∧ a.value.tree.significantStart 11 = 8 ∧
          a.value.errorsForNode 11 = a.value.errorsAt 8) ∧
        (a.value.tree.kind 15 = .token .ident ∧ a.value.tree.significantStart 15 = 8 ∧
          a.value.errorsForNode 15 = a.value.errorsAt 8))) = true := by decide +kernel
  rw [ha] at hcomputed
  exact ⟨a, ha, of_decide_eq_true hcomputed⟩

end Toolchain

end ScriptAnalysis
