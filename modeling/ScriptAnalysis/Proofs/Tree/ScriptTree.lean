import ScriptAnalysis.Proofs.Grammar.Scripts
import ScriptAnalysis.Proofs.Tree.LeftEdge

/-!
# The tree of a script

The record of a whole script always has a tree, and all of the tree is the node of the script's
class, which spans the text.
-/

namespace ScriptAnalysis

/-- Before a significant token there is one to be found. -/
theorem firstOffset_isSome {events : List Event} {t : Token} (h : .token t ∈ events)
    (ht : t.isTrivia = false) : (firstOffset events).isSome := by
  unfold firstOffset
  rw [List.findSome?_isSome_iff]
  exact ⟨.token t, h, by simp [Event.significantOffset?, ht]⟩

namespace Transcript

variable {t : Transcript} {file : FileId} {ast : Ast} {root : NodeId} {m : MarkerId}
  {body : List Event} {last : Token}

namespace RecordsScript

/-- The marker of a script has a node. -/
theorem hasTreeNode (h : t.RecordsScript root ast m body last) :
    (t.marker m).hasTreeNode ast = true := by
  obtain ⟨decl, hdata⟩ := h.data
  simp [Marker.hasTreeNode, Marker.isDone, Marker.isPlainBlock, h.state, h.node, hdata]

theorem balanced_events (h : t.RecordsScript root ast m body last) : Balanced t.events := by
  have hwrap := (h.balanced.append (Balanced.tokens [last])).wrap m
  rw [h.events]
  simpa using hwrap

theorem last_not_trivia (h : t.RecordsScript root ast m body last) : last.isTrivia = false := by
  simp [Token.isTrivia, h.last_kind, TokenKind.isTrivia]

/-- After the start of any marker comes the end of the text. -/
theorem last_mem (h : t.RecordsScript root ast m body last) {id : MarkerId} {later : List Event}
    (hsuffix : .start id :: later <:+ t.events) : .token last ∈ later := by
  have hend : [.token last, .stop m] <:+ t.events := by
    rw [h.events]
    exact List.suffix_append _ _
  rcases List.suffix_or_suffix_of_suffix hsuffix hend with hs | hs
  · have hmem : Event.start id ∈ [Event.token last, .stop m] := hs.subset (by simp)
    simp at hmem
  · rcases List.suffix_cons_iff.mp hs with heq | hs
    · cases heq
    · exact hs.subset (by simp)

theorem assemble_succeeds (h : t.RecordsScript root ast m body last) (file : FileId) :
    ∃ r, t.assemble file ast = .ok r := by
  refine replay_succeeds (by simpa using h.balanced_events []) ?_
  intro id later hsuffix _
  rw [Option.isSome_or, firstOffset_isSome (h.last_mem hsuffix) h.last_not_trivia, Bool.or_true]

/-- No node is left before the first token. -/
theorem early (h : t.RecordsScript root ast m body last) {id : MarkerId}
    (hid : .stop id ∈ leadIn (body ++ [.token last])) :
    (t.marker id).hasTreeNode ast = false := by
  rcases mem_leadIn_append hid with hid | ⟨-, hid⟩
  · rcases h.noEarlyNode id hid with hs | hs <;> simp [Marker.hasTreeNode, Marker.isDone, hs]
  · simp [leadIn, Event.token?] at hid

end RecordsScript

end Transcript

namespace SourceTree

variable {t : SourceTree} {n : TreeId}

/-- If the root has one open child that comes right after it, it has no other. -/
theorem Laid.children_root (h : t.Laid [1, root]) : t.children root = #[1] := by
  cases h.1 with
  | child hlast hbefore _ =>
    have hnil := hbefore.eq_nil
    subst hnil
    exact Array.toList_inj.mp hlast

end SourceTree

namespace Transcript

variable {t : Transcript} {file : FileId} {ast : Ast} {root : NodeId} {m : MarkerId}
  {body : List Event} {last : Token}

/-- The first step of the replay opens the node of the script's class. -/
theorem RecordsScript.step_start (h : t.RecordsScript root ast m body last)
    {later : List Event} {a : Assembly} {frames : List Frame}
    (hs : t.Step file ast later (.start m) {} [] a frames) :
    ∃ offset, frames = [⟨m, some 1, offset⟩] ∧
      a.tree = (SourceTree.empty.push SourceTree.root (.node .classDecl) (.point offset)).2 := by
  cases hs with
  | @enter _ _ _ offset _ _ =>
    refine ⟨offset, rfl, ?_⟩
    rw [h.kind]
    rfl
  | pass hnode =>
    rw [h.hasTreeNode] at hnode
    cases hnode

/-- The end of the text is the last leaf of the class, which then spans the text. -/
theorem finish_class {a : Assembly} {ℓ : TreeId} (hb : a.tree.Built [1, SourceTree.root])
    (hl : (a.pushLeaf 1 last).tree.LeftEdge [1, SourceTree.root] ℓ)
    (hkind : a.tree.kind 1 = .node .classDecl) (hlast : last.kind = .eof) :
    ((a.pushLeaf 1 last).closeNode 1).tree.children SourceTree.root = #[1] ∧
      ((a.pushLeaf 1 last).closeNode 1).tree.kind 1 = .node .classDecl ∧
      (((a.pushLeaf 1 last).closeNode 1).tree.node 1).span = ⟨0, last.span.stop⟩ := by
  have h1 : 1 < a.tree.size := hb.laid.lt_size 1 (by simp)
  have h0 : SourceTree.root < a.tree.size := hb.laid.lt_size _ (by simp)
  have htree : (a.pushLeaf 1 last).tree = (a.tree.push 1 (.token last.kind) last.span).2 := by
    rcases a.pushLeaf_tree 1 last with ⟨_, hj, _⟩ | ⟨-, htree⟩
    · have hblank := hj.blank
      rw [hlast] at hblank
      cases hblank
    · exact htree
  have hb' : (a.pushLeaf 1 last).tree.Built [1, SourceTree.root] := by
    rw [htree]
    exact hb.push _ _
  have hchildren : (a.pushLeaf 1 last).tree.children 1 = (a.tree.children 1).push a.tree.size := by
    rw [htree, SourceTree.children_push _ _ h1, if_neg (Nat.ne_of_lt h1), if_pos rfl]
  rcases (a.pushLeaf 1 last).closeNode_tree 1 with ⟨first, c, hfirst, hc, hclose⟩ | ⟨hnone, -⟩
  · have hc : c = a.tree.size := by
      rw [hchildren, Array.back?_push, Option.some.injEq] at hc
      exact hc.symm
    have hspan : ((a.pushLeaf 1 last).tree.node c).span = last.span := by
      rw [htree, SourceTree.node_push _ _ h1, if_pos hc]
    have hedge := hl.leave hb' hfirst c
    have hlt : 1 < ℓ := by
      have hne : ∀ q ∈ [1, SourceTree.root], ℓ ≠ q := by
        rintro q hq rfl
        have := hb'.inner ℓ hq
        rw [hl.isToken] at this
        cases this
      exact Nat.lt_of_le_of_ne (Nat.one_le_iff_ne_zero.mpr (hne SourceTree.root (by simp)))
        (Ne.symm (hne 1 (by simp)))
    have hstart := hedge.left 1 hlt Nat.one_pos (by simp [SourceTree.root])
    rw [hclose]
    refine ⟨?_, ?_, ?_⟩
    · rw [SourceTree.children_coverChildren, htree, SourceTree.children_push _ _ h1,
        if_neg (Nat.ne_of_lt h0), if_neg (by decide)]
      exact hb.laid.children_root
    · unfold SourceTree.kind
      rw [SourceTree.node_coverChildren (hb'.laid.lt_size 1 (by simp)), if_pos rfl, htree,
        SourceTree.node_push _ _ h1, if_neg (Nat.ne_of_lt h1), if_pos rfl]
      exact hkind
    · rw [SourceTree.node_coverChildren (hb'.laid.lt_size 1 (by simp)), if_pos rfl] at hstart ⊢
      rw [hspan]
      exact congrArg (Span.mk · last.span.stop) hstart
  · rw [hchildren] at hnone
    exact absurd (congrArg Array.size hnone) (by simp)

theorem RecordsScript.tree (h : t.RecordsScript root ast m body last) {stop : Nat}
    (htiles : Tiles 0 (tokensIn t.events) stop) {r : Assembly} (hr : t.assemble file ast = .ok r) :
    r.tree.children SourceTree.root = #[1] ∧ r.tree.kind 1 = .node .classDecl ∧
      (r.tree.node 1).span = ⟨0, stop⟩ := by
  have htokens : tokensIn t.events = tokensIn body ++ [last] := by
    rw [h.events]
    simp
  unfold assemble at hr
  rw [h.events, List.cons_append, replay_cons] at hr
  obtain ⟨a₁, f₁, hstart, hr⟩ := hr
  rw [replay_append] at hr
  obtain ⟨a₂, f₂, hbody, hr⟩ := hr
  rw [replay_cons] at hr
  obtain ⟨a₃, f₃, hlast, hr⟩ := hr
  rw [replay_cons] at hr
  obtain ⟨a₄, f₄, hstop, hr⟩ := hr
  have hb₁ := hstart.change.built SourceTree.Built.empty
  have hb₂ := hbody.changes.built hb₁
  have hm₁ := hstart.matches (by simp [Matches])
  obtain ⟨offset, rfl, htree⟩ := h.step_start hstart
  have hf₂ := hbody.frames_of_balanced h.balanced
  subst hf₂
  have hs₁ : a₁.tree.Stem [1, SourceTree.root] := by
    rw [htree]
    exact SourceTree.Stem.empty.enter SourceTree.Laid.empty _ _
  rw [htokens] at htiles
  have htiles₁ : Tiles 0 (tokensIn (body ++ [.token last])) stop := by
    simpa using htiles
  obtain ⟨ℓ, hl⟩ := (hbody.append (.cons hlast .nil)).leftEdge_of_stem hb₁ hs₁ hm₁
    (fun id hid => h.early hid) htiles₁ (by simp)
  have hnode₁ : a₁.tree.node 1 = ⟨.node .classDecl, .point offset, some SourceTree.root, #[]⟩ := by
    rw [htree]
    rfl
  have hkind : a₂.tree.kind 1 = .node .classDecl := by
    rw [hbody.changes.kind_eq hb₁ (hb₁.laid.lt_size 1 (by simp)) (by rw [hnode₁]; rfl)]
    unfold SourceTree.kind
    rw [hnode₁]
  have hstop_eq : last.span.stop = stop := by
    obtain ⟨_, -, hlast_tiles⟩ := Tiles.append_iff.mp htiles
    obtain ⟨-, -, hnil⟩ := Tiles.cons_iff.mp hlast_tiles
    exact Tiles.nil_iff.mp hnil
  have hb₄ := hstop.change.built (hlast.change.built hb₂)
  cases hlast with
  | token _ =>
    obtain ⟨rfl, htree₄⟩ := hstop.of_stop rfl
    obtain ⟨hroot, hkind₄, hspan⟩ := finish_class hb₂ hl hkind h.last_kind
    have hr : r = a₄.closeNode SourceTree.root := by
      cases hr
      rfl
    have hsame : r.tree.node 1 = a₄.tree.node 1 := by
      rw [hr]
      exact a₄.closeNode_node (hb₄.laid.lt_size _ (by simp)) (by decide)
    have htree₄' : a₄.tree = ((a₂.pushLeaf 1 last).closeNode 1).tree := htree₄
    rw [← htree₄'] at hroot hkind₄ hspan
    refine ⟨?_, ?_, ?_⟩
    · rw [hr, Assembly.closeNode_children]
      exact hroot
    · unfold SourceTree.kind
      rw [hsame]
      exact hkind₄
    · rw [hsame, hspan, hstop_eq]

end Transcript

end ScriptAnalysis
