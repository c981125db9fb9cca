import ScriptAnalysis.Proofs.Tree.Framing
import ScriptAnalysis.Proofs.Tree.ScriptTree

/-!
# Where the faults of a text are anchored

A replay reports faults at the first token behind the start of their marker, and enters keys at such
tokens.  In a framed recording a marker has noted that token, or has none in it, and at the end of a
text there is one more token.  So every offset that the replay comes to is that of a token
(`Transcript.Anchors`).  A token that is no trivia is a leaf of its own.
-/

namespace ScriptAnalysis

/-- What a marker has noted is the first token behind its start. -/
theorem Framed.noted {mk : MarkerId → Marker} {led : Bool} {p before after : List Event}
    {m : MarkerId} {o : Nat} (h : Framed mk led p) (hp : p = before ++ .start m :: after)
    (ho : (mk m).offset = some o) : firstOffset after = some o := by
  have hmore {p q : List Event} (hp : firstOffset p = some o) : firstOffset (p ++ q) = some o := by
    rw [firstOffset_append, hp]
    rfl
  induction h generalizing before after with
  | nil => simp at hp
  | @tokens _ blank t _ _ =>
    have hmem : Event.start m ∈ (blank ++ [t]).map .token := hp ▸ by simp
    simp at hmem
  | @append _ _ p q _ _ _ ihp ihq =>
    rcases List.append_eq_append_iff.mp hp with ⟨mid, rfl, hq⟩ | ⟨mid, rfl, hafter⟩
    · exact ihq hq
    · cases mid with
      | nil => exact ihq (hafter.symm.trans (List.nil_append _).symm)
      | cons e mid =>
        obtain ⟨rfl, rfl⟩ := List.cons.inj hafter
        exact hmore (ihp rfl)
  | @wrap _ p k _ _ hoffset ih =>
    cases before with
    | nil =>
      obtain ⟨hk, rfl⟩ := List.cons.inj hp
      obtain rfl := Event.start.inj hk
      exact hmore (hoffset ▸ ho)
    | cons e before =>
      obtain ⟨-, hp⟩ := List.cons.inj hp
      rcases List.append_eq_append_iff.mp hp with ⟨mid, rfl, hstop⟩ | ⟨mid, rfl, hafter⟩
      · have hmem : Event.start m ∈ [Event.stop k] := hstop ▸ by simp
        simp at hmem
      · cases mid with
        | nil => simp at hafter
        | cons e mid =>
          obtain ⟨rfl, rfl⟩ := List.cons.inj hafter
          exact hmore (ih rfl)

/-! ### The leaves of tokens -/

namespace SourceTree

variable {t t' : SourceTree} {path path' : List TreeId} {tokens : List Token}

/-- Where the leaves stand that are no trivia. -/
def significantOffsets (t : SourceTree) : List Nat := t.tokens.filterMap Token.significantOffset?

theorem mem_significantOffsets {o : Nat} : o ∈ t.significantOffsets ↔
    ∃ leaf < t.size, (t.node leaf).isToken = true ∧ (t.kind leaf).isTrivia = false ∧
      (t.node leaf).span.start = o := by
  unfold significantOffsets tokens
  simp only [List.filterMap_filterMap, List.mem_filterMap, List.mem_range]
  refine exists_congr fun leaf => and_congr_right fun _ => ?_
  cases htoken : (t.node leaf).token? with
  | none =>
    rw [← TreeNode.isSome_token?, htoken]
    simp
  | some token =>
    obtain ⟨hkind, hspan⟩ := TreeNode.token?_eq_some.mp htoken
    rw [← TreeNode.isSome_token?, htoken, kind, hkind, hspan]
    cases htrivia : token.kind.isTrivia <;>
      simp [Token.significantOffset?, Token.isTrivia, Token.offset, TreeKind.isTrivia, htrivia]

theorem Change.significantOffsets_eq (h : t.Change path tokens t' path') (hb : t.Built path) :
    t'.significantOffsets = t.significantOffsets ++ tokens.filterMap Token.significantOffset? := by
  have hother (hnil : tokens = []) : t'.significantOffsets = t.significantOffsets ++
      tokens.filterMap Token.significantOffset? := by
    subst hnil
    unfold significantOffsets
    rw [h.tokens_eq hb, List.filterMap_nil, List.append_nil]
  cases h with
  | leaf _ =>
    unfold significantOffsets
    rw [tokens_push _ _ (hb.lt_size (by simp)), List.filterMap_append]
    rfl
  | @join p last above token hj =>
    obtain ⟨x, hx, hlast, -⟩ := hb.last_token hj.back hj.isToken
    obtain ⟨before, hold, hnew⟩ := tokens_join token hlast hx
    obtain ⟨kind, hkind, hblank⟩ := hj.kind
    have hxblank : x.kind.isBlank = true := by
      have hsame := (TreeNode.token?_eq_some.mp hx).1
      rw [show (t.node last).kind = .token kind from hkind, TreeKind.token.injEq] at hsame
      exact hsame ▸ hblank
    have hjoined : (Token.mk .whitespace (x.span.cover token.span)).significantOffset? =
        Option.none :=
      significantOffset?_of_blank rfl
    unfold significantOffsets
    rw [hold, hnew]
    simp [significantOffset?_of_blank hxblank, significantOffset?_of_blank hj.blank, hjoined]
  | enter _ _ => exact hother rfl
  | leave _ _ _ => exact hother rfl
  | leaveEmpty _ _ => exact hother rfl
  | none => exact hother rfl

theorem Changes.significantOffsets_eq (h : t.Changes path tokens t' path') (hb : t.Built path) :
    t'.significantOffsets = t.significantOffsets ++ tokens.filterMap Token.significantOffset? := by
  induction h with
  | nil => exact (List.append_nil _).symm
  | cons hchange _ ih =>
    rw [ih (hchange.built hb), hchange.significantOffsets_eq hb, List.filterMap_append,
      List.append_assoc]

end SourceTree

/-! ### What a step does to the least offset -/

namespace Assembly

variable {a : Assembly} {file : FileId} {markers : MarkerId → Marker} {ast : Ast} {m : Marker}
  {node : TreeId} {offset : Nat}

theorem pushLeaf_firstOffset (a : Assembly) (p : TreeId) (token : Token) :
    (a.pushLeaf p token).firstOffset = a.firstOffset := by
  unfold pushLeaf
  dsimp only
  split
  · split
    · rfl
    · split
      · split <;> rfl
      · rfl
  · rfl

theorem closeNode_firstOffset (a : Assembly) (id : TreeId) :
    (a.closeNode id).firstOffset = a.firstOffset := by
  unfold closeNode
  dsimp only
  split <;> rfl

theorem redirect_firstOffset (a : Assembly) (key : AstKey) (nameKey : Option AstKey) (node : NodeId)
    (data : NodeData) : (a.redirect key nameKey node data).firstOffset = a.firstOffset := by
  unfold redirect
  split
  · rfl
  · split <;> rfl
  · split
    · split <;> rfl
    · rfl
  · rfl

theorem index_firstOffset {o : Nat}
    (h : (a.index file markers ast m node offset).firstOffset = some o) :
    a.firstOffset = some o ∨ o = offset := by
  unfold index at h
  split at h
  · split at h
    · exact .inl h
    · exact .inl h
    · rw [redirect_firstOffset] at h
      cases hfirst : a.firstOffset with
      | none =>
        simp only [setName, claimKey, hfirst, Option.map_none, Option.getD_none,
          Option.some.injEq] at h
        exact .inr h.symm
      | some least =>
        simp only [setName, claimKey, hfirst, Option.map_some, Option.getD_some,
          Option.some.injEq] at h
        rcases Nat.le_total least offset with hle | hle
        · exact .inl (by rw [← h, Nat.min_eq_left hle])
        · exact .inr (by rw [← h, Nat.min_eq_right hle])
  · exact .inl h

/-- A class always has a key. -/
theorem index_firstOffset_ne_none {kind : NodeKind} {n : NodeId} {decl : ClassDecl}
    (hkind : m.kind = some kind) (hnode : m.node = some n)
    (hdata : ast.data? n = some (.classDecl decl)) :
    (a.index file markers ast m node offset).firstOffset ≠ none := by
  unfold index
  rw [hkind, hnode]
  simp only [hdata]
  rw [redirect_firstOffset]
  simp [setName, claimKey]

end Assembly

namespace Transcript

variable {t : Transcript} {file : FileId} {ast : Ast} {later events : List Event} {e : Event}
  {a a' : Assembly} {frames frames' : List Frame} {os : List Nat}

/-- Every offset that the replay came to is one of some offsets. -/
structure Anchors (os : List Nat) (a : Assembly) (frames : List Frame) : Prop where
  reports : ∀ d ∈ a.diagnostics, d.offset ∈ os
  frames : ∀ frame ∈ frames, frame.offset ∈ os
  first : ∀ o, a.firstOffset = some o → o ∈ os

theorem Anchors.empty (os : List Nat) : Anchors os {} [] :=
  ⟨by simp, by simp, fun _ ho => by cases ho⟩

/-- At the start of a marker there is an offset. -/
def StartsIn (t : Transcript) (os : List Nat) (events : List Event) : Prop :=
  ∀ id after, .start id :: after <:+ events →
    ∃ o ∈ os, (t.marker id).offset.or (firstOffset after) = some o

theorem Step.anchors (h : t.Step file ast later e a frames a' frames')
    (hstarts : t.StartsIn os (e :: later)) (ha : Anchors os a frames) : Anchors os a' frames' := by
  cases h with
  | token token =>
    exact ⟨by rw [Assembly.pushLeaf_diagnostics]; exact ha.reports, ha.frames,
      by rw [Assembly.pushLeaf_firstOffset]; exact ha.first⟩
  | @enter _ _ id offset _ hoffset =>
    obtain ⟨o, ho, hsame⟩ := hstarts id later (List.suffix_refl _)
    obtain rfl := Option.some.inj (hoffset.symm.trans hsame)
    exact ⟨ha.reports, List.forall_mem_cons.mpr ⟨ho, ha.frames⟩, ha.first⟩
  | @pass _ _ id _ =>
    obtain ⟨o, ho, hsame⟩ := hstarts id later (List.suffix_refl _)
    rw [hsame]
    refine ⟨fun d hd => ?_, List.forall_mem_cons.mpr ⟨ho, ha.frames⟩, ha.first⟩
    rcases List.mem_append.mp hd with hd | hd
    · exact ha.reports d hd
    · unfold Marker.report at hd
      split at hd
      · obtain rfl := List.mem_singleton.mp hd
        exact ho
      · cases hd
  | @leave _ frame _ node _ =>
    obtain ⟨hframe, hframes⟩ := List.forall_mem_cons.mp ha.frames
    refine ⟨?_, hframes, fun o ho => ?_⟩
    · rw [Assembly.index_diagnostics, Assembly.closeNode_diagnostics]
      exact ha.reports
    · rcases Assembly.index_firstOffset ho with hold | rfl
      · exact ha.first o (a.closeNode_firstOffset node ▸ hold)
      · exact hframe
  | drop _ => exact ⟨ha.reports, (List.forall_mem_cons.mp ha.frames).2, ha.first⟩

theorem Replays.anchors (h : t.Replays file ast later events a frames a' frames')
    (hstarts : t.StartsIn os (events ++ later)) (ha : Anchors os a frames) :
    Anchors os a' frames' := by
  induction h with
  | nil => exact ha
  | cons hstep _ ih =>
    exact ih (fun id after hsuffix => hstarts id after (hsuffix.trans (List.suffix_cons _ _)))
      (hstep.anchors hstarts ha)

/-- In the recording of a text there is a token behind the start of every marker. -/
theorem RecordsScript.startsIn {root : NodeId} {m : MarkerId} {body : List Event} {last : Token}
    (h : t.RecordsScript root ast m body last) (hp : Framed t.marker false t.events) :
    t.StartsIn (offsetsIn t.events) t.events := by
  intro id after hsuffix
  obtain ⟨o, ho⟩ := Option.isSome_iff_exists.mp
    (firstOffset_isSome (h.last_mem hsuffix) h.last_not_trivia)
  obtain ⟨before, hbefore⟩ := hsuffix
  have hmem : o ∈ offsetsIn t.events := by
    rw [← hbefore, offsetsIn_append]
    exact List.mem_append_right _ (mem_offsetsIn ho)
  refine ⟨o, hmem, ?_⟩
  cases hnoted : (t.marker id).offset with
  | none => exact ho
  | some noted =>
    have hfirst := hp.noted hbefore.symm hnoted
    rw [ho] at hfirst
    exact hfirst.symm

/-- The faults of a text are anchored at its tokens, and each of these is a leaf. -/
theorem RecordsScript.anchored {root : NodeId} {m : MarkerId} {body : List Event} {last : Token}
    (h : t.RecordsScript root ast m body last) (hp : Framed t.marker false t.events) {r : Assembly}
    (hr : t.assemble file ast = .ok r) : Anchors (offsetsIn t.events) r [] ∧
      r.firstOffset ≠ none ∧ r.tree.significantOffsets = offsetsIn t.events := by
  obtain ⟨a, hreplays, rfl⟩ := assemble_ok.mp hr
  have hanchors := hreplays.anchors (by rw [List.append_nil]; exact h.startsIn hp) (.empty _)
  have hb := hreplays.changes.built SourceTree.Built.empty
  have hleaves := hreplays.changes.significantOffsets_eq SourceTree.Built.empty
  refine ⟨⟨?_, by simp, ?_⟩, ?_, ?_⟩
  · rw [Assembly.closeNode_diagnostics]
    exact hanchors.reports
  · rw [Assembly.closeNode_firstOffset]
    exact hanchors.first
  · rw [Assembly.closeNode_firstOffset]
    rw [h.events, List.cons_append] at hreplays
    cases hreplays with
    | cons hstart hrest =>
      obtain ⟨offset, rfl, -⟩ := h.step_start hstart
      generalize hframe : (⟨m, some 1, offset⟩ : Frame) = frame at hrest
      obtain ⟨b, fb, hbody, hend⟩ := hrest.split
      obtain rfl := hbody.frames_of_balanced h.balanced
      cases hend with
      | cons hlast hend =>
        cases hlast
        cases hend with
        | cons hstop hnil =>
          cases hnil
          obtain ⟨decl, hdata⟩ := h.data
          cases hstop with
          | leave _ => exact Assembly.index_firstOffset_ne_none h.kind h.node hdata
          | drop hnone =>
            rw [← hframe] at hnone
            cases hnone
  · unfold SourceTree.significantOffsets
    rw [(Assembly.closeNode_tokens hb).2, offsetsIn_eq]
    exact hleaves

end Transcript

end ScriptAnalysis
