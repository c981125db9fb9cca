import ScriptAnalysis.Proofs.Recording.AnyOrder
import ScriptAnalysis.Proofs.Tree.Leaves
import ScriptAnalysis.Proofs.Tree.Replay

/-!
# A tree has the whole text

However a recording came about, its tree has all tokens of the text as leaves, with runs of blanks
joined, and so the leaves spell the text.  The replay joins a blank to the last child of the
innermost open node only.  That is enough, because no marker stands between two blanks
(`Unbroken`): the leaf of the blank before is that child.  And nothing else is joined, because a
leaf that is the last child of the innermost open node is the last leaf at all.
-/

namespace ScriptAnalysis

theorem TokenKind.isTrivia_of_isBlank {kind : TokenKind} (h : kind.isBlank = true) :
    kind.isTrivia = true := by
  cases kind <;> cases h <;> rfl

namespace SourceTree

variable {t t' : SourceTree} {p last : TreeId} {above path path' : List TreeId} {token : Token}
  {history : List Event} {e : Event} {stop : Nat}

/-- The tree has the tokens recorded so far, the latest event first.  Directly after a token its
    leaf is the last child of the innermost open node. -/
structure Mirrors (t : SourceTree) (path : List TreeId) (history : List Event) : Prop where
  built : t.Built path
  tokens_eq : t.tokens = joinBlanks (tokensIn history).reverse
  recent : ∀ token older, history = .token token :: older →
    ∃ p above last, path = p :: above ∧ (t.children p).back? = some last ∧
      (t.node last).isToken = true

theorem Mirrors.empty : Mirrors empty [root] [] :=
  ⟨Built.empty, rfl, fun _ _ h => by cases h⟩

/-- The last child of the innermost open node, if it is a token, is the last token. -/
theorem Built.last_token (h : Built t (p :: above)) (hback : (t.children p).back? = some last)
    (htoken : (t.node last).isToken = true) :
    ∃ x, (t.node last).token? = some x ∧ last + 1 = t.size ∧ t.tokens.getLast? = some x := by
  have hlast := h.laid.last_eq hback (h.childless last htoken)
  rw [← TreeNode.isSome_token?] at htoken
  obtain ⟨x, hx⟩ := Option.isSome_iff_exists.mp htoken
  obtain ⟨before, htokens, -⟩ := tokens_join x hlast hx
  refine ⟨x, hx, hlast, ?_⟩
  rw [htokens, List.getLast?_concat]

/-- Events that are no tokens change no leaves. -/
theorem Change.tokens_eq (h : Change t path [] t' path') (hb : Built t path) :
    t'.tokens = t.tokens := by
  cases h with
  | enter kind offset =>
    rw [tokens_push _ _ (hb.laid.lt_size _ (by simp))]
    exact List.append_nil _
  | leave hfirst hlast hpath =>
    exact tokens_coverChildren (hb.laid.lt_size _ (by simp)) (hb.inner _ (by simp)) _ _
  | leaveEmpty _ _ => rfl
  | none => rfl

/-- What is joined in the list is joined in the tree. -/
theorem Mirrors.joins (h : Mirrors t (p :: above) history) (hu : Unbroken (.token token :: history))
    (htiles : Tiles 0 ((tokensIn history).reverse ++ [token]) stop) {before : List Token}
    {x : Token} (hjoined : joinBlanks (tokensIn history).reverse = before ++ [x])
    (hx : x.kind.isBlank = true) (htoken : token.kind.isBlank = true) :
    ∃ last, Joins t p token last := by
  obtain ⟨hb, heq, hrecent⟩ := h
  -- The latest token is a blank, so the latest event is that token.
  have hlatest := getLast?_joinBlanks (tokensIn history).reverse
  rw [hjoined, List.getLast?_concat, Option.map_some, hx, List.getLast?_reverse] at hlatest
  obtain ⟨u, hu', hblank⟩ := Option.map_eq_some_iff.mp hlatest.symm
  have hhead := hu.1 u hu' (TokenKind.isTrivia_of_isBlank hblank)
  obtain ⟨older, holder⟩ : ∃ older, history = .token u :: older := by
    cases history with
    | nil => cases hhead
    | cons e older =>
      cases hhead
      exact ⟨older, rfl⟩
  obtain ⟨p', above', last, hpath, hback, hleaf⟩ := hrecent u older holder
  obtain ⟨rfl, rfl⟩ := List.cons.inj hpath
  obtain ⟨y, hy, -, hlast⟩ := hb.last_token hback hleaf
  rw [heq, hjoined, List.getLast?_concat, Option.some.injEq] at hlast
  subst hlast
  obtain ⟨hkind, hspan⟩ := TreeNode.token?_eq_some.mp hy
  obtain ⟨b, hold, hnew⟩ := Tiles.append_iff.mp htiles
  have hjoinedTiles := hold.joinBlanks
  rw [hjoined] at hjoinedTiles
  obtain ⟨_, -, hlastTiles⟩ := Tiles.append_iff.mp hjoinedTiles
  refine ⟨last, htoken, hback, ⟨x.kind, hkind, hx⟩, ?_⟩
  rw [hspan, Tiles.nil_iff.mp (Tiles.cons_iff.mp hlastTiles).2.2, (Tiles.cons_iff.mp hnew).1]

/-- A token is added to the tree as it is to the list. -/
theorem Mirrors.record (h : Mirrors t path history) (hchange : Change t path [token] t' path')
    (hu : Unbroken (.token token :: history))
    (htiles : Tiles 0 ((tokensIn history).reverse ++ [token]) stop) :
    Mirrors t' path' (.token token :: history) := by
  have hbuilt := hchange.built h.built
  have hconcat := joinBlanks_concat (tokensIn history).reverse token
  cases hchange with
  | @leaf p above _ hno =>
    have hp : p < t.size := h.built.laid.lt_size p (by simp)
    refine ⟨hbuilt, ?_, fun _ _ _ => ⟨p, above, t.size, rfl, ?_, ?_⟩⟩
    · rw [tokens_push _ _ hp, tokensIn_token, List.reverse_cons]
      rcases hconcat with ⟨before, x, hjoined, hx, htoken, -⟩ | ⟨-, heq⟩
      · exact absurd (h.joins hu htiles hjoined hx htoken) hno
      · rw [heq, h.tokens_eq]
        rfl
    · rw [children_push _ _ hp, if_neg (Nat.ne_of_lt hp), if_pos rfl, Array.back?_push]
    · rw [node_push _ _ hp, if_pos rfl]
      rfl
  | @join p last above _ hj =>
    obtain ⟨x, hx, hlast, htokensLast⟩ := h.built.last_token hj.back hj.isToken
    obtain ⟨before, htokens, hjoin⟩ := tokens_join token hlast hx
    have hblank : x.kind.isBlank = true := by
      obtain ⟨kind, hkind, hblank⟩ := hj.kind
      rw [(TreeNode.token?_eq_some.mp hx).1] at hkind
      cases hkind
      exact hblank
    refine ⟨hbuilt, ?_, fun _ _ _ => ⟨p, above, last, rfl, ?_, ?_⟩⟩
    · rw [tokensIn_token, List.reverse_cons]
      rcases hconcat with ⟨before', x', hjoined, -, -, heq⟩ | ⟨hapart, -⟩
      · rw [hjoin, heq]
        rw [← h.tokens_eq, htokens] at hjoined
        obtain ⟨rfl, hxs⟩ := List.append_inj' hjoined rfl
        cases hxs
        rfl
      · have hlatest := getLast?_joinBlanks (tokensIn history).reverse
        rw [← h.tokens_eq, htokensLast, Option.map_some, hblank] at hlatest
        obtain ⟨u, hu', hublank⟩ := Option.map_eq_some_iff.mp hlatest.symm
        have hfalse := hapart u hu'
        rw [hublank, hj.blank] at hfalse
        cases hfalse
    · rw [children_join]
      exact hj.back
    · rw [node_join _ (hj.lt_size h.built), if_pos rfl]
      rfl

theorem Mirrors.other (h : Mirrors t path history) (hchange : Change t path [] t' path')
    (he : tokensIn [e] = []) : Mirrors t' path' (e :: history) := by
  refine ⟨hchange.built h.built, ?_, ?_⟩
  · rw [hchange.tokens_eq h.built, show e :: history = [e] ++ history from rfl, tokensIn_append,
      he, h.tokens_eq, List.nil_append]
  · rintro token older heq
    cases heq
    cases he

end SourceTree

namespace Transcript

variable {t : Transcript} {file : FileId} {ast : Ast} {later events : List Event} {e : Event}
  {a a' : Assembly} {frames frames' : List Frame} {history : List Event} {stop : Nat}

theorem Step.mirrors (h : t.Step file ast later e a frames a' frames')
    (hm : a.tree.Mirrors (openNodes frames) history) (hu : Unbroken (e :: history))
    (htiles : Tiles 0 (tokensIn (e :: history)).reverse stop) :
    a'.tree.Mirrors (openNodes frames') (e :: history) := by
  have hchange := h.change
  cases e with
  | token token =>
    rw [tokensIn_token, List.reverse_cons] at htiles
    exact hm.record hchange hu htiles
  | start id => exact hm.other hchange rfl
  | stop id => exact hm.other hchange rfl

/-- By induction on the steps. -/
theorem Replays.mirrors (h : t.Replays file ast later events a frames a' frames')
    (hm : a.tree.Mirrors (openNodes frames) history) (hu : Unbroken (events.reverse ++ history))
    (htiles : Tiles 0 (tokensIn (events.reverse ++ history)).reverse stop) :
    a'.tree.Mirrors (openNodes frames') (events.reverse ++ history) := by
  induction h generalizing history with
  | nil => exact hm
  | @cons e events a b c fa fb fc hstep _ ih =>
    have heq : (e :: events).reverse ++ history = events.reverse ++ e :: history := by simp
    rw [heq] at hu htiles ⊢
    have hprefix := htiles
    rw [tokensIn_append, List.reverse_append] at hprefix
    obtain ⟨_, hprefix, -⟩ := Tiles.append_iff.mp hprefix
    exact ih (hstep.mirrors hm hu.of_append hprefix) hu htiles

end Transcript

/-- At the end the root gets the span of its children, which changes no leaves. -/
theorem Assembly.closeNode_tokens {a : Assembly} (h : a.tree.Built [SourceTree.root]) :
    (a.closeNode SourceTree.root).tree.Built [SourceTree.root] ∧
      (a.closeNode SourceTree.root).tree.tokens = a.tree.tokens := by
  have hroot : SourceTree.root < a.tree.size := h.laid.lt_size _ (by simp)
  rcases a.closeNode_tree SourceTree.root with ⟨first, last, -, -, htree⟩ | ⟨-, htree⟩
  · rw [htree]
    refine ⟨?_, SourceTree.tokens_coverChildren hroot (h.inner _ (by simp)) _ _⟩
    exact h.modify (by exact fun _ => rfl) hroot rfl
  · rw [htree]
    exact ⟨h, rfl⟩

/-- However a recording of some tokens came about: if it is complete and has a tree, then the leaves
    of the tree are the tokens, with runs of blanks joined.  So the tree spells every text that
    these tokens cut into pieces. -/
theorem Transcript.tree_spells_text (tokens : List Token) (stop : Nat)
    (htiles : Tiles 0 tokens stop) (marksLeft : Option Nat) (actions : List RecordAction)
    (d : Draft) (hd : (Draft.ofTokens tokens marksLeft).applyAll actions = .ok d)
    (t : Transcript) (ht : d.toTranscript = .ok t) (file : FileId) (ast : Ast) (r : Assembly)
    (hr : t.assemble file ast = .ok r) :
    r.tree.leaves.map (fun leaf => (r.tree.kind leaf, (r.tree.node leaf).span)) =
      (joinBlanks tokens).map (fun token => (.token token.kind, token.span)) ∧
    ∀ text : String, stop = text.utf8ByteSize →
      (∀ token ∈ tokens, Boundary text token.span.start) → r.tree.text text = text := by
  obtain ⟨htokens, hu⟩ := ((Draft.ofTokens_traces tokens marksLeft).applyAll hd).toTranscript ht
  obtain ⟨a, hreplays, rfl⟩ := assemble_ok.mp hr
  have htiles' : Tiles 0 (tokensIn (t.events.reverse ++ [])).reverse stop := by
    simpa [tokensIn_reverse, htokens] using htiles
  have hm := hreplays.mirrors SourceTree.Mirrors.empty (by simpa using hu) htiles'
  have heq : a.tree.tokens = joinBlanks tokens := by
    rw [hm.tokens_eq, List.append_nil, tokensIn_reverse, List.reverse_reverse, htokens]
  obtain ⟨hbuilt, hsame⟩ := Assembly.closeNode_tokens hm.built
  have hleaves := hbuilt.leaves_tokens
  rw [hsame, heq] at hleaves
  refine ⟨hleaves, ?_⟩
  rintro text rfl hcuts
  have hpieces : (a.closeNode SourceTree.root).tree.text text =
      String.join ((joinBlanks tokens).map fun token => token.span.textIn text) := by
    have hspans := congrArg (List.map fun x : TreeKind × Span => x.2.textIn text) hleaves
    rw [List.map_map, List.map_map] at hspans
    exact congrArg String.join hspans
  rw [hpieces]
  have hempty : text = "" ++ text := by
    simp
  have hjoined : Tiles "".utf8ByteSize (joinBlanks tokens) text.utf8ByteSize := htiles.joinBlanks
  apply hjoined.join_textIn hempty
  intro token htoken
  obtain ⟨u, hu', hstart⟩ := exists_of_mem_joinBlanks htoken
  rw [← hstart]
  exact hcuts u hu'

/-- A recording that was begun, taken back and made anew, with a marker put around it afterwards. -/
theorem Transcript.retried_tree_spells_text :
    ∃ d t r,
      (Draft.ofTokens [⟨.whitespace, ⟨0, 1⟩⟩, ⟨.newline, ⟨1, 2⟩⟩, ⟨.ident, ⟨2, 4⟩⟩] none).applyAll
        [.openMarker, .advance, .undo 0, .openMarker, .accept .ident, .closeGroup 1,
          .openBefore 1, .closeGroup 2] = .ok d ∧
      d.toTranscript = .ok t ∧ t.assemble 0 {} = .ok r ∧ r.tree.text " \né" = " \né" := by
  refine ⟨_, _, _, rfl, rfl, rfl, ?_⟩
  have htiles : Tiles 0 [⟨.whitespace, ⟨0, 1⟩⟩, ⟨.newline, ⟨1, 2⟩⟩, ⟨.ident, ⟨2, 4⟩⟩] 4 := by
    simp [Tiles.cons_iff, Tiles.nil_iff]
  refine (tree_spells_text _ 4 htiles none
    [.openMarker, .advance, .undo 0, .openMarker, .accept .ident, .closeGroup 1, .openBefore 1,
      .closeGroup 2] _ rfl _ rfl 0 {} _ rfl).2 " \né" rfl ?_
  intro token htoken
  simp only [List.mem_cons, List.not_mem_nil, or_false] at htoken
  rcases htoken with rfl | rfl | rfl
  · exact ⟨"", " \né", rfl, rfl⟩
  · exact ⟨" ", "\né", rfl, rfl⟩
  · exact ⟨" \n", "é", rfl, rfl⟩

end ScriptAnalysis
