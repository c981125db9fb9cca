import ScriptAnalysis.Proofs.Grammar.Cancellation
import ScriptAnalysis.Proofs.Grammar.Scripts
import ScriptAnalysis.Proofs.Token.Cover
import ScriptAnalysis.Proofs.Tree.ScriptTree
import ScriptAnalysis.Proofs.Workspace.Queries
import ScriptAnalysis.Proofs.Workspace.SharedCache

/-!
# Every text has an analysis

With its own scanner and its own grammar an analyzer finds a tree for every text: the recording of a
script is complete, so that none of the faults of a recording occurs.  An analysis therefore never
holds nothing but the text, and neither does what is cached, however the analyzer came to be in the
state in which it is.
-/

namespace ScriptAnalysis

/-! ### Texts -/

/-- Unless it is cancelled, a parse of any text succeeds, and its tree has the class of the script
    over the whole text. -/
theorem Toolchain.parse_succeeds (globals : Except GlobalsFault Globals) (file : FileId)
    (text : String) :
    ∃ p assembly, ({ globals } : Toolchain).parse file text = .ok (p, assembly) ∧
      parseWith (Script.script text) (scan text) = .ok p ∧
      p.transcript.assemble file p.ast = .ok assembly ∧
      assembly.tree.children SourceTree.root = #[1] ∧
      assembly.tree.kind 1 = .node .classDecl ∧
      (assembly.tree.node 1).span = ⟨0, text.utf8ByteSize⟩ := by
  obtain ⟨p, m, body, last, hparse, htokens, hrecords⟩ :=
    parseWith_script text (scan_endsWithEof text)
  obtain ⟨assembly, hassemble⟩ := hrecords.assemble_succeeds file
  have htiles : Tiles 0 (tokensIn p.transcript.events) text.utf8ByteSize := by
    rw [htokens]
    exact scan_tiles text
  refine ⟨p, assembly, ?_, hparse, hassemble, hrecords.tree htiles hassemble⟩
  unfold Toolchain.parse
  simp only [hparse, hassemble, bind, Except.bind, pure, Except.pure]

/-- A parse that is not cancelled is the whole parse. -/
theorem Toolchain.parse_limited (globals : Except GlobalsFault Globals) (file : FileId)
    (text : String) (marksLeft : Option Nat) :
    ({ globals } : Toolchain).parse file text marksLeft = .error .cancelled ∨
      ({ globals } : Toolchain).parse file text marksLeft =
        ({ globals } : Toolchain).parse file text := by
  unfold parse
  rcases parseWith_limited text (scan text) marksLeft with hcancelled | hsame
  · left
    simp only [hcancelled, bind, Except.bind]
  · right
    simp only [hsame]

/-- If a text is analysed at all, that is its analysis. -/
theorem Toolchain.analyse_limited {globals : Except GlobalsFault Globals} {file : FileId}
    {text : String} {source : SourceFile} {others : ClassLookup} {marksLeft : Option Nat}
    {analysis : Consulted Analysis}
    (h : ({ globals } : Toolchain).analyse file text source others marksLeft = .ok analysis) :
    ({ globals } : Toolchain).analyse file text source others = .ok analysis := by
  unfold analyse at h ⊢
  rcases parse_limited globals file text marksLeft with hcancelled | hsame
  · rw [hcancelled] at h
    cases h
  · rw [hsame] at h
    exact h

/-- If a text is analysed at all, there is a tree for it. -/
theorem Toolchain.analyse_not_degraded {globals : Except GlobalsFault Globals} {file : FileId}
    {text : String} {source : SourceFile} {others : ClassLookup} {marksLeft : Option Nat}
    {analysis : Consulted Analysis}
    (h : ({ globals } : Toolchain).analyse file text source others marksLeft = .ok analysis) :
    analysis.value.degraded = false := by
  obtain ⟨p, assembly, hparse, -⟩ := parse_succeeds globals file text
  have hwhole := analyse_limited h
  unfold analyse at hwhole
  rw [hparse] at hwhole
  cases hwhole
  rfl

/-- What is not cancelled is analysed. -/
theorem Toolchain.analyse_succeeds (globals : Except GlobalsFault Globals) (file : FileId)
    (text : String) (source : SourceFile) (others : ClassLookup) :
    ∃ analysis, ({ globals } : Toolchain).analyse file text source others = .ok analysis := by
  obtain ⟨p, assembly, hparse, -⟩ := parse_succeeds globals file text
  unfold analyse
  rw [hparse]
  exact ⟨_, rfl⟩

/-! ### What is cached -/

namespace RecencyCache

variable {α : Type} {c : RecencyCache α} {P : α → Prop}

/-- All values of a cache, whose entries are in a definite order, have a property. -/
def All (c : RecencyCache α) (P : α → Prop) : Prop :=
  ∃ m : RecencyList α, c.Refines m ∧ ∀ h ∈ m, P h.value

theorem All.empty : (empty : RecencyCache α).All P := ⟨[], .empty, by simp⟩

theorem All.access (hc : c.All P) (file : FileId) (wanted : String → Bool) :
    (∀ value, (c.access file wanted).1 = some value → P value) ∧
      (c.access file wanted).2.All P := by
  obtain ⟨m, hm, hP⟩ := hc
  obtain ⟨hanswer, hrefines⟩ := hm.access file wanted
  rw [hanswer]
  rcases m.access_cases file wanted with ⟨h, hmem, -, -, heq⟩ | heq
  · rw [heq] at hrefines ⊢
    refine ⟨?_, _, hrefines, ?_⟩
    · intro value hvalue
      cases hvalue
      exact hP h hmem
    · intro g hg
      rcases List.mem_append.mp hg with hg | hg
      · exact hP g (RecencyList.mem_without.mp hg).1
      · rw [List.mem_singleton.mp hg]
        exact hP h hmem
  · rw [heq] at hrefines ⊢
    refine ⟨?_, m, hrefines, hP⟩
    intro value hvalue
    cases hvalue

theorem All.insert (hc : c.All P) (file : FileId) (text : String) {value : α} (hvalue : P value) :
    (c.insert file text value).All P := by
  obtain ⟨m, hm, hP⟩ := hc
  refine ⟨_, hm.insert file text value, ?_⟩
  intro h hh
  rcases List.mem_append.mp hh with hh | hh
  · exact hP h (RecencyList.mem_without.mp hh).1
  · rw [List.mem_singleton.mp hh]
    exact hvalue

theorem All.trim (hc : c.All P) (capacity : Option Nat) : (c.trim capacity).All P := by
  obtain ⟨m, hm, hP⟩ := hc
  refine ⟨_, hm.trim capacity, ?_⟩
  intro h hh
  cases capacity with
  | none => exact hP h hh
  | some capacity => exact hP h (List.mem_of_mem_drop hh)

theorem All.erase (hc : c.All P) (file : FileId) : (c.erase file).All P := by
  obtain ⟨m, hm, hP⟩ := hc
  exact ⟨_, hm.erase file, fun h hh => hP h (RecencyList.mem_without.mp hh).1⟩

theorem All.clear (c : RecencyCache α) : c.clear.All P := ⟨[], .clear c, by simp⟩

theorem All.keep (hc : c.All P) (policy : CachePolicy) (file : FileId) (text : String) {value : α}
    (hvalue : P value) :
    P (c.keep policy file text value).1 ∧ (c.keep policy file text value).2.All P := by
  unfold RecencyCache.keep
  split
  · obtain ⟨hfound, hused⟩ := hc.access file (· == text)
    unfold store getFor
    cases haccess : c.access file (· == text) with
    | mk found used =>
      rw [haccess] at hfound hused
      cases found with
      | some other => exact ⟨hfound other rfl, hused⟩
      | none => exact ⟨hvalue, (hused.insert file text hvalue).trim _⟩
  · exact ⟨hvalue, hc⟩

end RecencyCache

/-! ### Analyzers in use -/

namespace Analyzer

/-- The states in which an analyzer may be that began with an empty cache, and the analyses that
    were made since.  Many may use it at once: each constructor is what one of them does without
    being interrupted by the others, and an analysis may be stored at any time after it was made. -/
inductive Reachable (globals : Except GlobalsFault Globals) (policy : CachePolicy) :
    Analyzer → List (FileId × String × Snapshot) → Prop
  | start : Reachable globals policy { toolchain := { globals }, policy } []
  | setSources {a made} (sources : Sources) :
      Reachable globals policy a made → Reachable globals policy { a with sources } made
  | cached {a made} (file : FileId) :
      Reachable globals policy a made →
      Reachable globals policy ((Query.cached file).run.run a).2 made
  | cachedFor {a made} (file : FileId) (text : String) :
      Reachable globals policy a made →
      Reachable globals policy ((Query.cachedFor file text).run.run a).2 made
  | invalidate {a made} (file : FileId) :
      Reachable globals policy a made →
      Reachable globals policy ((Query.invalidate file).run.run a).2 made
  | clear {a made} :
      Reachable globals policy a made → Reachable globals policy (Query.clear.run.run a).2 made
  | consult {a made} {α : Type} (file : FileId) (ask : ClassLookup → Consulted α) :
      Reachable globals policy a made →
      Reachable globals policy ((Query.consult file ask).run.run a).2 made
  | make {a made a' snapshot} (file : FileId) (text : String) (marksLeft : Option Nat) :
      Reachable globals policy a made →
      (Query.make file text marksLeft).run.run a = (.ok snapshot, a') →
      Reachable globals policy a' ((file, text, snapshot) :: made)
  | makeDetached {a made a' snapshot} (file : FileId) (text : String) :
      Reachable globals policy a made →
      (Query.makeDetached file text).run.run a = (.ok snapshot, a') →
      Reachable globals policy a' ((file, text, snapshot) :: made)
  | keep {a made} (file : FileId) (text : String) (snapshot : Snapshot) :
      Reachable globals policy a made → (file, text, snapshot) ∈ made →
      Reachable globals policy ((Query.keep file text snapshot).run.run a).2 made

variable {globals : Except GlobalsFault Globals} {policy : CachePolicy} {a a' : Analyzer}
  {made : List (FileId × String × Snapshot)} {file : FileId} {text : String} {snapshot : Snapshot}

/-- The analyzer has the scanner and the grammar of its own, and trees of all texts that it has
    cached. -/
structure Intact (globals : Except GlobalsFault Globals) (a : Analyzer) : Prop where
  toolchain : a.toolchain = { globals }
  cached : a.cache.All fun s => s.analysis.degraded = false

theorem Intact.noteUses (h : a.Intact globals) (others : List OtherFile)
    (asked : List ClassQuery) : (a.noteUses others asked).Intact globals := by
  refine ⟨h.toolchain, ?_⟩
  unfold Analyzer.noteUses
  dsimp only
  have hcached := h.cached
  generalize a.cache = c at hcached
  induction asked.flatMap (OtherFile.lookedInto others) generalizing c with
  | nil => exact hcached
  | cons other used ih => exact ih _ (hcached.access other.file (· == other.source.text)).2

theorem Intact.make (h : a.Intact globals) {marksLeft : Option Nat}
    (hrun : (Query.make file text marksLeft).run.run a = (.ok snapshot, a')) :
    snapshot.analysis.degraded = false ∧ a'.Intact globals := by
  rw [Query.run_make, h.toolchain] at hrun
  split at hrun
  · next analysis hanalysis =>
    cases hrun
    have hnoted := h.noteUses (a.othersOf file) analysis.asked
    exact ⟨Toolchain.analyse_not_degraded hanalysis, hnoted.toolchain, hnoted.cached⟩
  · cases hrun

/-- Unless it is cancelled an analysis is made. -/
theorem make_succeeds (h : a.toolchain = { globals }) (file : FileId) (text : String) :
    ∃ s a', (Query.make file text).run.run a = (.ok s, a') := by
  obtain ⟨analysis, hanalysis⟩ := Toolchain.analyse_succeeds globals file text
    ((a.sources.get? file).getD (.detached text)) (OtherFile.lookup (a.othersOf file))
  rw [← h] at hanalysis
  rw [Query.run_make, hanalysis]
  exact ⟨_, _, rfl⟩

theorem put_succeeds (h : a.toolchain = { globals }) (file : FileId) (text : String) :
    ∃ s a', (Query.put file text).run.run a = (.ok s, a') := by
  rw [Query.run_put]
  split
  · exact ⟨_, _, rfl⟩
  · next cache hget =>
    obtain ⟨s, a', hmake⟩ := make_succeeds (a := { a with cache }) h file text
    rw [hmake]
    exact ⟨_, _, Query.run_keep a' file text s⟩

theorem Intact.makeDetached (h : a.Intact globals)
    (hrun : (Query.makeDetached file text).run.run a = (.ok snapshot, a')) :
    snapshot.analysis.degraded = false ∧ a'.Intact globals := by
  rw [Query.run_makeDetached, h.toolchain] at hrun
  split at hrun
  · next hanalysis =>
    cases hrun
    exact ⟨Toolchain.analyse_not_degraded hanalysis, rfl, h.cached⟩
  · cases hrun

theorem Intact.keep (h : a.Intact globals) (file : FileId) (text : String)
    (hs : snapshot.analysis.degraded = false) :
    ∃ valid a', (Query.keep file text snapshot).run.run a = (.ok valid, a') ∧
      valid.analysis.degraded = false ∧ a'.Intact globals := by
  obtain ⟨hvalid, hcached⟩ := h.cached.keep a.policy file text hs
  exact ⟨_, _, Query.run_keep a file text snapshot, hvalid, h.toolchain, hcached⟩

/-- By induction on the steps. -/
theorem Reachable.intact (h : Reachable globals policy a made) :
    a.Intact globals ∧ ∀ x ∈ made, x.2.2.analysis.degraded = false := by
  induction h with
  | start => exact ⟨⟨rfl, .empty⟩, by simp⟩
  | setSources sources _ ih => exact ⟨⟨ih.1.toolchain, ih.1.cached⟩, ih.2⟩
  | cached file _ ih =>
    exact ⟨⟨ih.1.toolchain, (ih.1.cached.access file fun _ => true).2⟩, ih.2⟩
  | cachedFor file text _ ih =>
    exact ⟨⟨ih.1.toolchain, (ih.1.cached.access file (· == text)).2⟩, ih.2⟩
  | invalidate file _ ih => exact ⟨⟨ih.1.toolchain, ih.1.cached.erase file⟩, ih.2⟩
  | clear _ ih => exact ⟨⟨ih.1.toolchain, .clear _⟩, ih.2⟩
  | consult file ask _ ih =>
    rw [Query.run_consult]
    exact ⟨ih.1.noteUses _ _, ih.2⟩
  | make file text marksLeft _ hrun ih =>
    obtain ⟨hs, hintact⟩ := ih.1.make hrun
    refine ⟨hintact, ?_⟩
    intro x hx
    rcases List.mem_cons.mp hx with rfl | hx
    · exact hs
    · exact ih.2 x hx
  | makeDetached file text _ hrun ih =>
    obtain ⟨hs, hintact⟩ := ih.1.makeDetached hrun
    refine ⟨hintact, ?_⟩
    intro x hx
    rcases List.mem_cons.mp hx with rfl | hx
    · exact hs
    · exact ih.2 x hx
  | keep file text snapshot _ hmem ih =>
    obtain ⟨_, _, hrun, -, hintact⟩ := ih.1.keep file text (ih.2 _ hmem)
    rw [hrun]
    exact ⟨hintact, ih.2⟩

/-- An answer leaves an analyzer in one of these states, and so does one that is cancelled. -/
theorem Reachable.put (h : Reachable globals policy a made) (file : FileId) (text : String)
    (marksLeft : Option Nat) :
    ∃ made', Reachable globals policy ((Query.put file text marksLeft).run.run a).2 made' := by
  have hasked : Reachable globals policy { a with cache := (a.cache.getFor file text).2 } made :=
    .cachedFor file text h
  rw [Query.run_put]
  cases hget : a.cache.getFor file text with
  | mk found cache =>
    rw [hget] at hasked
    cases found with
    | some valid => exact ⟨made, hasked⟩
    | none =>
      dsimp only
      cases hmake : (Query.make file text marksLeft).run.run { a with cache } with
      | mk answer a' =>
        cases answer with
        | ok s => exact ⟨_, .keep file text s (.make file text marksLeft hasked hmake) (by simp)⟩
        | error e =>
          obtain rfl := Query.run_make_error hmake
          exact ⟨made, hasked⟩

theorem Intact.put (h : a.Intact globals) (file : FileId) (text : String) :
    ∃ s a', (Query.put file text).run.run a = (.ok s, a') ∧ s.analysis.degraded = false := by
  obtain ⟨hfound, hcached⟩ := h.cached.access file (· == text)
  rw [Query.run_put]
  unfold RecencyCache.getFor
  cases haccess : a.cache.access file (· == text) with
  | mk found cache =>
    rw [haccess] at hfound hcached
    cases found with
    | some s => exact ⟨s, _, rfl, hfound s rfl⟩
    | none =>
      have hmissed : Intact globals { a with cache } := ⟨h.toolchain, hcached⟩
      obtain ⟨s, a', hmake⟩ := make_succeeds hmissed.toolchain file text
      obtain ⟨hs, hintact⟩ := hmissed.make hmake
      obtain ⟨valid, a'', hkeep, hvalid, -⟩ := hintact.keep file text hs
      dsimp only
      rw [hmake]
      exact ⟨valid, a'', hkeep, hvalid⟩

end Analyzer

/-- No text, however broken, leads to a fault: its tokens are parsed and the recording becomes a
    tree whose root has one child, the class of the script, over the whole text.  So an analyzer
    answers every text by an analysis that has a tree, whatever it was used for before. -/
theorem Analyzer.every_text_has_tree (globals : Except GlobalsFault Globals)
    (policy : CachePolicy) (file : FileId) (text : String) :
    (∃ p assembly,
      parseWith (Script.script text) (scan text) = .ok p ∧
      p.transcript.assemble file p.ast = .ok assembly ∧
      assembly.tree.children SourceTree.root = #[1] ∧
      assembly.tree.kind 1 = .node .classDecl ∧
      (assembly.tree.node 1).span = ⟨0, text.utf8ByteSize⟩) ∧
    ∀ a made, Analyzer.Reachable globals policy a made →
      ∃ s a', (Query.put file text).run.run a = (.ok s, a') ∧ s.analysis.degraded = false := by
  constructor
  · obtain ⟨p, assembly, -, htree⟩ := Toolchain.parse_succeeds globals file text
    exact ⟨p, assembly, htree⟩
  · intro a made hreachable
    exact hreachable.intact.1.put file text

/-- An analyzer that was asked for nothing yet answers this broken text. -/
theorem Analyzer.broken_text_has_tree :
    ∃ s a', (Query.put 3 "\x7d\x7b a ->").run.run {} = (.ok s, a') ∧ s.analysis.degraded = false :=
  (every_text_has_tree (.ok .empty) {} 3 "\x7d\x7b a ->").2 {} [] .start

end ScriptAnalysis
