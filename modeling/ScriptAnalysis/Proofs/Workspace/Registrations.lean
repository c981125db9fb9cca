import ScriptAnalysis.Proofs.Scope.Header
import ScriptAnalysis.Proofs.Workspace.Reachable

/-!
# How other files are described

A file answers for its classes by its cached analysis where that is one of its text.  Such an
analysis has the classes as they were under the registration at the time at which it was made.  So
the answer is the one without a cache as long as that registration had the name that the file has
now, and a package; a file that is registered anew with its text unchanged answers as it did before.
-/

namespace ScriptAnalysis

/-! ### What is found in a cache -/

namespace RecencyCache

variable {α : Type} {c : RecencyCache α} {P : FileId → String → α → Prop}

/-- Whatever is found for a file and a text has a property. -/
def Offers (c : RecencyCache α) (P : FileId → String → α → Prop) : Prop :=
  ∀ file text value, c.peek file text = some value → P file text value

theorem peek_empty (file : FileId) (text : String) :
    (empty : RecencyCache α).peek file text = none := rfl

theorem Offers.of_peek_eq {c' : RecencyCache α} (hc : c.Offers P) (h : c'.peek = c.peek) :
    c'.Offers P := by
  unfold Offers
  rw [h]
  exact hc

theorem peek_access (c : RecencyCache α) (file : FileId) (wanted : String → Bool) :
    (c.access file wanted).2.peek = c.peek := by
  funext other text
  unfold access
  cases hentry : c.entries[file]? with
  | none => rfl
  | some entry =>
    dsimp only
    split
    · unfold peek
      dsimp only
      rw [Std.TreeMap.getElem?_insert]
      by_cases hsame : compare file other = .eq
      · rw [if_pos hsame, ← Std.LawfulEqCmp.eq_of_compare hsame, hentry]
      · rw [if_neg hsame]
    · rfl

theorem access_getFor (c : RecencyCache α) (file : FileId) (text : String) :
    (c.getFor file text).1 = c.peek file text := by
  unfold getFor access peek
  cases c.entries[file]? with
  | none => rfl
  | some entry =>
    dsimp only
    by_cases htext : entry.text = text
    · rw [if_pos (by simpa using htext), if_pos htext]
    · rw [if_neg (by simpa using htext), if_neg htext]

theorem Offers.erase (hc : c.Offers P) (file : FileId) : (c.erase file).Offers P := by
  intro other text value hpeek
  refine hc other text value ?_
  unfold RecencyCache.erase peek at hpeek
  dsimp only at hpeek
  rw [Std.TreeMap.getElem?_erase] at hpeek
  by_cases hsame : compare file other = .eq
  · rw [if_pos hsame] at hpeek
    cases hpeek
  · rw [if_neg hsame] at hpeek
    exact hpeek

theorem Offers.trim (hc : c.Offers P) (capacity : Option Nat) : (c.trim capacity).Offers P := by
  cases capacity with
  | none => exact hc
  | some capacity =>
    unfold RecencyCache.trim
    dsimp only
    induction c.size - capacity with
    | zero => exact hc
    | succ n ih =>
      unfold Nat.repeat dropOldest
      split
      · exact ih
      · exact ih.erase _

theorem Offers.insert (hc : c.Offers P) {file : FileId} {text : String} {value : α}
    (hvalue : P file text value) : (c.insert file text value).Offers P := by
  intro other wanted found hpeek
  unfold RecencyCache.insert peek at hpeek
  dsimp only at hpeek
  rw [Std.TreeMap.getElem?_insert] at hpeek
  by_cases hsame : compare file other = .eq
  · obtain rfl := Std.LawfulEqCmp.eq_of_compare hsame
    rw [if_pos hsame] at hpeek
    dsimp only at hpeek
    split at hpeek
    · next htext =>
      cases hpeek
      exact htext ▸ hvalue
    · cases hpeek
  · rw [if_neg hsame] at hpeek
    exact hc other wanted found hpeek

theorem Offers.keep (hc : c.Offers P) (policy : CachePolicy) {file : FileId} {text : String}
    {value : α} (hvalue : P file text value) : (c.keep policy file text value).2.Offers P := by
  have hused : (c.getFor file text).2.Offers P := hc.of_peek_eq (peek_access c file (· == text))
  unfold RecencyCache.keep
  split
  · unfold store
    cases hget : c.getFor file text with
    | mk found used =>
      rw [hget] at hused
      cases found with
      | some other => exact hused
      | none => exact (hused.insert hvalue).trim _
  · exact hc

theorem Offers.answer_keep (hc : c.Offers P) (policy : CachePolicy) {file : FileId} {text : String}
    {value : α} (hvalue : P file text value) : P file text (c.keep policy file text value).1 := by
  unfold RecencyCache.keep
  split
  · have hanswer := access_getFor c file text
    unfold store
    cases hget : c.getFor file text with
    | mk found used =>
      rw [hget] at hanswer
      cases found with
      | some other => exact hc file text other hanswer.symm
      | none => exact hvalue
  · exact hvalue

end RecencyCache

/-! ### Registrations -/

namespace Toolchain

/-- The classes that an analysis under a registration finds in a text: none outside every place for
    scripts. -/
def classesUnder (t : Toolchain) (file : FileId) (text : String) (registration : SourceFile) :
    List ClassSummary :=
  if registration.package.isNone then [] else t.describe file text registration.name

theorem analyse_classes {globals : Except GlobalsFault Globals} {file : FileId} {text : String}
    {registration : SourceFile} {others : ClassLookup} {marksLeft : Option Nat}
    {analysis : Consulted Analysis}
    (h : ({ globals } : Toolchain).analyse file text registration others marksLeft = .ok analysis) :
    analysis.value.resolution.classes =
      ({ globals } : Toolchain).classesUnder file text registration := by
  obtain ⟨p, assembly, hparse, -⟩ := parse_succeeds globals file text
  have hwhole := analyse_limited h
  unfold analyse at hwhole
  rw [hparse] at hwhole
  cases hwhole
  unfold classesUnder describe
  rw [hparse]
  cases registration with
  | mk name package own =>
    cases package with
    | none => rfl
    | some package => exact ResolveInput.resolve_classes _

end Toolchain

/-- What may be done with a workspace. -/
inductive WorkspaceAction where
  | insert (file : FileId) (source : SourceFile)
  | remove (file : FileId)
  | setText (file : FileId) (text : String)
  | put (file : FileId) (text : String) (marksLeft : Option Nat)

/-- An analyzer, and the registration under which each text of a file was last analysed. -/
structure Workspace where
  analyzer : Analyzer
  analysedAs : FileId → String → Option SourceFile := fun _ _ => none

namespace Workspace

/-- Asks for the analysis of a text.  One was made if the number of analyses has changed. -/
def put (w : Workspace) (file : FileId) (text : String) (marksLeft : Option Nat) : Workspace :=
  let analyzer := ((Query.put file text marksLeft).run.run w.analyzer).2
  let registration := (w.analyzer.sources.get? file).getD (.detached text)
  if analyzer.made = w.analyzer.made then { w with analyzer }
  else
    { analyzer
      analysedAs := fun other otherText =>
        if other = file ∧ otherText = text then some registration
        else w.analysedAs other otherText }

def withSources (w : Workspace) (sources : Sources) : Workspace :=
  { w with analyzer := { w.analyzer with sources } }

def perform (w : Workspace) : WorkspaceAction → Workspace
  | .insert file source => w.withSources (w.analyzer.sources.insert file source)
  | .remove file => w.withSources (w.analyzer.sources.erase file)
  | .setText file text => w.withSources (w.analyzer.sources.setText file text)
  | .put file text marksLeft => w.put file text marksLeft

/-- A workspace that began without files and without analyses. -/
def after (globals : Except GlobalsFault Globals) (policy : CachePolicy)
    (actions : List WorkspaceAction) : Workspace :=
  actions.foldl perform { analyzer := { toolchain := { globals }, policy } }

/-- The registration under which the analysis was made that is cached for a text of a file. -/
def cachedAs (w : Workspace) (file : FileId) (text : String) : Option SourceFile :=
  if (w.analyzer.cache.peek file text).isSome then w.analysedAs file text else none

/-- Every cached analysis has the classes of its text under the registration at the time. -/
structure Consistent (globals : Except GlobalsFault Globals) (w : Workspace) : Prop where
  toolchain : w.analyzer.toolchain = { globals }
  cached : w.analyzer.cache.Offers fun file text snapshot =>
    ∃ registration, w.analysedAs file text = some registration ∧
      snapshot.analysis.resolution.classes =
        ({ globals } : Toolchain).classesUnder file text registration

variable {globals : Except GlobalsFault Globals} {policy : CachePolicy} {w : Workspace}

theorem peek_noteUses (a : Analyzer) (others : List OtherFile) (asked : List ClassQuery) :
    (a.noteUses others asked).cache.peek = a.cache.peek := by
  unfold Analyzer.noteUses
  dsimp only
  generalize a.cache = c
  induction asked.flatMap (OtherFile.lookedInto others) generalizing c with
  | nil => rfl
  | cons other used ih =>
    exact (ih _).trans (RecencyCache.peek_access c other.file (· == other.source.text))

/-- What a new analysis is made of, and that it is noted. -/
theorem run_make_classes {a a' : Analyzer} (htoolchain : a.toolchain = { globals })
    {file : FileId} {text : String} {marksLeft : Option Nat} {snapshot : Snapshot}
    (hrun : (Query.make file text marksLeft).run.run a = (.ok snapshot, a')) :
    snapshot.analysis.resolution.classes =
        ({ globals } : Toolchain).classesUnder file text
          ((a.sources.get? file).getD (.detached text)) ∧
      a'.toolchain = { globals } ∧ a'.cache.peek = a.cache.peek ∧ a'.made = a.made + 1 := by
  rw [Query.run_make, htoolchain] at hrun
  split at hrun
  · next analysis hanalysis =>
    cases hrun
    exact ⟨Toolchain.analyse_classes hanalysis, htoolchain, peek_noteUses _ _ _, rfl⟩
  · cases hrun

/-- An action that neither makes nor drops an analysis. -/
theorem Consistent.of_peek_eq {a : Analyzer} (h : w.Consistent globals)
    (htoolchain : a.toolchain = { globals }) (hpeek : a.cache.peek = w.analyzer.cache.peek) :
    Consistent globals { w with analyzer := a } := ⟨htoolchain, h.cached.of_peek_eq hpeek⟩

/-- An analysis that is made goes by the registration of its file, and that is noted for its text
    before it is cached. -/
theorem Consistent.keep {a : Analyzer} (h : w.Consistent globals)
    (htoolchain : a.toolchain = { globals }) (hpeek : a.cache.peek = w.analyzer.cache.peek)
    {file : FileId} {text : String} (hmissed : w.analyzer.cache.peek file text = none)
    {snapshot : Snapshot} {registration : SourceFile}
    (hclasses : snapshot.analysis.resolution.classes =
      ({ globals } : Toolchain).classesUnder file text registration) :
    Consistent globals
      { analyzer := ((Query.keep file text snapshot).run.run a).2
        analysedAs := fun other otherText =>
          if other = file ∧ otherText = text then some registration
          else w.analysedAs other otherText } := by
  rw [Query.run_keep]
  refine ⟨htoolchain, RecencyCache.Offers.keep ?_ _ ⟨registration, if_pos ⟨rfl, rfl⟩, hclasses⟩⟩
  intro other otherText found hfound
  by_cases hsame : other = file ∧ otherText = text
  · rw [hpeek, hsame.1, hsame.2, hmissed] at hfound
    cases hfound
  · obtain ⟨registration', hnoted, hold⟩ := h.cached.of_peek_eq hpeek other otherText found hfound
    exact ⟨registration', (if_neg hsame).trans hnoted, hold⟩

theorem Consistent.put (h : w.Consistent globals) (file : FileId) (text : String)
    (marksLeft : Option Nat) : (w.put file text marksLeft).Consistent globals := by
  have hanswer := RecencyCache.access_getFor w.analyzer.cache file text
  have hused : (w.analyzer.cache.getFor file text).2.peek = w.analyzer.cache.peek :=
    RecencyCache.peek_access _ _ _
  unfold Workspace.put
  rw [Query.run_put]
  cases hget : w.analyzer.cache.getFor file text with
  | mk found used =>
    rw [hget] at hanswer hused
    cases found with
    | some snapshot =>
      dsimp only
      rw [if_pos rfl]
      exact h.of_peek_eq h.toolchain hused
    | none =>
      dsimp only
      cases hmake : (Query.make file text marksLeft).run.run { w.analyzer with cache := used } with
      | mk answer a' =>
        cases answer with
        | error e =>
          obtain rfl := Query.run_make_error hmake
          dsimp only
          rw [if_pos rfl]
          exact h.of_peek_eq h.toolchain hused
        | ok snapshot =>
          obtain ⟨hclasses, htoolchain, hpeek, hmade⟩ :=
            run_make_classes (a := { w.analyzer with cache := used }) h.toolchain hmake
          have hnew : ((Query.keep file text snapshot).run.run a').2.made ≠ w.analyzer.made := by
            rw [Query.run_keep]
            dsimp only at hmade ⊢
            omega
          dsimp only
          rw [if_neg hnew]
          exact h.keep htoolchain (hpeek.trans hused) hanswer.symm hclasses

theorem reachable_perform {made : List (FileId × String × Snapshot)}
    (h : Analyzer.Reachable globals policy w.analyzer made) (action : WorkspaceAction) :
    ∃ made', Analyzer.Reachable globals policy (w.perform action).analyzer made' := by
  cases action with
  | insert file source => exact ⟨made, .setSources _ h⟩
  | remove file => exact ⟨made, .setSources _ h⟩
  | setText file text => exact ⟨made, .setSources _ h⟩
  | put file text marksLeft =>
    show ∃ made', Analyzer.Reachable globals policy (w.put file text marksLeft).analyzer made'
    unfold Workspace.put
    dsimp only
    split
    · exact h.put file text marksLeft
    · exact h.put file text marksLeft

theorem Consistent.perform (h : w.Consistent globals) (action : WorkspaceAction) :
    (w.perform action).Consistent globals := by
  cases action with
  | insert file source => exact ⟨h.toolchain, h.cached⟩
  | remove file => exact ⟨h.toolchain, h.cached⟩
  | setText file text => exact ⟨h.toolchain, h.cached⟩
  | put file text marksLeft => exact h.put file text marksLeft

theorem consistent_after (globals : Except GlobalsFault Globals) (policy : CachePolicy)
    (actions : List WorkspaceAction) : (after globals policy actions).Consistent globals := by
  unfold after
  have hstart : Consistent globals { analyzer := { toolchain := { globals }, policy } } :=
    ⟨rfl, fun _ _ _ hpeek => by cases hpeek⟩
  generalize ({ analyzer := { toolchain := { globals }, policy } } : Workspace) = w at hstart
  induction actions generalizing w with
  | nil => exact hstart
  | cons action actions ih => exact ih _ (hstart.perform action)

/-- Whatever is done in a workspace, its analyzer is in a state in which analyzers may be. -/
theorem reachable_after (globals : Except GlobalsFault Globals) (policy : CachePolicy)
    (actions : List WorkspaceAction) :
    ∃ made, Analyzer.Reachable globals policy (after globals policy actions).analyzer made := by
  unfold after
  have hstart : ∃ made, Analyzer.Reachable globals policy
      { toolchain := { globals }, policy } made := ⟨[], .start⟩
  generalize hw : ({ analyzer := { toolchain := { globals }, policy } } : Workspace) = w
  replace hstart : ∃ made, Analyzer.Reachable globals policy w.analyzer made := hw ▸ hstart
  clear hw
  induction actions generalizing w with
  | nil => exact hstart
  | cons action actions ih =>
    obtain ⟨made, hmade⟩ := hstart
    exact ih _ (reachable_perform hmade action)

/-! ### Descriptions -/

/-- A file is described under the registration of its cached analysis, if there is one of its text,
    and otherwise under the name that it has. -/
theorem Consistent.describe (h : w.Consistent globals) (file : FileId) (source : SourceFile) :
    w.analyzer.describe file source =
      match w.cachedAs file source.text with
      | some registration =>
        ({ globals } : Toolchain).classesUnder file source.text registration
      | none => ({ globals } : Toolchain).describe file source.text source.name := by
  unfold Analyzer.describe cachedAs
  cases hpeek : w.analyzer.cache.peek file source.text with
  | none => exact congrArg (fun t => Toolchain.describe t file source.text source.name) h.toolchain
  | some snapshot =>
    obtain ⟨registration, hnoted, hclasses⟩ := h.cached file source.text snapshot hpeek
    dsimp only [Option.isSome_some]
    rw [if_pos rfl, hnoted]
    exact hclasses

end Workspace

namespace OtherFile

/-- Files with the classes that they are said to have. -/
def saying (classes : FileId → SourceFile → List ClassSummary)
    (files : List (FileId × SourceFile)) : List OtherFile :=
  files.map fun (file, source) => ⟨file, source, Thunk.mk fun _ => classes file source⟩

variable {classes classes' : FileId → SourceFile → List ClassSummary}
  {files : List (FileId × SourceFile)}

theorem package_of_mayDeclare {source : SourceFile} {fullName : String}
    (h : source.mayDeclare fullName = true) : source.package ≠ none := by
  intro hnone
  unfold SourceFile.mayDeclare at h
  rw [hnone] at h
  cases h

/-- Only files that have a package are asked. -/
theorem lookup_congr (h : ∀ entry ∈ files, entry.2.package ≠ none →
      classes entry.1 entry.2 = classes' entry.1 entry.2) :
    lookup (saying classes files) = lookup (saying classes' files) := by
  have hnamed (fullName : String) :
      (candidates (saying classes files) fullName).findSome? (·.class? fullName) =
        (candidates (saying classes' files) fullName).findSome? (·.class? fullName) := by
    unfold candidates saying
    rw [List.filter_map, List.filter_map, List.findSome?_map, List.findSome?_map,
      ← List.head?_filterMap, ← List.head?_filterMap]
    refine congrArg List.head? (List.filterMap_congr fun entry hentry => ?_)
    obtain ⟨hmem, hasked⟩ := List.mem_filter.mp hentry
    exact congrArg (List.find? _) (h entry hmem (package_of_mayDeclare hasked))
  have hpackage (package : String) :
      (ofPackage (saying classes files) package).flatMap topClasses =
        (ofPackage (saying classes' files) package).flatMap topClasses := by
    unfold ofPackage saying
    rw [List.filter_map, List.filter_map, List.flatMap_map, List.flatMap_map]
    refine List.flatMap_congr fun entry hentry => ?_
    obtain ⟨hmem, hasked⟩ := List.mem_filter.mp hentry
    have hsome : entry.2.package ≠ none := by
      intro hnone
      simp only [Function.comp_apply, hnone] at hasked
      cases hasked
    exact congrArg (List.filter _) (h entry hmem hsome)
  have hlimit : (saying classes files).foldl (fun n other => n + other.source.text.utf8ByteSize + 1)
      0 = (saying classes' files).foldl (fun n other =>
        n + other.source.text.utf8ByteSize + 1) 0 := by
    unfold saying
    rw [List.foldl_map, List.foldl_map]
  unfold lookup
  rw [funext hnamed, funext hpackage, hlimit]

end OtherFile

/-- The lookup from a file is the one without a cache, if all other files are described alike. -/
theorem Analyzer.lookup_othersOf (a : Analyzer) (file : FileId)
    (h : ∀ other source, a.sources.get? other = some source → source.package ≠ none →
      a.describe other source = a.toolchain.describe other source.text source.name) :
    OtherFile.lookup (a.othersOf file) =
      OtherFile.lookup (Analyzer.othersOf { a with cache := .empty } file) := by
  refine OtherFile.lookup_congr fun entry hentry hpackage => ?_
  have hmem := (List.mem_filter.mp hentry).1
  exact h entry.1 entry.2 (Std.TreeMap.mem_toList_iff_getElem?_eq_some.mp hmem) hpackage

namespace Workspace

variable (globals : Except GlobalsFault Globals) (policy : CachePolicy)
  (actions : List WorkspaceAction)

/-- However files were registered, edited and analysed: a registered file is described under the
    registration of its cached analysis, if there is one of its text, else under its name.  As long
    as every such registration has the name that the file has now, and a package, the cache makes
    no difference to the description of any file nor to what is found from any file. -/
theorem described_as_analysed {w : Workspace} (hafter : w = after globals policy actions) :
    (∀ file source, w.analyzer.sources.get? file = some source → source.package ≠ none →
      w.analyzer.describe file source =
        match w.cachedAs file source.text with
        | some registration =>
          if registration.package.isNone then []
          else ({ globals } : Toolchain).describe file source.text registration.name
        | none => ({ globals } : Toolchain).describe file source.text source.name) ∧
    ((∀ file source registration, w.analyzer.sources.get? file = some source →
        source.package ≠ none → w.cachedAs file source.text = some registration →
        registration.name = source.name ∧ registration.package ≠ none) →
      ∀ file,
        (∀ source, w.analyzer.sources.get? file = some source → source.package ≠ none →
          w.analyzer.describe file source =
            ({ globals } : Toolchain).describe file source.text source.name) ∧
        OtherFile.lookup (w.analyzer.othersOf file) =
          OtherFile.lookup (Analyzer.othersOf { w.analyzer with cache := .empty } file)) := by
  have hw : w.Consistent globals := hafter ▸ consistent_after globals policy actions
  refine ⟨fun file source _ _ => hw.describe file source, ?_⟩
  intro hsame
  have halike (file : FileId) (source : SourceFile)
      (hsource : w.analyzer.sources.get? file = some source) (hpackage : source.package ≠ none) :
      w.analyzer.describe file source =
        ({ globals } : Toolchain).describe file source.text source.name := by
    rw [hw.describe]
    cases hcached : w.cachedAs file source.text with
    | none => rfl
    | some registration =>
      obtain ⟨hname, hplace⟩ := hsame file source registration hsource hpackage hcached
      dsimp only [Toolchain.classesUnder]
      rw [if_neg (by simpa using hplace), hname]
  intro file
  refine ⟨halike file, w.analyzer.lookup_othersOf file ?_⟩
  rw [hw.toolchain]
  exact halike

/-- A file with a class besides that of its script. -/
def fooFile : SourceFile := ⟨"Foo", some "", "class A \x7b \x7d"⟩

/-- A file that was registered and then analysed is found from another one as without a cache. -/
theorem registered_file_found_as_without_cache :
    ∃ w, w = after (.ok .empty) {} [.insert 1 fooFile, .put 1 fooFile.text none] ∧
      w.cachedAs 1 fooFile.text = some fooFile ∧
      OtherFile.lookup (w.analyzer.othersOf 2) =
        OtherFile.lookup (Analyzer.othersOf { w.analyzer with cache := .empty } 2) := by
  refine ⟨_, rfl, ?_⟩
  have hcached : (after (.ok .empty) {} [.insert 1 fooFile, .put 1 fooFile.text none]).cachedAs 1
      fooFile.text = some fooFile := by decide +kernel
  refine ⟨hcached, ((described_as_analysed _ _ _ rfl).2 ?_ 2).2⟩
  intro file source registration hsource _ hregistration
  have honly : (after (.ok .empty) {} [.insert 1 fooFile,
      .put 1 fooFile.text none]).analyzer.sources.files.toList = [(1, fooFile)] := by
    decide +kernel
  have hmem := Std.TreeMap.mem_toList_iff_getElem?_eq_some.mpr hsource
  rw [honly] at hmem
  obtain ⟨rfl, rfl⟩ := Prod.mk.inj (List.mem_singleton.mp hmem)
  obtain rfl := Option.some.inj (hcached.symm.trans hregistration)
  exact ⟨rfl, by decide⟩

/-- A file that was analysed before it got its name is described under the old one, and a class of
    its present name is not found. -/
theorem renamed_file_described_as_before :
    ∃ a, a = (after (.ok .empty) {} [.put 1 fooFile.text none, .insert 1 fooFile]).analyzer ∧
      a.sources.get? 1 = some fooFile ∧ fooFile.package ≠ none ∧
      a.describe 1 fooFile ≠ ({} : Toolchain).describe 1 fooFile.text fooFile.name ∧
      (OtherFile.lookup (a.othersOf 2)).named "Foo" = none ∧
      (OtherFile.lookup (Analyzer.othersOf { a with cache := .empty } 2)).named "Foo" ≠ none := by
  refine ⟨_, rfl, ?_⟩
  decide +kernel

end Workspace

end ScriptAnalysis
