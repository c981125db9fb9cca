import ScriptAnalysis.Proofs.Scope.FullNames
import ScriptAnalysis.Proofs.Scope.Lexical

/-!
# Base classes

The class that a class extends is chosen when its file is summarised, from the candidates for the
name as it is written and with nothing but the file at hand: the first one that the file declares,
else the first that it imports, else the last (`Resolution.Picks`).  In code the same name stands
for the first candidate that any file declares.  The two agree unless another file knows a candidate
that was passed over (`Resolution.Undisturbed`).  What is reported follows the choice: a class is
reported exactly if what was chosen for its base is unknown.
-/

namespace ScriptAnalysis

/-! ### Candidates -/

theorem candidates_ne_nil (written : String) (around : List String) (package : Option String)
    (imports : List ImportedClass) : candidates written around package imports ≠ [] := by
  have hmem : qualify package written ∈ candidates written around package imports := by
    unfold candidates
    exact List.mem_eraseDups.mpr (by simp)
  exact List.ne_nil_of_mem hmem

/-- A lookup that answers with a class of the name that was asked for. -/
def ClassLookup.IsFaithful (others : ClassLookup) : Prop :=
  ∀ name c, others.named name = some c → c.fullName = name

theorem ClassLookup.isFaithful_ofList (classes : List ClassSummary) :
    (ClassLookup.ofList classes).IsFaithful := by
  intro name c hc
  simpa using List.find?_some hc

namespace Resolution

variable {r : Resolution} {others : ClassLookup} {names : List String} {base name : String}

/-- The full names that a name may stand for in a class. -/
def candidatesIn (r : Resolution) (others : ClassLookup) (written around : String) : List String :=
  candidates written (r.enclosingClasses others around).value r.package r.imports

theorem findClass_eq_none : (r.findClass others name).value = none ↔
    r.localClass? name = none ∧ others.named name = none := by
  unfold findClass
  split
  · next c hc => simp [hc]
  · next hnone => simp [hnone, ClassLookup.ask]

theorem findClass_fullName (h : others.IsFaithful) {c : ClassSummary}
    (hc : (r.findClass others name).value = some c) : c.fullName = name := by
  unfold findClass at hc
  split at hc
  · next d hd =>
    obtain rfl := Option.some.inj hc
    simpa using List.find?_some hd
  · exact h name c hc

theorem findFirst_value (names : List String) : (r.findFirst others names).value =
    names.findSome? fun name => (r.findClass others name).value := by
  induction names with
  | nil => rfl
  | cons name names ih =>
    rw [findFirst, Consulted.value_bind, List.findSome?_cons]
    split
    · next c hc => rw [hc]; rfl
    · next hnone => rw [hnone]; exact ih

/-- One of several full names is chosen with what a script declares: before it there is none that
    the script declares, and none at all if the script does not declare it. -/
structure Picks (r : Resolution) (names : List String) (base : String) : Prop where
  mem : base ∈ names
  before : ∀ n ∈ names.takeWhile (· ≠ base), r.localClass? n = none
  behind : r.localClass? base = none → ∀ n ∈ names, r.localClass? n = none

/-- No other file knows a name in front of the chosen one, nor any of the names if no file knows the
    chosen one. -/
structure Undisturbed (r : Resolution) (others : ClassLookup) (names : List String)
    (base : String) : Prop where
  before : ∀ n ∈ names.takeWhile (· ≠ base), others.named n = none
  behind : (r.findClass others base).value = none → ∀ n ∈ names, others.named n = none

theorem takeWhile_ne_append {α : Type} [DecidableEq α] {front rest : List α} {a : α}
    (h : a ∉ front) : (front ++ a :: rest).takeWhile (· ≠ a) = front := by
  have hne : ∀ b ∈ front, decide (b ≠ a) = true := by
    intro b hb
    refine decide_eq_true ?_
    rintro rfl
    exact h hb
  rw [List.takeWhile_append_of_pos hne, List.takeWhile_cons_of_neg (by simp), List.append_nil]

/-- What stands in front of an element, and the element. -/
theorem split_at_mem {α : Type} [DecidableEq α] {as : List α} {a : α} (h : a ∈ as) :
    ∃ rest, as = as.takeWhile (· ≠ a) ++ a :: rest := by
  obtain ⟨front, rest, rfl, hnew⟩ := List.eq_append_cons_of_mem h
  exact ⟨rest, by rw [takeWhile_ne_append hnew]⟩

/-- The first name that the script declares is chosen, or a name when there is none. -/
theorem picks_of_choice {other : Option String} (hother : other = some base → base ∈ names)
    (h : (names.find? fun n => (r.localClass? n).isSome).or other = some base) :
    r.Picks names base := by
  rcases Option.or_eq_some_iff.mp h with hfound | ⟨hnone, hother'⟩
  · obtain ⟨hlocal, front, rest, rfl, hfront⟩ := List.find?_eq_some_iff_append.mp hfound
    have hnew : base ∉ front := by
      intro hbase
      exact absurd hlocal (by simpa using hfront base hbase)
    refine ⟨by simp, fun n hn => ?_, fun hnone => ?_⟩
    · rw [takeWhile_ne_append hnew] at hn
      simpa using hfront n hn
    · simp [hnone] at hlocal
  · have hall : ∀ n ∈ names, r.localClass? n = none := by simpa using hnone
    exact ⟨hother hother', fun n hn => hall n (List.takeWhile_subset _ hn), fun _ => hall⟩

namespace Picks

variable (h : r.Picks names base)

include h

theorem findFirst_eq (hu : r.Undisturbed others names base) :
    (r.findFirst others names).value = (r.findClass others base).value := by
  rw [findFirst_value]
  cases hbase : (r.findClass others base).value with
  | none =>
    refine List.findSome?_eq_none_iff.mpr fun n hn => findClass_eq_none.mpr ?_
    exact ⟨h.behind (findClass_eq_none.mp hbase).1 n hn, hu.behind hbase n hn⟩
  | some c =>
    obtain ⟨bs, hbs⟩ := split_at_mem h.mem
    have hnone : (names.takeWhile (· ≠ base)).findSome?
        (fun n => (r.findClass others n).value) = none :=
      List.findSome?_eq_none_iff.mpr fun n hn =>
        findClass_eq_none.mpr ⟨h.before n hn, hu.before n hn⟩
    rw [hbs, List.findSome?_append, hnone, List.findSome?_cons, hbase]
    rfl

/-- Only then does the choice agree with the first known name. -/
theorem undisturbed (hothers : others.IsFaithful)
    (heq : (r.findClass others base).value = (r.findFirst others names).value) :
    r.Undisturbed others names base := by
  rw [findFirst_value] at heq
  refine ⟨fun n hn => ?_, fun hnone n hn => ?_⟩
  · by_contra hknown
    obtain ⟨bs, hbs⟩ := split_at_mem h.mem
    cases hfirst : (names.takeWhile (· ≠ base)).findSome?
        (fun n => (r.findClass others n).value) with
    | none =>
      have hn' := List.findSome?_eq_none_iff.mp hfirst n hn
      exact hknown (findClass_eq_none.mp hn').2
    | some c =>
      obtain ⟨m, hm, hc⟩ := List.exists_of_findSome?_eq_some hfirst
      rw [hbs, List.findSome?_append, hfirst] at heq
      have hne : m ≠ base := by simpa using List.mem_takeWhile_imp hm
      exact hne ((findClass_fullName hothers hc).symm.trans (findClass_fullName hothers heq))
  · rw [hnone] at heq
    exact (findClass_eq_none.mp (List.findSome?_eq_none_iff.mp heq.symm n hn)).2

end Picks

end Resolution

/-! ### The choice -/

namespace ResolveInput

variable {input : ResolveInput} {mk : MarkerId → Marker} {events : List Event} {parts : ScriptParts}
  {site : ClassSite} {c : ClassSummary} {decl : ClassDecl} {text written : String}

/-- Something is always chosen. -/
theorem isSome_baseWithin (classes : List ClassSummary) (package : Option String)
    (imports : List ImportedClass) (hwritten : c.base = some written) :
    (baseWithin classes package imports c).isSome := by
  have hne := candidates_ne_nil written (enclosingChain classes c) package imports
  unfold baseWithin
  rw [hwritten]
  simp [List.getLast?_eq_some_getLast hne]

/-- The base is picked from what its name may stand for in the class. -/
theorem Site.picks (h : ScriptRecorded input.ast mk events input.root parts)
    (ha : input.Anchored text (Significant text)) (hsite : input.Site site)
    (hown : site.enclosing = none ∨ site.fullName ≠ input.resolve.value.scriptClass)
    (hname : c.fullName = site.fullName) (houter : c.enclosing = site.enclosing)
    (hwritten : c.base = some written) {base : String}
    (hbase : baseWithin (input.summaries parts.decl) parts.decl.package
      (importsOf input.ast input.root) c = some base) :
    input.resolve.value.Picks
      (input.resolve.value.candidatesIn input.others written site.fullName) base := by
  have hheader := header_resolve h
  have hpackage : input.resolve.value.package = parts.decl.package :=
    congrArg Resolution.Header.package hheader
  have himports : input.resolve.value.imports = importsOf input.ast input.root :=
    congrArg Resolution.Header.imports hheader
  have hlocal : (fun n => (input.summaries parts.decl).any (·.fullName == n)) =
      fun n => (input.resolve.value.localClass? n).isSome := by
    funext n
    unfold Resolution.localClass?
    rw [classes_resolve h, described, List.find?_map, Option.isSome_map, List.isSome_find?]
    rfl
  unfold baseWithin at hbase
  rw [hwritten] at hbase
  change ((candidates written (enclosingChain (input.summaries parts.decl) c) _ _).find?
    (fun n => (input.summaries parts.decl).any (·.fullName == n))).or _ = some base at hbase
  rw [hsite.enclosingChain_eq h ha hname houter hown, hlocal, ← hpackage, ← himports] at hbase
  refine Resolution.picks_of_choice (fun hother => ?_) hbase
  rcases Option.or_eq_some_iff.mp hother with himported | ⟨-, hlast⟩
  · exact List.mem_of_find?_eq_some himported
  · exact List.mem_of_getLast? hlast

end ResolveInput

/-! ### What is reported -/

theorem ResolveInput.Declares.contains {input : ResolveInput} {mk : MarkerId → Marker}
    {events : List Event} {parts : ScriptParts} {owner : String} {n : NodeId}
    (h : ScriptRecorded input.ast mk events input.root parts) (hn : input.Declares owner n) :
    input.ast.Contains input.root n := by
  induction hn with
  | top hscript hi _ _ =>
    obtain rfl := Option.some.inj (h.classDecl?_root.symm.trans hscript)
    exact h.contains_inner hi
  | inner _ houter hi _ _ ih =>
    exact ih.step (Ast.classDecl?_eq_some.mp houter) (by simp [NodeData.parts, hi])

namespace Walk

variable {α β : Type}

/-- With what `r` knows of the script, a walk reports a fault. -/
def Adds (r : Resolution) (d : Diagnostic) (x : Walk α) : Prop :=
  ∀ s : WalkState, s.resolution.header = r.header → d ∈ (x.run s).2.resolution.diagnostics

section

variable {r : Resolution} {d : Diagnostic} {P : Diagnostic → Prop} {x : Walk α}

theorem adds_bind_left {f : α → Walk β} (h : Adds r d x) (hx : Reports r P x)
    (hf : ∀ a, Reports r P (f a)) : Adds r d (x >>= f) := fun s hs =>
  (hf (x.run s).1 (x.run s).2 ((hx s hs).header.trans hs)).subset (h s hs)

theorem adds_bind_right {f : α → Walk β} (hx : Steady x) (h : ∀ a, Adds r d (f a)) :
    Adds r d (x >>= f) := fun s hs => h (x.run s).1 (x.run s).2 ((hx s).trans hs)

theorem adds_get_bind {f : WalkState → Walk β}
    (h : ∀ s, s.resolution.header = r.header → Adds r d (f s)) : Adds r d (get >>= f) :=
  fun s hs => h s hs s hs

theorem adds_consult_bind {x : Consulted α} {f : α → Walk β} (h : Adds r d (f x.value)) :
    Adds r d (consult x >>= f) := fun s hs => h { s with asked := x.asked.reverse ++ s.asked } hs

theorem adds_report (message : String) (span : Span) :
    Adds r (.ofResolution message span) (report message span) := fun _ _ =>
  List.mem_append_right _ (List.mem_singleton_self _)

theorem adds_forM {f : α → Walk PUnit} {as : List α} {a : α} (ha : a ∈ as) (h : Adds r d (f a))
    (hsteady : ∀ b, Steady (f b)) (hf : ∀ b ∈ as, Reports r P (f b)) : Adds r d (as.forM f) := by
  induction as with
  | nil => cases ha
  | cons b as ih =>
    have hrest : ∀ b ∈ as, Reports r P (f b) := fun b hb => hf b (List.mem_cons_of_mem _ hb)
    rcases List.mem_cons.mp ha with rfl | ha
    · exact adds_bind_left h (hf a (List.mem_cons_self ..)) fun _ => reports_forM hrest
    · exact adds_bind_right (hsteady b) fun _ => ih ha hrest

end

variable {input : ResolveInput} {source : String} {S : Token → Prop} {r : Resolution} {v : Visitors}
  {n i : NodeId} {d : Diagnostic} {decl : ClassDecl} {c : ClassSummary} {written base : String}

theorem adds_checkBase (hwritten : decl.base = some written) (hbase : c.base = some base)
    (hnone : (r.findClass input.others base).value = none) :
    Adds r (.ofResolution s!"Unknown class '{written}'" (input.ast.span n))
      (checkBase input n decl c) := by
  unfold checkBase
  rw [hwritten, hbase]
  refine adds_get_bind fun s hs => adds_consult_bind ?_
  rw [Resolution.findClass_congr input.others hs, hnone]
  exact adds_report _ _

/-- What is reported of the base of a class. -/
theorem adds_walkClass (h : input.Anchored source S)
    (hv : v.Report input r (input.Reported S r)) (hn : input.ast.Contains input.root n)
    (hdecl : input.ast.classDecl? n = some decl) (hc : r.classes.find? (·.decl == n) = some c)
    (hadds : Adds r d (checkBase input n decl c)) : Adds r d (walkClass input v n) := by
  refine adds_get_bind fun s hs => ?_
  rw [show s.resolution.classes = r.classes from congrArg Resolution.Header.classes hs, hdecl, hc]
  exact adds_bind_left hadds (reported_checkBase hn hdecl hc) fun _ =>
    reports_members h hv hn hdecl c.fullName s

/-- What is reported of a class in a class. -/
theorem adds_walkClass_inner (hsteady : v.Steady) (hv : v.Report input r (input.Reported S r))
    (hn : input.ast.Contains input.root n) (hdecl : input.ast.classDecl? n = some decl)
    (hc : r.classes.find? (·.decl == n) = some c) (hi : i ∈ decl.inner)
    (hadds : Adds r d (v.classDecl i)) : Adds r d (walkClass input v n) := by
  refine adds_get_bind fun s hs => ?_
  rw [show s.resolution.classes = r.classes from congrArg Resolution.Header.classes hs, hdecl, hc]
  refine adds_bind_right (steady_checkBase input _ _ _) fun _ => ?_
  refine adds_bind_right (steady_modify fun _ => rfl) fun _ => ?_
  refine adds_bind_right (steady_openScope _ _) fun _ => ?_
  refine adds_bind_right (steady_noteBlock _) fun _ => ?_
  refine adds_bind_right (steady_foldlM (steady_walkField input hsteady) _ _) fun _ => ?_
  refine adds_bind_right (steady_forM hsteady.statement _) fun _ => ?_
  have hinner : ∀ j ∈ decl.inner, Reports r (input.Reported S r) (v.classDecl j) :=
    fun j hj => hv.classDecl j (contains_of_class hn hdecl (by simp [hj]))
  exact adds_bind_left (adds_forM hi hadds hsteady.classDecl hinner) (reports_forM hinner)
    fun _ => reports_modify fun _ => rfl

/-- What is reported of a class that a script declares is reported of the script: by induction on
    the classes around it. -/
theorem adds_walkScript {mk : MarkerId → Marker} {events : List Event} {parts : ScriptParts}
    {owner : String} (hrec : ScriptRecorded input.ast mk events input.root parts)
    (h : input.Anchored source S) (hn : input.Declares owner n)
    (hadds : ∀ depth, n ≤ depth →
      Adds input.resolve.value d (walkClass input (visitors input depth) n)) :
    Adds input.resolve.value d
      (walkScript input (visitors input input.ast.size) parts.decl) := by
  have hv (depth : Nat) : (visitors input depth).Report input input.resolve.value
      (input.Reported S input.resolve.value) := reports_visitors h depth
  induction hn with
  | @top script decl i hscript hi hdecl hname =>
    obtain rfl := Option.some.inj (hrec.classDecl?_root.symm.trans hscript)
    have hinner : ∀ j ∈ parts.decl.inner, Reports input.resolve.value
        (input.Reported S input.resolve.value)
        (walkClass input (visitors input input.ast.size) j) :=
      fun j hj => reports_walkClass h (hv _) (hrec.contains_inner hj)
    have hlt := ((hrec.laid_class hi).mem_lt (List.mem_singleton_self i)).2
    refine adds_get_bind fun s hs => ?_
    refine adds_bind_right (steady_forM (steady_checkImport input) _) fun _ => ?_
    refine adds_bind_right (steady_forM (fun _ =>
      steady_walkBlock input (steady_visitors input _) _ _) _) fun _ => ?_
    refine adds_forM hi (hadds _ ?_) (steady_walkClass input (steady_visitors input _)) hinner
    exact Nat.le_trans (Nat.le_of_lt hlt) (Nat.le_trans hrec.le_body
      (Nat.le_of_lt (Nat.lt_trans hrec.body_lt (Ast.lt_size_of_data? hrec.data_root))))
  | @inner outer decl fullName m i hm houter hi hdecl hname ih =>
    have hclass := hm.isClass hrec
    obtain ⟨c, hc, -⟩ := hm.known hrec
    have hdata := Ast.classDecl?_eq_some.mp houter
    have hlt := (hclass.2.part hdata (k := i) (by simp [NodeData.parts, hi])).2
    refine ih fun depth hdepth => ?_
    obtain ⟨depth, rfl⟩ : ∃ k, depth = k + 1 :=
      Nat.exists_eq_add_of_le' (Nat.le_trans (Nat.succ_le_of_lt (Nat.zero_lt_of_lt hlt)) hdepth)
    refine adds_walkClass_inner (steady_visitors input _) (hv _) ?_ houter hc hi
      (hadds depth (Nat.le_of_lt_succ (Nat.lt_of_lt_of_le hlt hdepth)))
    exact hm.contains hrec

end Walk

/-- At an offset there is one token that is no trivia. -/
theorem Significant.unique {text : String} {t t' : Token} (h : Significant text t)
    (h' : Significant text t') (heq : t.offset = t'.offset) : t = t' := by
  have hascending := List.pairwise_iff_getElem.mp (scan_ascending text)
  obtain ⟨i, hi, rfl⟩ := List.getElem_of_mem h.1
  obtain ⟨j, hj, rfl⟩ := List.getElem_of_mem h'.1
  rcases Nat.lt_trichotomy i j with hlt | rfl | hlt
  · exact absurd heq (Nat.ne_of_lt (hascending i j hi hj hlt))
  · rfl
  · exact absurd heq.symm (Nat.ne_of_lt (hascending j i hj hi hlt))

namespace ResolveInput

variable {input : ResolveInput} {mk : MarkerId → Marker} {events : List Event} {parts : ScriptParts}
  {c : ClassSummary} {decl : ClassDecl} {text written base : String}

/-- A class that extends another one has a site. -/
theorem site_of_base (h : ScriptRecorded input.ast mk events input.root parts)
    (hc : c ∈ input.described parts.decl) (hdecl : input.ast.classDecl? c.decl = some decl)
    (hwritten : decl.base = some written) : ∃ site, input.Site site ∧ site.decl = c.decl ∧
      c.fullName = site.fullName ∧ c.enclosing = site.enclosing ∧
      c.base = baseWithin (input.summaries parts.decl) parts.decl.package
        (importsOf input.ast input.root) (summarise input.file input.ast site decl) := by
  obtain ⟨c₀, hc₀, rfl⟩ := List.mem_map.mp hc
  rcases site_of_mem h hc₀ with rfl | ⟨site, decl', hsite, hdecl', rfl⟩
  · obtain rfl := Option.some.inj (h.classDecl?_root.symm.trans hdecl)
    exact absurd (h.script.base.symm.trans hwritten) (by simp)
  · obtain rfl := Option.some.inj (hdecl'.symm.trans hdecl)
    exact ⟨site, hsite, rfl, rfl, rfl, rfl⟩

/-- A class is reported exactly if what was chosen for its base is unknown. -/
theorem base_reported_iff (h : ScriptRecorded input.ast mk events input.root parts)
    (ha : input.Anchored text (Significant text)) (hapart : Script.ClassesApart input.ast)
    (hc : c ∈ input.described parts.decl) (hdecl : input.ast.classDecl? c.decl = some decl)
    (hwritten : decl.base = some written) (hbase : c.base = some base) :
    .ofResolution s!"Unknown class '{written}'" (input.ast.span c.decl) ∈
        input.resolve.value.diagnostics ↔
      (input.resolve.value.findClass input.others base).value = none := by
  obtain ⟨site, hsite, hsame, -⟩ := site_of_base h hc hdecl hwritten
  have hdeclares : input.Declares site.fullName c.decl := hsame ▸ hsite.declares
  have hn := hdeclares.contains h
  have hscript : decl.isScript = false :=
    ha.subclass _ _ hn (Ast.classDecl?_eq_some.mp hdecl) (by simp [hwritten])
  have hknown : input.resolve.value.classes.find? (·.decl == c.decl) = some c := by
    rw [classes_resolve h]
    refine find?_of_nodup ?_ hc
    unfold described
    rw [List.map_map]
    exact nodup_classes h
  constructor
  · intro hreported
    generalize hd : Diagnostic.ofResolution s!"Unknown class '{written}'"
      (input.ast.span c.decl) = d at hreported
    cases reported_of_mem h ha hreported with
    | plain hplain =>
      -- No other fault is reported where the keyword of a class is.
      obtain ⟨t, ht, hne, hoffset⟩ := hplain
      rcases ha.placed_in (Ast.classDecl?_eq_some.mp hdecl) (by simp) with
        hisScript | ⟨⟨t', ht', hkw, hoffset'⟩, -⟩
      · cases hscript.symm.trans hisScript
      · rw [← hd] at hoffset
        obtain rfl := ht.unique ht' (hoffset.trans hoffset'.symm)
        exact absurd hkw hne
    | @base node decl' c' written' base' hnode hdecl' hc' hwritten' hbase' hnone =>
      have hdata' := Ast.classDecl?_eq_some.mp hdecl'
      have hscript' : decl'.isScript = false :=
        ha.subclass _ _ hnode hdata' (by simp [hwritten'])
      have hspan : input.ast.span c.decl = input.ast.span node := congrArg Diagnostic.span hd
      obtain rfl := hapart _ _ _ _ (Ast.classDecl?_eq_some.mp hdecl) hdata' hscript hscript'
        (congrArg Span.start hspan)
      obtain rfl := Option.some.inj (hknown.symm.trans hc')
      obtain rfl := Option.some.inj (hbase.symm.trans hbase')
      exact hnone
  · intro hnone
    rw [resolve_value h]
    refine Walk.adds_walkScript h ha hdeclares (fun depth _ => ?_) _ (header_resolve h).symm
    exact Walk.adds_walkClass ha (Walk.reports_visitors ha depth) hn hdecl hknown
      (Walk.adds_checkBase hwritten hbase hnone)

/-! ### Texts -/

/-- Of every text, a class that extends another one is reported exactly if the class that was chosen
    for it is unknown.  The choice is the class that the name stands for in the class, unless the
    script bears the name of the class, or another file knows a candidate that was passed over. -/
theorem bases_resolve (text scriptName : String) (file : FileId) (globals : Globals)
    (others : ClassLookup) :
    ∃ p, parseScript text = .ok p ∧ ∀ input : ResolveInput,
      input = ⟨file, scriptName, p.ast, p.root, globals, others⟩ →
      ∀ c ∈ describeClasses file scriptName p.ast p.root, ∀ decl written,
        p.ast.classDecl? c.decl = some decl → decl.base = some written →
        ∃ base, c.base = some base ∧
          (.ofResolution s!"Unknown class '{written}'" (p.ast.span c.decl) ∈
              input.resolve.value.diagnostics ↔
            (input.resolve.value.findClass others base).value = none) ∧
          (c.enclosing = none ∨ c.fullName ≠ input.resolve.value.scriptClass →
            base ∈ input.resolve.value.candidatesIn others written c.fullName ∧
            (input.resolve.value.Undisturbed others
                (input.resolve.value.candidatesIn others written c.fullName) base →
              (input.resolve.value.findClass others base).value =
                (input.resolve.value.resolveClass others written c.fullName).value) ∧
            (others.IsFaithful → (input.resolve.value.findClass others base).value =
                (input.resolve.value.resolveClass others written c.fullName).value →
              input.resolve.value.Undisturbed others
                (input.resolve.value.candidatesIn others written c.fullName) base)) := by
  obtain ⟨p, -, -, -, hp, -⟩ := parseWith_script text (scan_endsWithEof text)
  obtain ⟨parts, hparts⟩ := ScriptRecorded.of_parse hp
  have hrun := ScriptRun.of_parse hp
  refine ⟨p, hp, ?_⟩
  obtain ⟨root, ast, transcript⟩ := p
  rintro input hinput c hc decl written hdecl hwritten
  obtain ⟨rfl, rfl, rfl, rfl, rfl, rfl⟩ : file = input.file ∧ scriptName = input.scriptName ∧
      ast = input.ast ∧ root = input.root ∧ globals = input.globals ∧ others = input.others := by
    rw [hinput]
    exact ⟨rfl, rfl, rfl, rfl, rfl, rfl⟩
  have h : ScriptRecorded input.ast _ _ input.root parts := hparts
  have ha : input.Anchored text (Significant text) := .of_script hrun h rfl rfl
  rw [← input.resolve_classes, classes_resolve h] at hc
  obtain ⟨site, hsite, -, hname, houter, hchosen⟩ := site_of_base h hc hdecl hwritten
  obtain ⟨base, hbase⟩ := Option.isSome_iff_exists.mp (isSome_baseWithin
    (input.summaries parts.decl) parts.decl.package (importsOf input.ast input.root)
    (c := summarise input.file input.ast site decl) hwritten)
  rw [hbase] at hchosen
  refine ⟨base, hchosen, base_reported_iff h ha hrun.stand.apart hc hdecl hwritten hchosen,
    fun hown => ?_⟩
  rw [houter, hname] at hown
  have hpicks := hsite.picks h ha hown rfl rfl hwritten hbase
  rw [hname]
  exact ⟨hpicks.mem, fun hu => (hpicks.findFirst_eq hu).symm, hpicks.undisturbed⟩

/-- A class of the package that another file declares. -/
theorem base_in_package_resolves :
    ∃ p, parseScript "package p\nclass C extends A\x7b\x7d" = .ok p ∧ ∀ input : ResolveInput,
      input = ⟨0, "S", p.ast, p.root, .empty,
        .ofList [⟨"A", some "p", "p.A", none, [], [], [], none, false, 1, 0⟩]⟩ →
      input.others.IsFaithful ∧
      ∃ c ∈ describeClasses 0 "S" p.ast p.root, c.fullName = "p.C" ∧ c.base = some "p.A" ∧
        input.resolve.value.Undisturbed input.others
          (input.resolve.value.candidatesIn input.others "A" c.fullName) "p.A" ∧
        (input.resolve.value.findClass input.others "p.A").value =
          (input.resolve.value.resolveClass input.others "A" c.fullName).value ∧
        .ofResolution "Unknown class 'A'" (p.ast.span c.decl) ∉
          input.resolve.value.diagnostics := by
  obtain ⟨p, hp, hbases⟩ := bases_resolve "package p\nclass C extends A\x7b\x7d" "S" 0 .empty
    (.ofList [⟨"A", some "p", "p.A", none, [], [], [], none, false, 1, 0⟩])
  refine ⟨p, hp, ?_⟩
  rintro input hinput
  have hothers : input.others =
      .ofList [⟨"A", some "p", "p.A", none, [], [], [], none, false, 1, 0⟩] := by rw [hinput]
  have hcomputed := of_parse hp (P := fun p =>
    let input : ResolveInput := ⟨0, "S", p.ast, p.root, .empty,
      .ofList [⟨"A", some "p", "p.A", none, [], [], [], none, false, 1, 0⟩]⟩
    (describeClasses 0 "S" p.ast p.root).find? (·.fullName == "p.C") =
        some ⟨"C", some "p", "p.C", some "p.A", [], [], [], none, false, 0, 3⟩ ∧
      (p.ast.classDecl? 3).map ClassDecl.base = some (some "A") ∧
      input.resolve.value.candidatesIn input.others "A" "p.C" = ["p.C.A", "p.A"] ∧
      (input.resolve.value.findClass input.others "p.A").value ≠ none) (by decide +kernel)
  dsimp only at hcomputed
  rw [← hinput, ← hothers] at hcomputed
  obtain ⟨hfind, hdecl, hnames, hknown⟩ := hcomputed
  obtain ⟨decl, hdecl, hwritten⟩ := Option.map_eq_some_iff.mp hdecl
  have hc := List.mem_of_find?_eq_some hfind
  obtain ⟨base, hbase, hreported, hpicked⟩ := hbases input hinput _ hc decl "A" hdecl hwritten
  obtain rfl : "p.A" = base := Option.some.inj hbase
  have hundisturbed : input.resolve.value.Undisturbed input.others
      (input.resolve.value.candidatesIn input.others "A" "p.C") "p.A" := by
    refine ⟨?_, fun hnone => absurd hnone hknown⟩
    rw [hnames, hothers]
    decide +kernel
  rw [← hothers] at hreported hpicked
  exact ⟨hothers ▸ ClassLookup.isFaithful_ofList _, _, hc, rfl, rfl, hundisturbed,
    (hpicked (.inl rfl)).2.1 hundisturbed, fun hmem => hknown (hreported.mp hmem)⟩

/-- The name stands for a class of the package in another file, but what is chosen without that file
    is unknown, and reported.  A class in a class of a script that bears its name extends a class of
    the script that the name does not stand for. -/
theorem base_differs_from_name :
    (∃ p, parseScript "package p\nclass C extends a.B\x7b\x7d" = .ok p ∧
      let input : ResolveInput := ⟨0, "S", p.ast, p.root, .empty,
        .ofList [⟨"B", some "p", "p.a.B", none, [], [], [], some "p.a", false, 1, 0⟩]⟩
      ∃ c ∈ describeClasses 0 "S" p.ast p.root, c.fullName = "p.C" ∧
        (p.ast.classDecl? c.decl).bind ClassDecl.base = some "a.B" ∧ c.base = some "a.B" ∧
        (input.resolve.value.findClass input.others "a.B").value = none ∧
        (input.resolve.value.resolveClass input.others "a.B" c.fullName).value =
          some ⟨"B", some "p", "p.a.B", none, [], [], [], some "p.a", false, 1, 0⟩ ∧
        .ofResolution "Unknown class 'a.B'" (p.ast.span c.decl) ∈
          input.resolve.value.diagnostics) ∧
    ∃ p, parseScript "class A\x7bclass B extends W\x7b\x7d class W\x7b\x7d\x7d" = .ok p ∧
      let input : ResolveInput := ⟨0, "A.B", p.ast, p.root, .empty, .none⟩
      ∃ c ∈ describeClasses 0 "A.B" p.ast p.root, c.fullName = "A.B" ∧
        (p.ast.classDecl? c.decl).bind ClassDecl.base = some "W" ∧ c.base = some "A.W" ∧
        (input.resolve.value.findClass input.others "A.W").value.isSome ∧
        (input.resolve.value.resolveClass input.others "W" c.fullName).value = none := by
  constructor
  · exact exists_of_parse (by decide +kernel)
  · exact exists_of_parse (by decide +kernel)

end ResolveInput

end ScriptAnalysis
