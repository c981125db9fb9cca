import ScriptAnalysis.Proofs.Scope.Chains
import ScriptAnalysis.Scope.Visible

/-!
# Every usable class is offered

A class name without a point stands for a class in one of the classes around it, for an imported
class, or for a class of the package.  What is offered at a node is found along other ways: the
classes around it list the classes in them.  Where no two classes have one full name the lists cover
the names (`Resolution.Qualified.offers`), for a full name tells in which class its class stands:
what is in front of the last point (`ResolveInput.qualified`).
-/

namespace ScriptAnalysis

/-! ### The first of each name -/

section KeepFirst

variable {α : Type} {key : α → String} {a : α} {as : List α}

theorem keepFirst_subset : a ∈ keepFirst key as → a ∈ as := by
  induction as with
  | nil => exact id
  | cons b as ih =>
    intro ha
    rcases List.mem_cons.mp ha with rfl | ha
    · exact List.mem_cons_self ..
    · exact List.mem_cons_of_mem _ (ih (List.mem_filter.mp ha).1)

theorem nodup_keepFirst (key : α → String) (as : List α) : ((keepFirst key as).map key).Nodup := by
  induction as with
  | nil => exact List.nodup_nil
  | cons b as ih =>
    refine List.nodup_cons.mpr ⟨fun hb => ?_, ih.sublist (List.filter_sublist.map key)⟩
    obtain ⟨a, ha, heq⟩ := List.mem_map.mp hb
    simpa [heq] using (List.mem_filter.mp ha).2

/-- Something of every name is kept. -/
theorem exists_mem_keepFirst (key : α → String) (ha : a ∈ as) :
    ∃ b ∈ keepFirst key as, key b = key a := by
  induction as with
  | nil => cases ha
  | cons c as ih =>
    by_cases heq : key a = key c
    · exact ⟨c, List.mem_cons_self .., heq.symm⟩
    · have hrest : a ∈ as := (List.mem_cons.mp ha).resolve_left fun hac => heq (hac ▸ rfl)
      obtain ⟨b, hb, hkey⟩ := ih hrest
      exact ⟨b, List.mem_cons_of_mem _ (List.mem_filter.mpr ⟨hb, by simpa [hkey] using heq⟩), hkey⟩

end KeepFirst

/-! ### Names without a point -/

theorem splitFirst_of_undotted {written : String} (h : '.' ∉ written.toList) :
    splitFirst written = (written, none) := by
  have hnil : written.toList.dropWhile (· ≠ '.') = [] := by
    refine List.dropWhile_eq_nil_iff.mpr fun c hc => ?_
    have hne : c ≠ '.' := fun heq => h (heq ▸ hc)
    simpa using hne
  unfold splitFirst
  rw [hnil]

/-- What a name without a point may stand for. -/
theorem mem_candidates_undotted {written name : String} (h : '.' ∉ written.toList)
    (around : List String) (package : Option String) (imports : List ImportedClass) :
    name ∈ candidates written around package imports ↔
      (∃ outer ∈ around, outer ++ "." ++ written = name) ∨
      (∃ i ∈ imports, i.name = written ∧ i.path = name) ∨ name = qualify package written := by
  unfold candidates
  rw [splitFirst_of_undotted h, List.mem_eraseDups]
  simp [and_assoc]

/-! ### What is known with no other files -/

theorem ClassLookup.isFinite_none : ClassLookup.none.IsFinite := ⟨[], Nat.le_refl 0, by simp [none]⟩

theorem ClassLookup.isFaithful_none : ClassLookup.none.IsFaithful := by
  intro name c hc
  cases hc

namespace Resolution

variable {r : Resolution} {others : ClassLookup} {c : ClassSummary} {name : String}

theorem findClass_none (r : Resolution) (name : String) :
    (r.findClass .none name).value = r.localClass? name := by
  unfold findClass
  split
  · next c hc => exact hc.symm
  · next hnone => exact hnone.symm

theorem mem_of_localClass? (h : r.localClass? name = some c) : c ∈ r.classes ∧ c.fullName = name :=
  ⟨List.mem_of_find?_eq_some h, by simpa using List.find?_some h⟩

/-! ### What is collected -/

theorem mem_findEach {names : List String} : c ∈ (r.findEach others names).value ↔
    ∃ n ∈ names, (r.findClass others n).value = some c := by
  induction names with
  | nil => simp [findEach]
  | cons n names ih => simp [findEach, ih]

theorem mem_withInner {cs : List ClassSummary} : c ∈ (r.withInner others cs).value ↔
    ∃ e ∈ cs, (e = c ∧ e.isScript = false) ∨ c ∈ (r.findEach others e.inner).value := by
  induction cs with
  | nil => simp [withInner]
  | cons e cs ih =>
    have hself : c ∈ (if e.isScript then [] else [e]) ↔ e = c ∧ e.isScript = false := by
      cases e.isScript <;> simp [eq_comm]
    simp [withInner, ih, hself, or_assoc]

theorem mem_withBases {names : List String} : c ∈ (r.withBases others names).value ↔
    ∃ n ∈ names, c ∈ (r.withInner others (r.classChain others n).value).value := by
  induction names with
  | nil => simp [withBases]
  | cons n names ih => simp [withBases, ih]

/-- What is offered at a node in code of the class `owner`, before repetitions are left out. -/
def offered (r : Resolution) (others : ClassLookup) (owner : String) : List ClassSummary :=
  (r.withBases others (r.enclosingClasses others owner).value).value ++
    (r.findEach others (r.imports.map ImportedClass.path)).value ++
    (r.classes.filter (·.enclosing.isNone) ++ others.inPackage (r.package.getD "")).filter
      (!·.isScript)

theorem visibleClasses_value {node : NodeId} {scope : BlockScope}
    (hscope : r.scopeOf? node = some scope) : (r.visibleClasses others node).value =
      keepFirst ClassSummary.fullName (r.offered others scope.owningClass) := by
  unfold visibleClasses
  rw [hscope]
  rfl

theorem mem_classChain_self (hc : (r.findClass others name).value = some c) :
    c ∈ (r.classChain others name).value := by
  unfold classChain chainLimit basesFrom
  rw [if_neg (List.not_mem_nil), Consulted.value_bind, hc]
  dsimp only
  cases c.base with
  | none => exact List.mem_singleton_self c
  | some base => exact List.mem_cons_self ..

/-- Nothing but classes of the script is offered if there are no other files. -/
theorem mem_of_offered {owner : String} (hc : c ∈ r.offered .none owner) : c ∈ r.classes := by
  have hfound : ∀ {n : String} {d : ClassSummary}, (r.findClass .none n).value = some d →
      d ∈ r.classes := by
    intro n d hd
    rw [findClass_none] at hd
    exact (mem_of_localClass? hd).1
  have heach : ∀ {names : List String}, c ∈ (r.findEach .none names).value → c ∈ r.classes := by
    intro names hc
    obtain ⟨n, -, hn⟩ := mem_findEach.mp hc
    exact hfound hn
  rcases List.mem_append.mp hc with hc | htop
  · rcases List.mem_append.mp hc with haround | himported
    · obtain ⟨n, -, hc⟩ := mem_withBases.mp haround
      obtain ⟨e, he, ⟨rfl, -⟩ | hinner⟩ := mem_withInner.mp hc
      · obtain ⟨⟨chain, hchain⟩, -⟩ :=
          r.chains_end ClassLookup.isFinite_none ClassLookup.isFaithful_none n
        rw [hchain.value] at he
        exact hfound (hchain.sequence.known e he)
      · exact heach hinner
    · exact heach himported
  · rcases List.mem_append.mp (List.mem_filter.mp htop).1 with hlocal | hpackage
    · exact (List.mem_filter.mp hlocal).1
    · cases hpackage

/-! ### Full names that tell where a class stands -/

/-- The classes of a script have different full names, and each tells in which class its own stands:
    one of the package, or the one in front of the last point. -/
structure Qualified (r : Resolution) : Prop where
  distinct : (r.classes.map ClassSummary.fullName).Nodup
  points_le : ∀ c ∈ r.classes, points (qualify r.package "") ≤ points c.fullName
  placed : ∀ c ∈ r.classes, c.isScript = false →
    (c.enclosing = none ∧ points c.fullName = points (qualify r.package "")) ∨
    ∃ outer ∈ r.classes, ∃ name, points name = 0 ∧ c.fullName = outer.fullName ++ "." ++ name ∧
      c.fullName ∈ outer.inner
  around : ∀ c ∈ r.classes, ∀ name, c.enclosing = some name → ∃ e ∈ r.classes, e.fullName = name

/-- What is offered in code of the class `owner`: no two classes of one full name, and every class
    that a name without a point stands for, but for that of the script. -/
structure OffersUsable (r : Resolution) (node : NodeId) (owner : String) : Prop where
  distinct : ((r.visibleClasses .none node).value.map ClassSummary.fullName).Nodup
  complete : ∀ written c, '.' ∉ written.toList →
    (r.resolveClass .none written owner).value = some c → c.isScript = false →
      c ∈ (r.visibleClasses .none node).value

namespace Qualified

variable {owner written : String} (h : r.Qualified)

include h

theorem localClass?_eq (hc : c ∈ r.classes) : r.localClass? c.fullName = some c := by
  cases hfound : r.localClass? c.fullName with
  | none => exact absurd (List.find?_eq_none.mp hfound c hc) (by simp)
  | some d =>
    obtain ⟨hd, heq⟩ := mem_of_localClass? hfound
    rw [List.inj_on_of_nodup_map h.distinct hd hc heq]

/-- The classes around a class of the script are classes of the script. -/
theorem known_around (howner : ∃ c ∈ r.classes, c.fullName = owner) :
    ∀ n ∈ (r.enclosingClasses .none owner).value, ∃ c ∈ r.classes, c.fullName = n := by
  obtain ⟨-, names, houter⟩ :=
    r.chains_end ClassLookup.isFinite_none ClassLookup.isFaithful_none owner
  have hstep : ∀ {n outer : String}, r.outer? .none n = some outer →
      ∃ c ∈ r.classes, c.fullName = outer := by
    intro n outer hn
    obtain ⟨c, hc, henclosing⟩ := Option.bind_eq_some_iff.mp hn
    rw [findClass_none] at hc
    exact h.around c (mem_of_localClass? hc).1 outer henclosing
  have hall : ∀ {seen names : List String} {name : String},
      OuterChain (r.outer? .none) seen name names → (∃ c ∈ r.classes, c.fullName = name) →
      ∀ n ∈ names, ∃ c ∈ r.classes, c.fullName = n := by
    intro seen names name hchain
    induction hchain with
    | seen _ => simp
    | last _ _ => simp
    | more _ houter _ ih =>
      intro hname n hn
      rcases List.mem_cons.mp hn with rfl | hn
      · exact hname
      · exact ih (hstep houter) n hn
  rw [houter.value]
  exact hall houter.ends howner

/-- A class whose full name is a name without a point in a class of the script is listed by it. -/
theorem mem_inner {outer : ClassSummary} (hc : c ∈ r.classes) (hscript : c.isScript = false)
    (houter : outer ∈ r.classes) (hwritten : points written = 0)
    (hname : outer.fullName ++ "." ++ written = c.fullName) : c.fullName ∈ outer.inner := by
  rcases h.placed c hc hscript with ⟨-, hpoints⟩ | ⟨around, haround, name, hundotted, hfull, hinner⟩
  · have hle := h.points_le outer houter
    have hmore := points_nested outer.fullName written
    rw [hname] at hmore
    omega
  · have hsame := eq_of_nested hwritten hundotted (hname.trans hfull)
    rwa [List.inj_on_of_nodup_map h.distinct houter haround hsame]

/-- Whatever a name without a point stands for is offered. -/
theorem mem_offered (howner : ∃ c ∈ r.classes, c.fullName = owner) (hw : '.' ∉ written.toList)
    (hc : (r.resolveClass .none written owner).value = some c) (hscript : c.isScript = false) :
    c ∈ r.offered .none owner := by
  have hpoints : points written = 0 := List.count_eq_zero.mpr hw
  have hfirst : (r.findFirst .none (r.candidatesIn .none written owner)).value = some c := hc
  rw [findFirst_value] at hfirst
  obtain ⟨name, hname, hfound⟩ := List.exists_of_findSome?_eq_some hfirst
  have hlocal := hfound
  rw [findClass_none] at hlocal
  obtain ⟨hmem, rfl⟩ := mem_of_localClass? hlocal
  unfold offered
  rw [List.mem_append, List.mem_append]
  rcases (mem_candidates_undotted hw _ _ _).mp hname with ⟨n, hn, heq⟩ | ⟨i, hi, -, heq⟩ | heq
  · -- In a class around: that class heads its own chain, and lists the class.
    obtain ⟨outer, houter, rfl⟩ := h.known_around howner n hn
    have hknown : (r.findClass .none outer.fullName).value = some outer := by
      rw [findClass_none, h.localClass?_eq houter]
    have hinner : c ∈ (r.findEach .none outer.inner).value := mem_findEach.mpr
      ⟨c.fullName, h.mem_inner hmem hscript houter hpoints heq, hfound⟩
    exact .inl (.inl (mem_withBases.mpr ⟨outer.fullName, hn,
      mem_withInner.mpr ⟨outer, mem_classChain_self hknown, .inr hinner⟩⟩))
  · -- Imported: every import is offered.
    rw [← heq] at hfound
    exact .inl (.inr (mem_findEach.mpr ⟨i.path, List.mem_map_of_mem hi, hfound⟩))
  · -- Of the package: no class is around it, as its name has no more points than the package.
    have htop : c.enclosing = none := by
      rcases h.placed c hmem hscript with ⟨hnone, -⟩ | ⟨outer, houter, name, -, hfull, -⟩
      · exact hnone
      · have hle := h.points_le outer houter
        have hmore := points_nested outer.fullName name
        have hpackage := points_qualify r.package written
        rw [← hfull, heq] at hmore
        omega
    refine .inr (List.mem_filter.mpr ⟨List.mem_append_left _ (List.mem_filter.mpr ⟨hmem, ?_⟩), ?_⟩)
    · rw [htop]
      rfl
    · rw [hscript]
      rfl

theorem offers {node : NodeId} {scope : BlockScope} (hscope : r.scopeOf? node = some scope)
    (howner : ∃ c ∈ r.classes, c.fullName = scope.owningClass) :
    r.OffersUsable node scope.owningClass := by
  refine ⟨?_, fun written c hw hc hscript => ?_⟩
  · rw [visibleClasses_value hscope]
    exact nodup_keepFirst _ _
  · have hmem := h.mem_offered howner hw hc hscript
    obtain ⟨d, hd, heq⟩ := exists_mem_keepFirst ClassSummary.fullName hmem
    rw [visibleClasses_value hscope]
    have hsame := List.inj_on_of_nodup_map h.distinct (mem_of_offered (keepFirst_subset hd))
      (mem_of_offered hmem) heq
    exact hsame ▸ hd

end Qualified

end Resolution

/-! ### The classes of a script -/

namespace ResolveInput

variable {input : ResolveInput} {mk : MarkerId → Marker} {events : List Event} {parts : ScriptParts}
  {text : String} {node : NodeId}

/-- Code belongs to a class of the script. -/
theorem known_of_visited (h : ScriptRecorded input.ast mk events input.root parts) {owner : String}
    {around : List Surround}
    (hn : Visited input input.resolve.value parts owner around node) :
    ∃ c ∈ input.resolve.value.classes, c.fullName = owner := by
  rcases hn with ⟨rfl, -⟩ | ⟨i, -, henters⟩
  · obtain ⟨depth, -, hsummaries⟩ := exists_summaries h
    rw [classes_resolve h, scriptClass_resolve h, described, hsummaries]
    exact ⟨_, List.mem_cons_self .., rfl⟩
  · induction henters with
    | here _ hc => exact ⟨_, List.mem_of_find?_eq_some hc, rfl⟩
    | member _ hc _ _ => exact ⟨_, List.mem_of_find?_eq_some hc, rfl⟩
    | inner _ _ _ _ ih => exact ih

theorem known_owner (h : ScriptRecorded input.ast mk events input.root parts) {scope : BlockScope}
    (hscope : input.resolve.value.scopeOf? node = some scope) :
    ∃ c ∈ input.resolve.value.classes, c.fullName = scope.owningClass := by
  obtain ⟨block, -, hblock⟩ := Option.bind_eq_some_iff.mp hscope
  have hmem := Std.TreeMap.mem_iff_isSome_getElem?.mpr (Option.isSome_of_mem hblock)
  obtain ⟨owner, around, n, hn, ⟨opened, hopens, rfl⟩ | ⟨decl, hdata, rfl⟩⟩ :=
    visited_of_block h hmem
  · have hsettled := ((resolve_finds h).settled hn).scope opened hopens
    rw [hblock, Option.some.injEq] at hsettled
    rw [hsettled]
    exact known_of_visited h hn
  · have hsettled := ((resolve_finds h).settled hn).ofClass decl hdata
    rw [hblock, Option.some.injEq] at hsettled
    rw [hsettled]
    exact known_of_visited h hn

/-- A class that does not stand at the top is listed by the class around it. -/
theorem Site.listed (h : ScriptRecorded input.ast mk events input.root parts) {site : ClassSite}
    (hsite : input.Site site) : site.enclosing = none ∨
    ∃ outer decl, input.Site outer ∧ input.ast.classDecl? outer.decl = some decl ∧
      site ∈ innerSites input.ast outer decl ∧ site.enclosing = some outer.fullName ∧
      site.fullName = outer.fullName ++ "." ++ site.name := by
  cases hsite with
  | top _ _ _ _ => exact .inl rfl
  | @inner outerDecl decl outer i houter houterDecl hi hdecl hname =>
    obtain ⟨⟨decl', hdata, hscript⟩, -⟩ := houter.declares.isClass h
    obtain rfl := Option.some.inj (houterDecl.symm.trans (Ast.classDecl?_eq_some.mpr hdata))
    have hmem : ClassSite.mk i decl.name _ _ ∈ innerSites input.ast outer outerDecl :=
      mem_innerSites hi hdecl hname
    rw [if_neg (by simp [hscript]), if_neg (by simp [hscript])] at hmem
    exact .inr ⟨outer, outerDecl, houter, houterDecl, hmem, rfl, rfl⟩

/-- What has a site is a class of the script. -/
theorem Site.known (h : ScriptRecorded input.ast mk events input.root parts) {site : ClassSite}
    (hsite : input.Site site) {decl : ClassDecl}
    (hdecl : input.ast.classDecl? site.decl = some decl) :
    ∃ c ∈ input.resolve.value.classes, c.fullName = site.fullName ∧
      c.inner = (innerSites input.ast site decl).map ClassSite.fullName := by
  obtain ⟨decl', hdecl', hmem⟩ := hsite.mem h
  obtain rfl := Option.some.inj (hdecl.symm.trans hdecl')
  rw [classes_resolve h]
  exact ⟨_, List.mem_map_of_mem hmem, rfl, rfl⟩

/-- The classes of a script are its own and those with a site. -/
theorem known_cases (h : ScriptRecorded input.ast mk events input.root parts) {c : ClassSummary}
    (hc : c ∈ input.resolve.value.classes) :
    (c.isScript = true ∧ c.enclosing = none ∧
      c.fullName = qualify parts.decl.package input.scriptName) ∨
    ∃ site, input.Site site ∧ c.fullName = site.fullName ∧ c.enclosing = site.enclosing := by
  rw [classes_resolve h] at hc
  obtain ⟨s, hs, rfl⟩ := List.mem_map.mp hc
  rcases site_of_mem h hs with rfl | ⟨site, decl, hsite, -, rfl⟩
  · exact .inl ⟨h.script.isScript, rfl, rfl⟩
  · exact .inr ⟨site, hsite, rfl, rfl⟩

/-- The full names of the classes of a text tell where the classes stand. -/
theorem qualified (h : ScriptRecorded input.ast mk events input.root parts)
    (ha : input.Anchored text (Significant text))
    (hdistinct : (input.resolve.value.classes.map ClassSummary.fullName).Nodup) :
    input.resolve.value.Qualified := by
  have hpackage : input.resolve.value.package = parts.decl.package :=
    congrArg Resolution.Header.package (header_resolve h)
  refine ⟨hdistinct, fun c hc => ?_, fun c hc hscript => ?_, fun c hc name hname => ?_⟩
  · rw [hpackage]
    rcases known_cases h hc with ⟨-, -, hfull⟩ | ⟨site, hsite, hfull, -⟩
    · rw [hfull, points_qualify parts.decl.package input.scriptName]
      exact Nat.le_add_right _ _
    · rw [hfull]
      rcases hsite.cases_enclosing h ha with ⟨-, heq⟩ | ⟨_, -, -, -, -, hlt⟩
      · exact Nat.le_of_eq heq.symm
      · exact Nat.le_of_lt hlt
  · rcases known_cases h hc with ⟨hisScript, -⟩ | ⟨site, hsite, hfull, henclosing⟩
    · cases hscript.symm.trans hisScript
    · rw [hpackage, hfull, henclosing]
      rcases hsite.listed h with hnone | ⟨outer, decl, houter, hdecl, hmem, -, hnested⟩
      · refine .inl ⟨hnone, ?_⟩
        rcases hsite.cases_enclosing h ha with ⟨-, heq⟩ | ⟨_, -, hsome, -⟩
        · exact heq
        · cases hnone.symm.trans hsome
      · obtain ⟨e, he, hefull, hinner⟩ := houter.known h hdecl
        refine .inr ⟨e, he, site.name, hsite.points_name h ha, ?_, ?_⟩
        · rw [hefull, hnested]
        · rw [hinner]
          exact List.mem_map_of_mem hmem
  · rcases known_cases h hc with ⟨-, hnone, -⟩ | ⟨site, hsite, -, henclosing⟩
    · cases hnone.symm.trans hname
    · rcases hsite.listed h with hnone | ⟨outer, decl, houter, hdecl, -, hsome, -⟩
      · cases (henclosing.trans hnone).symm.trans hname
      · obtain ⟨e, he, hefull, -⟩ := houter.known h hdecl
        rw [henclosing, hsome, Option.some.injEq] at hname
        exact ⟨e, he, hefull.trans hname⟩

/-- In every text whose classes have different full names, whatever class a name without a point
    stands for in the code around a node is offered at the node, and no class is offered twice. -/
theorem usable_classes_offered (text scriptName : String) (file : FileId) (globals : Globals) :
    ∃ p, parseScript text = .ok p ∧ ∀ input : ResolveInput,
      input = ⟨file, scriptName, p.ast, p.root, globals, .none⟩ →
      (input.resolve.value.classes.map ClassSummary.fullName).Nodup →
      ∀ node scope, input.resolve.value.scopeOf? node = some scope →
        input.resolve.value.OffersUsable node scope.owningClass := by
  obtain ⟨p, -, -, -, hp, -⟩ := parseWith_script text (scan_endsWithEof text)
  obtain ⟨parts, hparts⟩ := ScriptRecorded.of_parse hp
  have hrun := ScriptRun.of_parse hp
  refine ⟨p, hp, ?_⟩
  rintro input rfl hdistinct node scope hscope
  have h : ScriptRecorded (ResolveInput.mk file scriptName p.ast p.root globals .none).ast _ _
      (ResolveInput.mk file scriptName p.ast p.root globals .none).root parts := hparts
  exact (qualified h (.of_script hrun hparts rfl rfl) hdistinct).offers hscope
    (known_owner h hscope)

/-- In a method of a class the class itself, the class in it and the other class of the script are
    offered. -/
theorem classes_offered_in_method : ∃ p,
    parseScript "class A\x7bclass B\x7b\x7d A m()\x7b\x7d\x7d class C\x7b\x7d" = .ok p ∧
    ∀ input : ResolveInput, input = ⟨0, "S", p.ast, p.root, .empty, .none⟩ →
      (input.resolve.value.classes.map ClassSummary.fullName).Nodup ∧
      input.resolve.value.OffersUsable 6 "A" ∧
      (input.resolve.value.visibleClasses .none 6).value.map ClassSummary.fullName =
        ["A", "A.B", "C"] := by
  obtain ⟨p, hp, hoffers⟩ := usable_classes_offered
    "class A\x7bclass B\x7b\x7d A m()\x7b\x7d\x7d class C\x7b\x7d" "S" 0 .empty
  obtain ⟨hdistinct, hscope, hvisible⟩ := of_parse hp (P := fun p =>
    ((ResolveInput.mk 0 "S" p.ast p.root .empty .none).resolve.value.classes.map
      ClassSummary.fullName).Nodup ∧
    ((ResolveInput.mk 0 "S" p.ast p.root .empty .none).resolve.value.scopeOf? 6).map
      BlockScope.owningClass = some "A" ∧
    ((ResolveInput.mk 0 "S" p.ast p.root .empty .none).resolve.value.visibleClasses
      .none 6).value.map
      ClassSummary.fullName = ["A", "A.B", "C"]) (by decide +kernel)
  refine ⟨p, hp, ?_⟩
  rintro input rfl
  obtain ⟨scope, hscope, howner⟩ := Option.map_eq_some_iff.mp hscope
  exact ⟨hdistinct, howner ▸ hoffers _ rfl hdistinct 6 scope hscope, hvisible⟩

end ResolveInput

end ScriptAnalysis
