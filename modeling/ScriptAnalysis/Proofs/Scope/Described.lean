import ScriptAnalysis.Proofs.Scope.FullNames

/-!
# Which classes are described, and in which order

`describeClasses` goes down from the class of the script through the lists of classes in each class.
It comes to every class that `ResolveInput.Declares` tells of, to each of them once.  The classes of
a list stand one behind the other in the text, and those in a class behind its keyword and in front
of the next class, so what is described is in the order of the keywords.

The recursion is bounded by the number of nodes, and the loop that goes outwards by the number of
classes.  Neither bound is ever met (`ResolveInput.Describes`): the ids fall on the way down, and
the full names get shorter on the way up.
-/

namespace ScriptAnalysis

namespace ResolveInput

/-- What the description of a script says. -/
structure Describes (input : ResolveInput) (text : String) (script : ClassDecl)
    (classes : List ClassSummary) : Prop where
  /-- A deeper recursion would find no more classes. -/
  deep : ∀ depth ≥ input.ast.size, classes =
    (summariesBelow input.file input.ast depth (input.rootSite script)).map fun c => { c with
      base := baseWithin (input.summaries script) script.package
        (importsOf input.ast input.root) c }
  /-- On the way outwards from a class the names end before the steps do. -/
  chain : ∀ c ∈ input.summaries script, ∃ names,
    (∀ steps ≥ names.length, outwards (input.summaries script) steps c.enclosing = names) ∧
      enclosingChain (input.summaries script) c = c.fullName :: names
  /-- The class of the script comes first. -/
  first : ∃ c ∈ classes.head?, c.decl = input.root ∧ c.name = input.scriptName ∧
    c.fullName = qualify script.package input.scriptName ∧ c.enclosing = none
  /-- After it come the classes with names that stand only in classes with names. -/
  declared : ∀ i, i ∈ classes.tail.map ClassSummary.decl ↔ ∃ owner, input.Declares owner i
  once : (classes.map ClassSummary.decl).Nodup
  /-- Each of them stands at its keyword, and they are in the order of these. -/
  keyword : ∀ c ∈ classes.tail, ∃ t ∈ scan text, t.kind = .classKw ∧
    t.offset = (input.ast.span c.decl).start
  ordered : classes.tail.Pairwise fun c d =>
    (input.ast.span c.decl).start < (input.ast.span d.decl).start
  named : ∀ c ∈ classes.tail, ∃ decl, input.ast.classDecl? c.decl = some decl ∧ c.name = decl.name
  /-- A class at the top of the script is qualified by the package. -/
  top : ∀ c ∈ classes.tail, c.decl ∈ script.inner →
    c.enclosing = none ∧ c.fullName = qualify script.package c.name
  /-- Any other class is qualified by the class around it. -/
  nested : ∀ e ∈ classes.tail, ∀ decl, input.ast.classDecl? e.decl = some decl →
    ∀ c ∈ classes.tail, c.decl ∈ decl.inner →
      c.enclosing = some e.fullName ∧ c.fullName = e.fullName ++ "." ++ c.name
  placed : ∀ c ∈ classes.tail, c.decl ∈ script.inner ∨ ∃ e ∈ classes.tail, ∃ decl,
    input.ast.classDecl? e.decl = some decl ∧ c.decl ∈ decl.inner
  /-- The classes directly in a class are told by their full names, in the order of the text. -/
  inner : ∀ e ∈ classes, ∃ decl, input.ast.classDecl? e.decl = some decl ∧
    e.inner = (decl.inner.filterMap fun i => classes.find? (·.decl == i)).map
      ClassSummary.fullName ∧
    decl.inner.Pairwise fun i j => (input.ast.span i).start < (input.ast.span j).start

variable {input : ResolveInput} {mk : MarkerId → Marker} {events : List Event} {parts : ScriptParts}
  {site site' : ClassSite} {depth : Nat} {decl : ClassDecl} {text : String}

/-! ### How deep the recursion goes -/

theorem Site.lt_root (h : ScriptRecorded input.ast mk events input.root parts)
    (hsite : input.Site site) : site.decl < input.root := by
  have hlt := ((hsite.declares.isClass h).2.mem_lt (List.mem_singleton_self _)).2
  exact Nat.lt_of_lt_of_le hlt (Nat.le_trans h.le_body (Nat.le_of_lt h.body_lt))

/-- The classes directly in a class are allocated before it. -/
theorem lt_of_mem_inner (h : ScriptRecorded input.ast mk events input.root parts)
    (hsite : site = input.rootSite parts.decl ∨ input.Site site)
    (hdecl : input.ast.classDecl? site.decl = some decl) {i : NodeId} (hi : i ∈ decl.inner) :
    i < site.decl := by
  rcases hsite with rfl | hsite
  · obtain rfl := Option.some.inj (h.classDecl?_root.symm.trans hdecl)
    have hlt := ((h.laid_class hi).mem_lt (List.mem_singleton_self _)).2
    exact Nat.lt_of_lt_of_le hlt (Nat.le_trans h.le_body (Nat.le_of_lt h.body_lt))
  · exact ((hsite.declares.isClass h).2.part (Ast.classDecl?_eq_some.mp hdecl)
      (by simp [NodeData.parts, hi])).2

/-- So the recursion comes to its end before the depth does. -/
theorem summariesBelow_eq (h : ScriptRecorded input.ast mk events input.root parts)
    (hsite : site = input.rootSite parts.decl ∨ input.Site site) {depth' : Nat}
    (hdepth : site.decl < depth) (hdepth' : site.decl < depth') :
    summariesBelow input.file input.ast depth site =
      summariesBelow input.file input.ast depth' site := by
  induction depth generalizing site depth' with
  | zero => exact absurd hdepth (Nat.not_lt_zero _)
  | succ depth ih =>
    obtain ⟨depth', rfl⟩ : ∃ k, depth' = k + 1 :=
      Nat.exists_eq_succ_of_ne_zero (Nat.ne_of_gt (Nat.zero_lt_of_lt hdepth'))
    unfold summariesBelow
    split
    · rfl
    · next decl hdecl =>
      congr 1
      refine List.flatMap_congr fun inner hinner => ?_
      have hlt := lt_of_mem_inner h hsite hdecl
        ((innerSites_sublist input.ast site decl).mem (List.mem_map_of_mem hinner))
      exact ih (.inr (site_of_inner h hsite hdecl hinner))
        (Nat.lt_of_lt_of_le hlt (Nat.le_of_lt_succ hdepth))
        (Nat.lt_of_lt_of_le hlt (Nat.le_of_lt_succ hdepth'))

/-! ### Which classes are described -/

/-- A declaration has one site. -/
theorem Site.unique (h : ScriptRecorded input.ast mk events input.root parts)
    (hsite : input.Site site) (hsite' : input.Site site') (heq : site.decl = site'.decl) :
    site = site' := by
  obtain ⟨decl, -, hmem⟩ := hsite.mem h
  obtain ⟨decl', -, hmem'⟩ := hsite'.mem h
  have hsame := List.inj_on_of_nodup_map (nodup_classes h) hmem hmem' heq
  obtain ⟨d, name, fullName, enclosing⟩ := site
  obtain ⟨d', name', fullName', enclosing'⟩ := site'
  simp only [summarise, ClassSummary.mk.injEq] at hsame
  obtain ⟨rfl, -, rfl, -, -, -, -, rfl, -, -, rfl⟩ := hsame
  rfl

theorem Site.named (hsite : input.Site site) : ∃ decl,
    input.ast.classDecl? site.decl = some decl ∧ decl.name.isEmpty = false ∧
      site.name = decl.name := by
  cases hsite with
  | top _ _ hdecl hname => exact ⟨_, hdecl, hname, rfl⟩
  | inner _ _ _ hdecl hname => exact ⟨_, hdecl, hname, rfl⟩

/-- What is described after the class of the script. -/
theorem mem_tail_summaries (h : ScriptRecorded input.ast mk events input.root parts)
    {c : ClassSummary} : c ∈ (input.summaries parts.decl).tail ↔ ∃ site decl, input.Site site ∧
      input.ast.classDecl? site.decl = some decl ∧
        c = summarise input.file input.ast site decl := by
  obtain ⟨depth, -, heq⟩ := exists_summaries h
  constructor
  · intro hc
    rw [heq] at hc
    obtain ⟨inner, hinner, hc⟩ := List.mem_flatMap.mp hc
    exact (site_of_inner h (.inl rfl) h.classDecl?_root hinner).of_mem h hc
  · rintro ⟨site, decl, hsite, hdecl, rfl⟩
    obtain ⟨decl', hdecl', hmem⟩ := hsite.mem h
    obtain rfl := Option.some.inj (hdecl.symm.trans hdecl')
    rw [heq] at hmem ⊢
    refine (List.mem_cons.mp hmem).resolve_left fun hroot => ?_
    exact Nat.ne_of_lt (hsite.lt_root h) (congrArg ClassSummary.decl hroot)

/-- The classes with names directly in a class are found among what is described. -/
theorem find?_summaries (h : ScriptRecorded input.ast mk events input.root parts)
    (hsite : site = input.rootSite parts.decl ∨ input.Site site)
    (hdecl : input.ast.classDecl? site.decl = some decl) :
    (innerSites input.ast site decl).map ClassSite.fullName =
      (decl.inner.filterMap fun i =>
        (input.summaries parts.decl).find? (·.decl == i)).map ClassSummary.fullName := by
  unfold innerSites
  rw [List.map_filterMap, List.map_filterMap]
  refine List.filterMap_congr fun i hi => ?_
  have hnone (hnameless : ∀ inner, input.ast.classDecl? i = some inner →
      inner.name.isEmpty = true) : (input.summaries parts.decl).find? (·.decl == i) = none := by
    refine List.find?_eq_none.mpr fun c hc heq => ?_
    obtain rfl : c.decl = i := by simpa using heq
    have hlt := lt_of_mem_inner h hsite hdecl hi
    rcases site_of_mem h hc with rfl | ⟨s, _, hs, -, rfl⟩
    · rcases hsite with rfl | hsite
      · exact Nat.lt_irrefl _ hlt
      · exact Nat.lt_asymm hlt (hsite.lt_root h)
    · obtain ⟨inner, hinner, hname, -⟩ := hs.named
      cases (hnameless inner hinner).symm.trans hname
  split
  · next hmissing =>
    rw [hnone (fun inner hinner => by cases hmissing.symm.trans hinner)]
    rfl
  · next inner hinner =>
    split
    · next hempty =>
      rw [hnone (fun inner' hinner' => Option.some.inj (hinner.symm.trans hinner') ▸ hempty)]
      rfl
    · next hname =>
      have hs := site_of_inner h hsite hdecl (mem_innerSites hi hinner (by simpa using hname))
      obtain ⟨_, -, hmem⟩ := hs.mem h
      have hfound := find?_of_nodup (nodup_classes h) hmem
      exact (congrArg (Option.map ClassSummary.fullName) hfound).symm

/-! ### In which order they are described -/

section Order

variable (h : ScriptRecorded input.ast mk events input.root parts)
  (hrows : ∀ n c, input.ast.data? n = some (.classDecl c) → input.ast.HoldsRow n c)

include h hrows

/-- The classes directly in a class are in a row, behind the keyword of a class that has one. -/
theorem Site.row (hsite : input.Site site) (hdecl : input.ast.classDecl? site.decl = some decl) :
    ∃ a b, input.ast.Row a ((innerSites input.ast site decl).map ClassSite.decl) b ∧
      (input.ast.span site.decl).start < a ∧ b ≤ (input.ast.span site.decl).stop := by
  obtain ⟨⟨decl', hdata, hscript⟩, -⟩ := hsite.declares.isClass h
  obtain rfl := Option.some.inj (hdecl.symm.trans (Ast.classDecl?_eq_some.mpr hdata))
  obtain ⟨a, b, hrow, hin⟩ := hrows _ _ hdata
  exact ⟨a, b, hrow.sublist (innerSites_sublist input.ast site decl), hin hscript⟩

/-- Whatever is described with a class stands within it. -/
theorem Site.within (hsite : input.Site site)
    (hlt : (input.ast.span site.decl).start < (input.ast.span site.decl).stop) {c : ClassSummary}
    (hc : c ∈ summariesBelow input.file input.ast depth site) :
    (input.ast.span site.decl).start ≤ (input.ast.span c.decl).start ∧
      (input.ast.span c.decl).start < (input.ast.span site.decl).stop := by
  induction depth generalizing site with
  | zero => cases hc
  | succ depth ih =>
    unfold summariesBelow at hc
    split at hc
    · cases hc
    · next decl hdecl =>
      rcases List.mem_cons.mp hc with rfl | hc
      · exact ⟨Nat.le_refl _, hlt⟩
      · obtain ⟨inner, hinner, hc⟩ := List.mem_flatMap.mp hc
        obtain ⟨a, b, hrow, ha, hb⟩ := hsite.row h hrows hdecl
        obtain ⟨hstart, hlt, hstop⟩ := hrow.of_mem (List.mem_map_of_mem hinner)
        have hbelow := ih (site_of_inner h (.inr hsite) hdecl hinner) hlt hc
        omega

/-- Classes in a row are described in order, if those within each of them are. -/
theorem ordered_flatMap {sites : List ClassSite} {a b : Nat} (hsites : ∀ s ∈ sites, input.Site s)
    (hrow : input.ast.Row a (sites.map ClassSite.decl) b)
    (heach : ∀ s ∈ sites, (summariesBelow input.file input.ast depth s).Pairwise fun c d =>
      (input.ast.span c.decl).start < (input.ast.span d.decl).start) :
    (sites.flatMap (summariesBelow input.file input.ast depth)).Pairwise fun c d =>
      (input.ast.span c.decl).start < (input.ast.span d.decl).start := by
  induction sites generalizing a with
  | nil => exact .nil
  | cons s sites ih =>
    cases hrow with
    | cons hdata hstart hlt hrest =>
      rw [List.flatMap_cons]
      refine List.pairwise_append.mpr ⟨heach s (List.mem_cons_self ..), ?_, fun c hc d hd => ?_⟩
      · exact ih (fun s hs => hsites s (List.mem_cons_of_mem _ hs)) hrest
          fun s hs => heach s (List.mem_cons_of_mem _ hs)
      · obtain ⟨s', hs', hd⟩ := List.mem_flatMap.mp hd
        obtain ⟨hstart', hlt', -⟩ := hrest.of_mem (List.mem_map_of_mem hs')
        have hbefore := (hsites s (List.mem_cons_self ..)).within h hrows hlt hc
        have hbehind := (hsites s' (List.mem_cons_of_mem _ hs')).within h hrows hlt' hd
        omega

theorem Site.ordered (hsite : input.Site site) :
    (summariesBelow input.file input.ast depth site).Pairwise fun c d =>
      (input.ast.span c.decl).start < (input.ast.span d.decl).start := by
  induction depth generalizing site with
  | zero => exact .nil
  | succ depth ih =>
    unfold summariesBelow
    split
    · exact .nil
    · next decl hdecl =>
      obtain ⟨a, b, hrow, ha, hb⟩ := hsite.row h hrows hdecl
      have hsites : ∀ s ∈ innerSites input.ast site decl, input.Site s :=
        fun s hs => site_of_inner h (.inr hsite) hdecl hs
      refine .cons (fun c hc => ?_) (ordered_flatMap h hrows hsites hrow fun s hs =>
        ih (hsites s hs))
      obtain ⟨inner, hinner, hc⟩ := List.mem_flatMap.mp hc
      obtain ⟨hstart, hlt, hstop⟩ := hrow.of_mem (List.mem_map_of_mem hinner)
      have hbelow := (hsites inner hinner).within h hrows hlt hc
      exact Nat.lt_of_lt_of_le ha (Nat.le_trans hstart hbelow.1)

theorem ordered_summaries : (input.summaries parts.decl).tail.Pairwise fun c d =>
    (input.ast.span c.decl).start < (input.ast.span d.decl).start := by
  obtain ⟨depth, -, heq⟩ := exists_summaries h
  rw [heq]
  obtain ⟨a, b, hrow, -⟩ := hrows _ _ h.data_root
  have hsites : ∀ s ∈ innerSites input.ast (input.rootSite parts.decl) parts.decl, input.Site s :=
    fun s hs => site_of_inner h (.inl rfl) h.classDecl?_root hs
  exact ordered_flatMap h hrows hsites (hrow.sublist (innerSites_sublist ..)) fun s hs =>
    (hsites s hs).ordered h hrows

end Order

/-! ### The loop that goes outwards -/

/-- Outwards from what is described the names come to an end. -/
theorem chain_ends (h : ScriptRecorded input.ast mk events input.root parts)
    (ha : input.Anchored text (Significant text)) {c : ClassSummary}
    (hc : c ∈ input.summaries parts.decl) : ∃ names,
      (∀ steps ≥ names.length, outwards (input.summaries parts.decl) steps c.enclosing = names) ∧
        enclosingChain (input.summaries parts.decl) c = c.fullName :: names := by
  have hnone (hnone : c.enclosing = none) : ∃ names,
      (∀ steps ≥ names.length, outwards (input.summaries parts.decl) steps c.enclosing = names) ∧
        enclosingChain (input.summaries parts.decl) c = c.fullName :: names := by
    have hnil : ∀ steps, outwards (input.summaries parts.decl) steps c.enclosing = [] := by
      intro steps
      rw [hnone]
      cases steps <;> rfl
    exact ⟨[], fun steps _ => hnil steps, congrArg (c.fullName :: ·) (hnil _)⟩
  rcases site_of_mem h hc with rfl | ⟨site, decl, hsite, -, rfl⟩
  · exact hnone rfl
  · rcases hsite.cases_enclosing h ha with ⟨hsome, -⟩ | ⟨outer, houter, hsome, -⟩
    · exact hnone hsome
    · obtain ⟨names, hnames, hnodup, hbelow⟩ := houter.outwards h ha
      have hsteps : ∀ steps ≥ names.length,
          outwards (input.summaries parts.decl) steps site.enclosing = names := by
        intro steps hle
        rw [hsome]
        exact hnames.outwards_eq hle
      have hlength := length_le_of_known hnodup fun n hn => (hbelow n hn).2
      exact ⟨names, hsteps, congrArg (site.fullName :: ·) (hsteps _ (by omega))⟩

/-! ### The description of a script -/

/-- What is described after the class of the script tells of a site. -/
theorem site_of_mem_tail (h : ScriptRecorded input.ast mk events input.root parts)
    {c : ClassSummary} (hc : c ∈ (input.described parts.decl).tail) : ∃ site, input.Site site ∧
      c.decl = site.decl ∧ c.name = site.name ∧ c.fullName = site.fullName ∧
      c.enclosing = site.enclosing := by
  unfold described at hc
  rw [← List.map_tail] at hc
  obtain ⟨c', hc', rfl⟩ := List.mem_map.mp hc
  obtain ⟨site, decl, hsite, -, rfl⟩ := (mem_tail_summaries h).mp hc'
  exact ⟨site, hsite, rfl, rfl, rfl, rfl⟩

theorem Site.mem_tail (h : ScriptRecorded input.ast mk events input.root parts)
    (hsite : input.Site site) : ∃ c ∈ (input.described parts.decl).tail, c.decl = site.decl := by
  obtain ⟨decl, hdecl, -⟩ := hsite.named
  unfold described
  rw [← List.map_tail]
  exact ⟨_, List.mem_map_of_mem ((mem_tail_summaries h).mpr ⟨site, decl, hsite, hdecl, rfl⟩), rfl⟩

theorem mem_described (h : ScriptRecorded input.ast mk events input.root parts) {c : ClassSummary}
    (hc : c ∈ input.described parts.decl) : ∃ site decl,
      (site = input.rootSite parts.decl ∨ input.Site site) ∧
      input.ast.classDecl? site.decl = some decl ∧ c.decl = site.decl ∧
      c.inner = (innerSites input.ast site decl).map ClassSite.fullName := by
  unfold described at hc
  obtain ⟨c', hc', rfl⟩ := List.mem_map.mp hc
  rcases site_of_mem h hc' with rfl | ⟨site, decl, hsite, hdecl, rfl⟩
  · exact ⟨_, parts.decl, .inl rfl, h.classDecl?_root, rfl, rfl⟩
  · exact ⟨site, decl, .inr hsite, hdecl, rfl, rfl⟩

theorem inner_described (h : ScriptRecorded input.ast mk events input.root parts)
    (hsite : site = input.rootSite parts.decl ∨ input.Site site)
    (hdecl : input.ast.classDecl? site.decl = some decl) :
    (innerSites input.ast site decl).map ClassSite.fullName =
      (decl.inner.filterMap fun i =>
        (input.described parts.decl).find? (·.decl == i)).map ClassSummary.fullName := by
  rw [find?_summaries h hsite hdecl, List.map_filterMap, List.map_filterMap]
  refine List.filterMap_congr fun i _ => ?_
  unfold described
  rw [List.find?_map, Option.map_map]
  rfl

theorem describes (h : ScriptRecorded input.ast mk events input.root parts)
    (ha : input.Anchored text (Significant text))
    (hrows : ∀ n c, input.ast.data? n = some (.classDecl c) → input.ast.HoldsRow n c) :
    input.Describes text parts.decl (input.described parts.decl) where
  deep := by
    intro depth hdepth
    have hroot := Ast.lt_size_of_data? h.data_root
    unfold described summaries
    rw [summariesBelow_eq h (.inl rfl) (Nat.lt_of_lt_of_le hroot hdepth) hroot]
  chain := fun c hc => chain_ends h ha hc
  first := by
    obtain ⟨depth, -, heq⟩ := exists_summaries h
    unfold described
    rw [heq, List.map_cons]
    exact ⟨_, rfl, rfl, rfl, rfl, rfl⟩
  declared := by
    intro i
    constructor
    · intro hi
      obtain ⟨c, hc, rfl⟩ := List.mem_map.mp hi
      obtain ⟨site, hsite, hdecl, -⟩ := site_of_mem_tail h hc
      exact ⟨_, hdecl ▸ hsite.declares⟩
    · rintro ⟨owner, hi⟩
      obtain ⟨site, hsite, rfl, -⟩ := hi.sited
      obtain ⟨c, hc, hdecl⟩ := hsite.mem_tail h
      exact List.mem_map.mpr ⟨c, hc, hdecl⟩
  once := by
    have hnodup := nodup_classes h
    unfold described
    rwa [List.map_map]
  keyword := by
    intro c hc
    obtain ⟨site, hsite, hdecl, -⟩ := site_of_mem_tail h hc
    obtain ⟨⟨decl', hdata, hscript⟩, -⟩ := hsite.declares.isClass h
    rw [hdecl]
    rcases ha.placed_in hdata (by simp) with hisScript | ⟨⟨t, ht, hkind, hoffset⟩, -⟩
    · cases hscript.symm.trans hisScript
    · exact ⟨t, ht.1, hkind, hoffset⟩
  ordered := by
    have hordered := ordered_summaries h hrows
    unfold described
    rw [← List.map_tail, List.pairwise_map]
    exact hordered
  named := by
    intro c hc
    obtain ⟨site, hsite, hdecl, hname, -⟩ := site_of_mem_tail h hc
    obtain ⟨decl, hsited, -, hnamed⟩ := hsite.named
    exact ⟨decl, hdecl ▸ hsited, hname.trans hnamed⟩
  top := by
    intro c hc hi
    obtain ⟨site, hsite, hdecl, hname, hfull, houter⟩ := site_of_mem_tail h hc
    obtain ⟨decl, hsited, hnamed, -⟩ := hsite.named
    obtain heq := hsite.unique h (.top h.classDecl?_root (hdecl ▸ hi) hsited hnamed) rfl
    rw [hname, hfull, houter, heq]
    exact ⟨rfl, rfl⟩
  nested := by
    intro e he outer houter c hc hi
    obtain ⟨around, haround, hdecl', -, hfull', -⟩ := site_of_mem_tail h he
    obtain ⟨site, hsite, hdecl, hname, hfull, hout⟩ := site_of_mem_tail h hc
    obtain ⟨decl, hsited, hnamed, -⟩ := hsite.named
    have heq := hsite.unique h
      (.inner haround (hdecl' ▸ houter) (hdecl ▸ hi) hsited hnamed) rfl
    rw [hname, hfull, hout, hfull', heq]
    exact ⟨rfl, rfl⟩
  placed := by
    intro c hc
    obtain ⟨site, hsite, hdecl, -⟩ := site_of_mem_tail h hc
    rw [hdecl]
    cases hsite with
    | top hscript hi _ _ =>
      obtain rfl := Option.some.inj (h.classDecl?_root.symm.trans hscript)
      exact .inl hi
    | inner haround houter hi _ _ =>
      obtain ⟨e, he, hedecl⟩ := haround.mem_tail h
      exact .inr ⟨e, he, _, hedecl ▸ houter, hi⟩
  inner := by
    intro e he
    obtain ⟨site, decl, hsite, hdecl, hsame, hinner⟩ := mem_described h he
    obtain ⟨a, b, hrow, -⟩ := hrows _ _ (Ast.classDecl?_eq_some.mp hdecl)
    refine ⟨decl, hsame ▸ hdecl, hinner.trans (inner_described h hsite hdecl), ?_⟩
    refine hrow.pairwise.imp_of_mem fun hi _ hle => ?_
    exact Nat.lt_of_lt_of_le (hrow.of_mem hi).2.1 hle

/-- In every text, under every name of the script. -/
theorem classes_described (text scriptName : String) (file : FileId) (globals : Globals)
    (others : ClassLookup) : ∃ p script, parseScript text = .ok p ∧
      p.ast.classDecl? p.root = some script ∧
      (ResolveInput.mk file scriptName p.ast p.root globals others).Describes text script
        (describeClasses file scriptName p.ast p.root) := by
  obtain ⟨p, -, -, -, hp, -⟩ := parseWith_script text (scan_endsWithEof text)
  obtain ⟨parts, hparts⟩ := ScriptRecorded.of_parse hp
  have hrun := ScriptRun.of_parse hp
  have h : ScriptRecorded (ResolveInput.mk file scriptName p.ast p.root globals others).ast _ _
      (ResolveInput.mk file scriptName p.ast p.root globals others).root parts := hparts
  refine ⟨p, parts.decl, hp, h.classDecl?_root, ?_⟩
  have hdescribes := describes h (.of_script hrun hparts rfl rfl) hrun.stand.rows
  have hclasses : describeClasses file scriptName p.ast p.root =
      (ResolveInput.mk file scriptName p.ast p.root globals others).described parts.decl := by
    rw [← classes_resolve h, ResolveInput.resolve_classes]
  rwa [hclasses]

end ResolveInput

end ScriptAnalysis
