import ScriptAnalysis.Proofs.Scope.Reports
import ScriptAnalysis.Proofs.Token.Longest
import ScriptAnalysis.Proofs.Token.Spelling

/-!
# Full names of classes

The full name of a class is that of the class around it, a point, and its own name, which has no
point in it.  So a class at the top of a script has as many points in its full name as the package
gives it, every other class has more, and what is in front of the last point is the class around
(`ResolveInput.Site.enclosing_eq`).  The class of the script is apart: its name is not taken from
the text.

Going outwards from a class is therefore the same for the summaries of a file and for a resolution,
which asks for the classes around by their full names (`ResolveInput.Site.enclosingChain_eq`).
-/

namespace ScriptAnalysis

/-! ### Points in names -/

def points (name : String) : Nat := name.toList.count '.'

theorem points_nested (outer name : String) :
    points (outer ++ "." ++ name) = points outer + 1 + points name := by
  simp [points, String.toList_append, Nat.add_assoc, Nat.add_comm 1]

/-- A package gives its points to every name in it. -/
theorem points_qualify (package : Option String) (name : String) :
    points (qualify package name) = points (qualify package "") + points name := by
  unfold qualify
  split
  · simp [points]
  · split
    · simp [points]
    · rw [points_nested, points_nested]
      rfl

/-- What stands in front of the last point. -/
theorem eq_of_nested {outer outer' name name' : String} (hname : points name = 0)
    (hname' : points name' = 0) (h : outer ++ "." ++ name = outer' ++ "." ++ name') :
    outer = outer' := by
  have hrun {name : String} (hname : points name = 0) :
      ∀ c ∈ name.toList.reverse, (c != '.') = true := by
    intro c hc
    refine bne_iff_ne.mpr ?_
    rintro rfl
    exact List.count_eq_zero.mp hname (List.mem_reverse.mp hc)
  have hdrop {outer name : String} (hname : points name = 0) :
      ((outer ++ "." ++ name).toList.reverse).dropWhile (· != '.') =
        '.' :: outer.toList.reverse := by
    have hsplit : (outer ++ "." ++ name).toList.reverse =
        name.toList.reverse ++ '.' :: outer.toList.reverse := by
      simp [String.toList_append]
    rw [hsplit]
    exact (span_append (hrun hname) (by simp)).2
  have hsame : '.' :: outer.toList.reverse = '.' :: outer'.toList.reverse := by
    refine (hdrop hname).symm.trans ?_
    rw [h]
    exact hdrop hname'
  exact String.toList_inj.mp (List.reverse_injective (List.cons.inj hsame).2)

namespace Scan

/-- A name is made of the characters of a word. -/
theorem lexemes_ident (cs : List Char) {l : TokenKind × String} (h : l ∈ lexemes cs)
    (hkind : l.1 = .ident) : points l.2 = 0 := by
  induction cs using lexemes.induct with
  | case1 =>
    rw [lexemes, List.mem_singleton] at h
    subst h
    cases hkind
  | case2 c cs ih =>
    rw [lexemes] at h
    rcases List.mem_cons.mp h with rfl | h
    · rcases cut_right c cs with ⟨-, hlongest⟩ | ⟨herror, -⟩
      · have hrule := hlongest.admitted
        rw [show (cut c cs).kind = .ident from hkind] at hrule
        have hmem : '.' ∉ c :: (cut c cs).tail := by
          generalize (cut c cs).tail = tail at hrule
          cases hrule with
          | spelled hspelling => cases hspelling
          | ident hstart hpart =>
            rw [List.mem_cons, not_or]
            refine ⟨?_, fun hmem => ?_⟩
            · rintro rfl
              cases hstart
            · cases hpart _ hmem
        unfold points
        rw [String.toList_ofList]
        exact List.count_eq_zero.mpr hmem
      · cases herror.symm.trans hkind
    · exact ih h

end Scan

/-- There is no point in a name. -/
theorem points_textIn {text : String} {t : Token} (ht : t ∈ scan text) (hk : t.kind = .ident) :
    points (t.textIn text) = 0 := by
  have hmem : (t.kind, t.textIn text) ∈ Scan.lexemes text.toList := by
    rw [← scan_spelled]
    exact List.mem_map_of_mem ht
  exact Scan.lexemes_ident text.toList hmem hk

/-! ### Sites of classes -/

namespace ResolveInput

variable {input : ResolveInput} {mk : MarkerId → Marker} {events : List Event} {parts : ScriptParts}
  {site site' : ClassSite} {text : String}

/-- What stands directly in a class has a site if the class has one or is that of the script. -/
theorem site_of_inner (h : ScriptRecorded input.ast mk events input.root parts)
    (hsite : site = input.rootSite parts.decl ∨ input.Site site) {decl : ClassDecl}
    (hdecl : input.ast.classDecl? site.decl = some decl) {inner : ClassSite}
    (hinner : inner ∈ innerSites input.ast site decl) : input.Site inner := by
  obtain ⟨i, innerDecl, hi, hinnerDecl, hname, rfl⟩ := exists_of_mem_innerSites hinner
  rcases hsite with rfl | hsite
  · obtain rfl := Option.some.inj (h.classDecl?_root.symm.trans hdecl)
    rw [if_pos h.script.isScript, if_pos h.script.isScript]
    exact .top hdecl hi hinnerDecl hname
  · obtain ⟨⟨decl', hdata, hscript⟩, -⟩ := hsite.declares.isClass h
    obtain rfl := Option.some.inj (hdecl.symm.trans (Ast.classDecl?_eq_some.mpr hdata))
    rw [if_neg (by simp [hscript]), if_neg (by simp [hscript])]
    exact .inner hsite hdecl hi hinnerDecl hname

/-- All classes within a class that has a site have one. -/
theorem Site.of_mem (h : ScriptRecorded input.ast mk events input.root parts) {depth : Nat}
    (hsite : input.Site site) {c : ClassSummary}
    (hc : c ∈ summariesBelow input.file input.ast depth site) :
    ∃ s decl, input.Site s ∧ input.ast.classDecl? s.decl = some decl ∧
      c = summarise input.file input.ast s decl := by
  induction depth generalizing site with
  | zero => cases hc
  | succ depth ih =>
    unfold summariesBelow at hc
    split at hc
    · cases hc
    · next decl hdecl =>
      rcases List.mem_cons.mp hc with rfl | hc
      · exact ⟨site, decl, hsite, hdecl, rfl⟩
      · obtain ⟨inner, hinner, hc⟩ := List.mem_flatMap.mp hc
        exact ih (site_of_inner h (.inr hsite) hdecl hinner) hc

/-- The class of a script is that of its root, and all others have a site. -/
theorem site_of_mem (h : ScriptRecorded input.ast mk events input.root parts) {c : ClassSummary}
    (hc : c ∈ input.summaries parts.decl) :
    c = summarise input.file input.ast (input.rootSite parts.decl) parts.decl ∨
      ∃ s decl, input.Site s ∧ input.ast.classDecl? s.decl = some decl ∧
        c = summarise input.file input.ast s decl := by
  obtain ⟨depth, -, heq⟩ := exists_summaries h
  rw [heq] at hc
  rcases List.mem_cons.mp hc with rfl | hc
  · exact .inl rfl
  · obtain ⟨inner, hinner, hc⟩ := List.mem_flatMap.mp hc
    exact .inr ((site_of_inner h (.inl rfl) h.classDecl?_root hinner).of_mem h hc)

/-! ### What a full name tells -/

theorem Site.points_name (h : ScriptRecorded input.ast mk events input.root parts)
    (ha : input.Anchored text (Significant text)) (hsite : input.Site site) :
    points site.name = 0 := by
  have hclass := (hsite.declares.isClass h).1
  have hpoints {decl : ClassDecl} (hdecl : input.ast.classDecl? site.decl = some decl)
      (hname : decl.name.isEmpty = false) : points decl.name = 0 := by
    obtain ⟨decl', hdata, hscript⟩ := hclass
    obtain rfl := Option.some.inj (hdecl.symm.trans (Ast.classDecl?_eq_some.mpr hdata))
    rcases ha.placed_in hdata (by simp) with hisScript | ⟨-, hident⟩
    · cases hscript.symm.trans hisScript
    · obtain ⟨t, ht, hkind, heq⟩ := hident (by simpa using hname)
      rw [heq]
      exact points_textIn ht.1 hkind
  cases hsite with
  | top _ _ hdecl hname => exact hpoints hdecl hname
  | inner _ _ _ hdecl hname => exact hpoints hdecl hname

/-- A class at the top of a script has the points of the package, and every other class has more. -/
theorem Site.cases_enclosing (h : ScriptRecorded input.ast mk events input.root parts)
    (ha : input.Anchored text (Significant text)) (hsite : input.Site site) :
    (site.enclosing = none ∧
      points site.fullName = points (qualify parts.decl.package "")) ∨
    ∃ outer, input.Site outer ∧ site.enclosing = some outer.fullName ∧
      site.fullName = outer.fullName ++ "." ++ site.name ∧
      points outer.fullName < points site.fullName ∧
      points (qualify parts.decl.package "") < points site.fullName := by
  have hname := hsite.points_name h ha
  induction hsite with
  | @top script decl i hscript hi hdecl _ =>
    obtain rfl := Option.some.inj (h.classDecl?_root.symm.trans hscript)
    refine .inl ⟨rfl, ?_⟩
    rw [points_qualify, hname]
    rfl
  | @inner outer decl site i hsite _ _ _ _ ih =>
    have hle : points (qualify parts.decl.package "") ≤ points site.fullName := by
      rcases ih (hsite.points_name h ha) with ⟨-, heq⟩ | ⟨_, -, -, -, -, hlt⟩
      · exact Nat.le_of_eq heq.symm
      · exact Nat.le_of_lt hlt
    have hmore : points site.fullName < points (site.fullName ++ "." ++ decl.name) := by
      rw [points_nested]
      omega
    exact .inr ⟨site, hsite, rfl, rfl, hmore, Nat.lt_of_le_of_lt hle hmore⟩

/-- Of two classes with one full name the same class is around. -/
theorem Site.enclosing_eq (h : ScriptRecorded input.ast mk events input.root parts)
    (ha : input.Anchored text (Significant text)) (hsite : input.Site site)
    (hsite' : input.Site site') (heq : site.fullName = site'.fullName) :
    site.enclosing = site'.enclosing := by
  have hname := hsite.points_name h ha
  have hname' := hsite'.points_name h ha
  rcases hsite.cases_enclosing h ha with ⟨hnone, hpoints⟩ | ⟨outer, -, hsome, hfull, -, hlt⟩ <;>
    rcases hsite'.cases_enclosing h ha with
      ⟨hnone', hpoints'⟩ | ⟨outer', -, hsome', hfull', -, hlt'⟩
  · rw [hnone, hnone']
  · rw [heq] at hpoints
    omega
  · rw [heq] at hlt
    omega
  · rw [hfull, hfull'] at heq
    rw [hsome, hsome', eq_of_nested hname hname' heq]

end ResolveInput

/-! ### Classes around -/

/-- The full name of the class around a class, as the first summary of its full name tells. -/
def outerOf (classes : List ClassSummary) (fullName : String) : Option String :=
  (classes.find? (·.fullName == fullName)).bind ClassSummary.enclosing

/-- The names that lie outwards from a name, this one first. -/
inductive Outwards (outer? : String → Option String) : String → List String → Prop
  | last {name : String} : outer? name = none → Outwards outer? name [name]
  | more {name outer : String} {names : List String} : outer? name = some outer →
      Outwards outer? outer names → Outwards outer? name (name :: names)

namespace Outwards

variable {classes : List ClassSummary} {c : ClassSummary} {name : String} {names seen : List String}
  {steps : Nat}

/-- With enough steps the summaries of a file lead to the end. -/
theorem outwards_eq (h : Outwards (outerOf classes) name names) (hsteps : names.length ≤ steps) :
    outwards classes steps (some name) = names := by
  induction h generalizing steps with
  | @last name hnone =>
    obtain ⟨steps, rfl⟩ : ∃ k, steps = k + 1 := Nat.exists_eq_add_of_le' hsteps
    rw [outwards]
    change name :: outwards classes steps (outerOf classes name) = [name]
    rw [hnone]
    cases steps <;> rfl
  | @more name outer names hsome _ ih =>
    obtain ⟨steps, rfl⟩ : ∃ k, steps = k + 1 :=
      Nat.exists_eq_add_of_le' (Nat.le_trans (Nat.succ_le_succ (Nat.zero_le _)) hsteps)
    rw [outwards]
    change name :: outwards classes steps (outerOf classes name) = name :: names
    rw [hsome, ih (Nat.le_of_succ_le_succ hsteps)]

theorem enclosingChain_eq (h : Outwards (outerOf classes) c.fullName names)
    (hfirst : outerOf classes c.fullName = c.enclosing) (hsteps : names.length ≤ classes.length) :
    enclosingChain classes c = names := by
  have hall : outwards classes (classes.length + 2) (some c.fullName) = names :=
    h.outwards_eq (by omega)
  rw [← hall, enclosingChain, outwards, ← hfirst]
  rfl

/-- So does a resolution that knows the names, as long as they are new. -/
theorem outwardsFrom_eq {r : Resolution} (others : ClassLookup)
    (h : Outwards (outerOf r.classes) name names)
    (hknown : ∀ n ∈ names, (r.localClass? n).isSome) (hnodup : names.Nodup)
    (hnew : ∀ n ∈ names, n ∉ seen) (hsteps : names.length ≤ steps) :
    (r.outwardsFrom others steps seen name).value = names := by
  have hfind {n : String} (hn : (r.localClass? n).isSome) :
      ((r.findClass others n).value).bind ClassSummary.enclosing = outerOf r.classes n := by
    obtain ⟨c, hc⟩ := Option.isSome_iff_exists.mp hn
    unfold Resolution.findClass
    rw [hc]
    exact congrArg (Option.bind · ClassSummary.enclosing) hc.symm
  induction h generalizing steps seen with
  | @last name hnone =>
    obtain ⟨steps, rfl⟩ : ∃ k, steps = k + 1 := Nat.exists_eq_add_of_le' hsteps
    have hself := List.mem_singleton_self name
    rw [Resolution.outwardsFrom, if_neg (hnew name hself), Consulted.value_bind,
      hfind (hknown name hself), hnone]
    rfl
  | @more name outer names hsome _ ih =>
    obtain ⟨steps, rfl⟩ : ∃ k, steps = k + 1 :=
      Nat.exists_eq_add_of_le' (Nat.le_trans (Nat.succ_le_succ (Nat.zero_le _)) hsteps)
    obtain ⟨hfresh, hnodup⟩ := List.nodup_cons.mp hnodup
    have hself := List.mem_cons_self (a := name) (l := names)
    have hrest : (r.outwardsFrom others steps (name :: seen) outer).value = names := ih
      (fun n hn => hknown n (List.mem_cons_of_mem _ hn)) hnodup
      (fun n hn => List.not_mem_cons_of_ne_of_not_mem (fun heq => hfresh (heq ▸ hn))
        (hnew n (List.mem_cons_of_mem _ hn)))
      (Nat.le_of_succ_le_succ hsteps)
    rw [Resolution.outwardsFrom, if_neg (hnew name hself), Consulted.value_bind,
      hfind (hknown name hself), hsome]
    exact congrArg (name :: ·) hrest

end Outwards

namespace ResolveInput

variable {input : ResolveInput} {mk : MarkerId → Marker} {events : List Event} {parts : ScriptParts}
  {site : ClassSite} {text : String}

/-- Of the names of some classes there are at most as many as classes. -/
theorem length_le_of_known {names : List String} {classes : List ClassSummary}
    (hnodup : names.Nodup) (hknown : ∀ n ∈ names, ∃ c ∈ classes, c.fullName = n) :
    names.length ≤ classes.length := by
  have hsub : names ⊆ classes.map ClassSummary.fullName := by
    intro n hn
    obtain ⟨c, hc, rfl⟩ := hknown n hn
    exact List.mem_map_of_mem hc
  simpa using (List.subperm_of_subset hnodup hsub).length_le

/-- The class around a class is told by its full name, unless the script has that name. -/
theorem Site.outerOf_eq (h : ScriptRecorded input.ast mk events input.root parts)
    (ha : input.Anchored text (Significant text)) (hsite : input.Site site) :
    outerOf (input.summaries parts.decl) site.fullName =
      if site.fullName = (input.rootSite parts.decl).fullName then none else site.enclosing := by
  obtain ⟨decl, -, hmem⟩ := hsite.mem h
  obtain ⟨c, hc⟩ := Option.isSome_iff_exists.mp
    (List.find?_isSome (p := (·.fullName == site.fullName)).mpr
      ⟨_, hmem, beq_self_eq_true site.fullName⟩)
  have hfull : c.fullName = site.fullName := by simpa using List.find?_some hc
  unfold outerOf
  rw [hc, Option.bind_some]
  split
  · next heq =>
    obtain ⟨depth, -, hsummaries⟩ := exists_summaries h
    rw [hsummaries, heq, List.find?_cons_of_pos (by exact beq_self_eq_true _)] at hc
    obtain rfl := Option.some.inj hc
    rfl
  · next hne =>
    rcases site_of_mem h (List.mem_of_find?_eq_some hc) with rfl | ⟨s, sdecl, hs, -, rfl⟩
    · exact absurd hfull.symm hne
    · exact hs.enclosing_eq h ha hsite hfull

/-- Outwards from a class there are classes of the script, and none twice. -/
theorem Site.outwards (h : ScriptRecorded input.ast mk events input.root parts)
    (ha : input.Anchored text (Significant text)) (hsite : input.Site site) :
    ∃ names, Outwards (outerOf (input.summaries parts.decl)) site.fullName names ∧
      names.Nodup ∧ ∀ n ∈ names, points n ≤ points site.fullName ∧
        ∃ c ∈ input.summaries parts.decl, c.fullName = n := by
  have hself {site : ClassSite} (hsite : input.Site site) :
      points site.fullName ≤ points site.fullName ∧
        ∃ c ∈ input.summaries parts.decl, c.fullName = site.fullName := by
    obtain ⟨decl, -, hmem⟩ := hsite.mem h
    exact ⟨Nat.le_refl _, _, hmem, rfl⟩
  have hlast {site : ClassSite} (hsite : input.Site site)
      (hnone : outerOf (input.summaries parts.decl) site.fullName = none) :
      ∃ names, Outwards (outerOf (input.summaries parts.decl)) site.fullName names ∧
        names.Nodup ∧ ∀ n ∈ names, points n ≤ points site.fullName ∧
          ∃ c ∈ input.summaries parts.decl, c.fullName = n :=
    ⟨_, .last hnone, List.nodup_singleton _, by simpa using hself hsite⟩
  induction hsite with
  | top hscript hi hdecl hname =>
    have hsite := Site.top hscript hi hdecl hname
    exact hlast hsite (by rw [hsite.outerOf_eq h ha]; exact ite_self _)
  | @inner outer decl site i hsite houter hi hdecl hname ih =>
    have hinner := Site.inner hsite houter hi hdecl hname
    have houterOf := hinner.outerOf_eq h ha
    split at houterOf
    · exact hlast hinner houterOf
    · obtain ⟨names, hnames, hnodup, hbelow⟩ := ih
      have hlt : points site.fullName < points (site.fullName ++ "." ++ decl.name) := by
        rw [points_nested]
        omega
      refine ⟨_, .more houterOf hnames, List.nodup_cons.mpr ⟨fun hmem => ?_, hnodup⟩, ?_⟩
      · exact absurd (hbelow _ hmem).1 (Nat.not_le_of_lt hlt)
      · intro n hn
        rcases List.mem_cons.mp hn with rfl | hn
        · exact hself hinner
        · exact ⟨Nat.le_trans (hbelow n hn).1 (Nat.le_of_lt hlt), (hbelow n hn).2⟩

/-! ### What is known of the classes after the names are resolved -/

theorem outerOf_map {f : ClassSummary → ClassSummary} (classes : List ClassSummary)
    (hname : ∀ c, (f c).fullName = c.fullName) (houter : ∀ c, (f c).enclosing = c.enclosing) :
    outerOf (classes.map f) = outerOf classes := by
  funext name
  unfold outerOf
  rw [List.find?_map, Option.bind_map]
  simp only [Function.comp_def, hname, houter]

/-- The classes around a class are the same before and after the names are resolved, unless the
    script has the name of the class. -/
theorem Site.enclosingChain_eq (h : ScriptRecorded input.ast mk events input.root parts)
    (ha : input.Anchored text (Significant text)) (hsite : input.Site site) {c : ClassSummary}
    (hname : c.fullName = site.fullName) (houter : c.enclosing = site.enclosing)
    (hown : site.enclosing = none ∨ site.fullName ≠ input.resolve.value.scriptClass) :
    enclosingChain (input.summaries parts.decl) c =
      (input.resolve.value.enclosingClasses input.others site.fullName).value := by
  obtain ⟨names, hnames, hnodup, hbelow⟩ := hsite.outwards h ha
  have hfirst : outerOf (input.summaries parts.decl) site.fullName = site.enclosing := by
    rw [hsite.outerOf_eq h ha]
    rw [scriptClass_resolve h] at hown
    split
    · next heq => exact (hown.resolve_right fun hne => hne heq).symm
    · rfl
  have hsteps := length_le_of_known hnodup fun n hn => (hbelow n hn).2
  have hclasses := classes_resolve h
  have hbefore : enclosingChain (input.summaries parts.decl) c = names := by
    refine Outwards.enclosingChain_eq ?_ ?_ hsteps
    · rwa [hname]
    · rw [hname, houter, hfirst]
  refine hbefore.trans (Outwards.outwardsFrom_eq input.others ?_ ?_ hnodup ?_ ?_).symm
  · rw [hclasses]
    unfold described
    rwa [outerOf_map]
    · exact fun _ => rfl
    · exact fun _ => rfl
  · intro n hn
    obtain ⟨d, hd, rfl⟩ := (hbelow n hn).2
    unfold Resolution.localClass?
    rw [hclasses]
    exact List.find?_isSome.mpr ⟨_, List.mem_map_of_mem hd, by simp⟩
  · simp
  · unfold Resolution.chainLimit
    rw [hclasses]
    unfold described
    rw [List.length_map]
    omega

end ResolveInput

end ScriptAnalysis
