import ScriptAnalysis.Proofs.Scope.Scripts

/-!
# The class that code belongs to

`ResolveInput.Stands` tells the class to which the code at a node belongs, by its full name, and the
scopes around the node.  Every name outside classes without a name stands somewhere, and where it
stands it is walked.
-/

namespace ScriptAnalysis

namespace ResolveInput

/-- The classes that a script declares, by their full names. -/
inductive Declares (input : ResolveInput) : String → NodeId → Prop
  | top {script decl : ClassDecl} {i : NodeId} :
      input.ast.classDecl? input.root = some script → i ∈ script.inner →
      input.ast.classDecl? i = some decl → decl.name.isEmpty = false →
      Declares input (qualify script.package decl.name) i
  | inner {outer decl : ClassDecl} {fullName : String} {m i : NodeId} :
      Declares input fullName m → input.ast.classDecl? m = some outer → i ∈ outer.inner →
      input.ast.classDecl? i = some decl → decl.name.isEmpty = false →
      Declares input (fullName ++ "." ++ decl.name) i

/-- `input.Stands owner around n`: the node `n` stands in code of the class `owner`, in the scopes
    `around`, the innermost one first. -/
inductive Stands (input : ResolveInput) : String → List Surround → NodeId → Prop
  | script {script : ClassDecl} {body n : NodeId} {around : List Surround} :
      input.ast.classDecl? input.root = some script → script.body = some body →
      input.ast.Lies [] body around n →
      Stands input (qualify script.package input.scriptName) around n
  | member {decl : ClassDecl} {owner : String} {m k n : NodeId} {around : List Surround} :
      Declares input owner m → input.ast.classDecl? m = some decl →
      k ∈ decl.fields ++ decl.methods → input.ast.Lies [classScope m] k around n →
      Stands input owner around n

end ResolveInput

/-- A class without a name. -/
def NodeData.isNameless : NodeData → Bool
  | .classDecl c => !c.isScript && c.name.isEmpty
  | _ => false

/-- A node can be reached from another one without a way through a class that has no name. -/
inductive Ast.Reaches (ast : Ast) : NodeId → NodeId → Prop
  | here (n : NodeId) : Reaches ast n n
  | part {m k n : NodeId} {data : NodeData} :
      ast.data? m = some data → data.isNameless = false → k ∈ data.parts → Reaches ast k n →
      Reaches ast m n

/-! ### Names stand somewhere -/

namespace Ast

variable {ast : Ast} {a e : ParsePoint} {m n k : Nat} {name : String}

theorem classDecl?_eq_some {c : ClassDecl} :
    ast.classDecl? n = some c ↔ ast.data? n = some (.classDecl c) := by
  unfold classDecl?
  constructor
  · intro h
    split at h
    · next decl hdata =>
      cases h
      exact hdata
    · cases h
  · intro h
    rw [h]

/-- A construct that is no class consists of expressions and statements, or it is a statement around
    a declaration. -/
theorem part_cases {data : NodeData} (hformed : data.Formed ast)
    (hclass : ∀ c, data ≠ .classDecl c) (hk : k ∈ data.parts) : ast.IsExpr k ∨ ast.IsStmt k ∨
      (data = .varDecl k ∧ ∃ v, ast.data? k = some (.varDeclExpr v)) ∨
      (data = .funDecl k ∧ ∃ f, ast.data? k = some (.funDeclExpr f)) := by
  have hbody {params : List NodeId} {body : NodeId}
      (hformed : (∀ p ∈ params, ast.IsVar p) ∧ ast.IsBlock body) (hk : k ∈ params ++ [body]) :
      ast.IsStmt k := by
    obtain ⟨hparams, stmts, hbody⟩ := hformed
    rcases List.mem_append.mp hk with hk | hk
    · exact (hparams k hk).isStmt
    · obtain rfl := List.mem_singleton.mp hk
      exact ⟨_, hbody, rfl⟩
  by_cases hexpr : data.isExpr = true
  · cases data with
    | closure params body isBlock => exact .inr (.inl (hbody hformed hk))
    | _ => exact .inl (isExpr_of_part hformed hexpr (by simp) hk)
  cases data with
  | classDecl c => exact absurd rfl (hclass c)
  | block stmts => exact .inr (.inl (hformed k hk))
  | varDecl decl =>
    obtain rfl := List.mem_singleton.mp hk
    exact .inr (.inr (.inl ⟨rfl, hformed⟩))
  | funDecl decl =>
    obtain rfl := List.mem_singleton.mp hk
    exact .inr (.inr (.inr ⟨rfl, hformed⟩))
  | exprStmt expr =>
    obtain rfl := List.mem_singleton.mp hk
    exact .inl hformed
  | ifStmt cond thenBranch elseBranch =>
    obtain ⟨hcond, hthen, helse⟩ := hformed
    rcases List.mem_cons.mp hk with rfl | hk
    · exact .inl hcond
    · rcases List.mem_cons.mp hk with rfl | hk
      · exact .inr (.inl hthen)
      · exact .inr (.inl (helse k (Option.mem_toList.mp hk)))
  | whileStmt cond body =>
    rcases List.mem_cons.mp hk with rfl | hk
    · exact .inl hformed.1
    · obtain rfl := List.mem_singleton.mp hk
      exact .inr (.inl hformed.2)
  | returnStmt value => exact .inl (hformed k (Option.mem_toList.mp hk))
  | varDeclExpr decl => exact .inl (hformed k (Option.mem_toList.mp hk))
  | funDeclExpr f => exact .inr (.inl (hbody hformed hk))
  | importDecl | name | type => cases hk
  | _ => exact absurd rfl hexpr

/-- No class stands among statements and expressions. -/
theorem not_class_of_part {data : NodeData} (hformed : data.Formed ast)
    (hclass : ∀ c, data ≠ .classDecl c) (hk : k ∈ data.parts) (c : ClassDecl) :
    ast.data? k ≠ some (.classDecl c) := by
  intro hc
  rcases part_cases hformed hclass hk with ⟨_, hdata, hexpr⟩ | ⟨_, hdata, hstmt⟩ | ⟨-, v, hv⟩ |
    ⟨-, f, hf⟩
  · cases hc.symm.trans hdata
    cases hexpr
  · cases hc.symm.trans hdata
    cases hstmt
  · cases hc.symm.trans hv
  · cases hc.symm.trans hf

/-- A construct that opens a scope consists of parameters, and of statements or a block of them. -/
theorem part_of_opens {data : NodeData} {scope : Surround} (hdata : ast.data? m = some data)
    (hopens : ast.opens? m = some scope) (hformed : data.Formed ast) (hk : k ∈ data.parts) :
    k ∈ scope.params ∨ k ∈ scope.stmts ∨ ast.data? k = some (.block scope.stmts) := by
  have hbody : ∀ {params : List NodeId} {body : NodeId}, ast.IsBlock body →
      k ∈ params ++ [body] → k ∈ params ∨ k ∈ Walk.blockStatements ast body ∨
        ast.data? k = some (.block (Walk.blockStatements ast body)) := by
    rintro params body ⟨stmts, hstmts⟩ hk
    rcases List.mem_append.mp hk with hk | hk
    · exact .inl hk
    · obtain rfl := List.mem_singleton.mp hk
      rw [blockStatements_of_data hstmts]
      exact .inr (.inr hstmts)
  unfold opens? at hopens
  rw [hdata] at hopens
  cases data with
  | closure params body isBlock =>
    cases hopens
    exact hbody hformed.2 hk
  | funDeclExpr f =>
    cases hopens
    exact hbody hformed.2 hk
  | block stmts =>
    cases hopens
    exact .inr (.inl hk)
  | _ => cases hopens

/-- A name that can be reached from a construct lies in it. -/
theorem Reaches.lies (hreach : ast.Reaches m n) (hname : ast.IsName n name)
    (hlaid : Laid ast a [m] e) (hclass : ∀ c, ast.data? m ≠ some (.classDecl c))
    (around : List Surround) : ∃ around', ast.Lies around m around' n := by
  induction m using Nat.strongRecOn generalizing around with
  | ind m ih =>
    cases hreach with
    | here => exact ⟨around, .here around _⟩
    | @part _ k _ data hdata _ hk hreach =>
      obtain ⟨_, _, _, _, -, -, hm, -⟩ := hlaid.of_data hdata
      have hne : ∀ c, data ≠ .classDecl c := by
        rintro c rfl
        exact hclass c hdata
      obtain ⟨hlaidK, hlt⟩ := hlaid.part hdata hk
      have hlies := ih k hlt hreach hlaidK (not_class_of_part hm.formed hne hk)
      cases hopens : ast.opens? m with
      | none =>
        obtain ⟨around', hlies⟩ := hlies around
        exact ⟨around', .part hdata hopens hne hk hlies⟩
      | some scope =>
        rcases part_of_opens hdata hopens hm.formed hk with hparam | hstmt | hblock
        · obtain ⟨around', hlies⟩ := hlies ({ scope with inParams := true } :: around)
          exact ⟨around', .param hopens hparam hlies⟩
        · obtain ⟨around', hlies⟩ := hlies (scope :: around)
          exact ⟨around', .stmt hopens hstmt hlies⟩
        -- The block of a function or a closure opens no scope of its own.
        · cases hreach with
          | here =>
            rcases hname with h | ⟨value, h⟩
            · cases hblock.symm.trans h
            · cases hblock.symm.trans h
          | @part _ l _ data' hdata' _ hl hreach =>
            obtain rfl := Option.some.inj (hblock.symm.trans hdata')
            obtain ⟨_, _, _, _, -, -, hbody, -⟩ := hlaidK.of_data hdata'
            obtain ⟨hlaidL, hlt'⟩ := hlaidK.part hdata' hl
            obtain ⟨around', hlies⟩ := ih l (Nat.lt_trans hlt' hlt) hreach hlaidL
              (not_class_of_part hbody.formed (by simp) hl) (scope :: around)
            exact ⟨around', .stmt hopens hl hlies⟩

end Ast

namespace ResolveInput

variable {input : ResolveInput} {mk : MarkerId → Marker} {events : List Event}
  {parts : ScriptParts} {n m : NodeId} {name owner : String} {around : List Surround}

/-- What a script declares is a class, and laid out in the script. -/
theorem Declares.isClass (h : ScriptRecorded input.ast mk events input.root parts)
    (hm : input.Declares owner m) :
    input.ast.IsClass m ∧ Laid input.ast ⟨0, 0⟩ [m] parts.stop := by
  induction hm with
  | top hscript hi _ _ =>
    obtain rfl := Option.some.inj (h.classDecl?_root.symm.trans hscript)
    exact ⟨h.classes _ hi, h.laid_class hi⟩
  | inner _ houter hi _ _ ih =>
    have hdata := Ast.classDecl?_eq_some.mp houter
    obtain ⟨_, _, _, _, -, -, hallots, -⟩ := ih.2.of_data hdata
    exact ⟨hallots.formed.2.2.1 _ hi, (ih.2.part hdata (by simp [NodeData.parts, hi])).1⟩

/-- A name in a class that has a name stands in code of that class or of one in it. -/
theorem stands_in_class (h : ScriptRecorded input.ast mk events input.root parts)
    (hreach : input.ast.Reaches m n) (hname : input.ast.IsName n name)
    (hm : input.Declares owner m) : ∃ owner around, input.Stands owner around n := by
  induction hreach generalizing owner with
  | here n =>
    obtain ⟨⟨c, hdata, -⟩, -⟩ := hm.isClass h
    rcases hname with hname | ⟨value, hname⟩
    · cases hdata.symm.trans hname
    · cases hdata.symm.trans hname
  | @part m k n data hdata hnameless hk hreach ih =>
    obtain ⟨⟨decl, hdecl, -⟩, hlaid⟩ := hm.isClass h
    obtain rfl := Option.some.inj (hdecl.symm.trans hdata)
    obtain ⟨_, _, _, _, -, -, hallots, -⟩ := hlaid.of_data hdata
    obtain ⟨hfields, hmethods, hinner, -, himports, hbody⟩ := hallots.formed
    have hmember : k ∈ decl.fields ++ decl.methods →
      (∀ c, input.ast.data? k ≠ some (.classDecl c)) →
        ∃ owner around, input.Stands owner around n := by
      intro hk' hclass
      obtain ⟨around, hlies⟩ := hreach.lies hname (hlaid.part hdata hk).1 hclass [classScope m]
      exact ⟨owner, around, .member hm (Ast.classDecl?_eq_some.mpr hdata) hk' hlies⟩
    simp only [NodeData.parts, himports, hbody, List.append_nil, Option.toList_none] at hk
    rcases List.mem_append.mp hk with hk' | hk'
    · refine hmember hk' fun c hc => ?_
      rcases List.mem_append.mp hk' with hfield | hmethod
      · obtain ⟨d, v, hd, -⟩ := hfields k hfield
        cases hd.symm.trans hc
      · obtain ⟨d, f, hd, -⟩ := hmethods k hmethod
        cases hd.symm.trans hc
    · obtain ⟨c, hc, hcscript⟩ := hinner k hk'
      cases hreach with
      | here =>
        rcases hname with hname | ⟨value, hname⟩
        · cases hc.symm.trans hname
        · cases hc.symm.trans hname
      | part hdata' hnameless' _ _ =>
        obtain rfl := Option.some.inj (hc.symm.trans hdata')
        refine ih hname (.inner hm (Ast.classDecl?_eq_some.mpr hdata) hk'
          (Ast.classDecl?_eq_some.mpr hc) ?_)
        simpa [NodeData.isNameless, hcscript] using hnameless'

/-- Every name outside classes without a name stands somewhere. -/
theorem stands_of_reaches (h : ScriptRecorded input.ast mk events input.root parts)
    (hreach : input.ast.Reaches input.root n) (hname : input.ast.IsName n name) :
    ∃ owner around, input.Stands owner around n := by
  have hnot : ∀ {k : NodeId} {data : NodeData}, input.ast.data? k = some data →
      Walk.isUse data = false → k ≠ n := by
    rintro k data hdata huse rfl
    rcases hname with hname | ⟨value, hname⟩
    · cases hdata.symm.trans hname
      cases huse
    · cases hdata.symm.trans hname
      cases huse
  generalize hroot : input.root = root at hreach
  cases hreach with
  | here => exact absurd hroot (hnot h.data_root rfl)
  | @part _ k _ data hdata _ hk hreach =>
    subst hroot
    obtain rfl := Option.some.inj (h.data_root.symm.trans hdata)
    simp only [NodeData.parts, h.script.fields, h.script.methods, h.script.body, List.nil_append,
      Option.toList_some, List.mem_append, List.mem_singleton] at hk
    rcases hk with (hinner | himport) | rfl
    · obtain ⟨c, hc, hcscript⟩ := h.classes k hinner
      cases hreach with
      | here => exact absurd rfl (hnot hc rfl)
      | part hdata' hnameless hk' hreach' =>
        obtain rfl := Option.some.inj (hc.symm.trans hdata')
        refine stands_in_class h (.part hdata' hnameless hk' hreach') hname (.top h.classDecl?_root
          hinner (Ast.classDecl?_eq_some.mpr hc) ?_)
        simpa [NodeData.isNameless, hcscript] using hnameless
    · obtain ⟨path, rename, himport⟩ := h.imports k himport
      cases hreach with
      | here => exact absurd rfl (hnot himport rfl)
      | part hdata' _ hk' _ =>
        obtain rfl := Option.some.inj (himport.symm.trans hdata')
        cases hk'
    · have hclass : ∀ c, input.ast.data? parts.body ≠ some (.classDecl c) := by
        intro c hc
        cases h.data_body.symm.trans hc
      obtain ⟨around, hlies⟩ := hreach.lies hname h.laid_body hclass []
      exact ⟨_, around, .script h.classDecl?_root h.script.body hlies⟩

end ResolveInput

/-! ### Summaries -/

theorem map_filterMap_sublist {α β : Type} {f : α → Option β} {g : β → α}
    (hf : ∀ a b, f a = some b → g b = a) (as : List α) : ((as.filterMap f).map g).Sublist as := by
  induction as with
  | nil => exact .slnil
  | cons a as ih =>
    cases hb : f a with
    | none =>
      rw [List.filterMap_cons_none hb]
      exact ih.cons a
    | some b =>
      rw [List.filterMap_cons_some hb, List.map_cons, hf a b hb]
      exact ih.cons_cons a

section Summaries

variable {ast : Ast} {file : FileId} {a e : ParsePoint} {depth : Nat} {site : ClassSite}
  {decl : ClassDecl}

theorem innerSites_sublist (ast : Ast) (site : ClassSite) (decl : ClassDecl) :
    ((innerSites ast site decl).map ClassSite.decl).Sublist decl.inner := by
  refine map_filterMap_sublist (fun i inner h => ?_) decl.inner
  split at h
  · cases h
  · split at h
    · cases h
    · cases h
      rfl

/-- An inner class has a name, and stands among those of the class around it. -/
theorem exists_of_mem_innerSites {inner : ClassSite} (h : inner ∈ innerSites ast site decl) :
    ∃ i innerDecl, i ∈ decl.inner ∧ ast.classDecl? i = some innerDecl ∧
      innerDecl.name.isEmpty = false ∧ inner = ⟨i, innerDecl.name,
        if decl.isScript then qualify decl.package innerDecl.name
          else site.fullName ++ "." ++ innerDecl.name,
        if decl.isScript then none else some site.fullName⟩ := by
  obtain ⟨i, hi, hinner⟩ := List.mem_filterMap.mp h
  split at hinner
  · cases hinner
  · next innerDecl hdecl =>
    split at hinner
    · cases hinner
    · next hname => exact ⟨i, innerDecl, hi, hdecl, by simpa using hname,
        (Option.some.inj hinner).symm⟩

/-- What a class is summarised with is declared within the class. -/
theorem of_mem_summariesBelow {c : ClassSummary} (hc : c ∈ summariesBelow file ast depth site) :
    (Fact.binding c.decl).Of ast site.decl := by
  induction depth generalizing site with
  | zero => cases hc
  | succ depth ih =>
    unfold summariesBelow at hc
    split at hc
    · cases hc
    · next decl hdecl =>
      rcases List.mem_cons.mp hc with rfl | hc
      · exact fun hlaid => hlaid.mem_lt (List.mem_singleton_self _)
      · obtain ⟨inner, hinner, hc⟩ := List.mem_flatMap.mp hc
        intro a e hlaid
        have hmem := (innerSites_sublist ast site decl).mem (List.mem_map_of_mem hinner)
        exact ih hc (hlaid.part (Ast.classDecl?_eq_some.mp hdecl)
          (by simp [NodeData.parts, hmem])).1

/-- No class is summarised twice among classes that are laid out in any order. -/
theorem nodup_flatMap_summaries {ns : List NodeId} {sites : List ClassSite}
    (hns : Laid ast a ns e) (hsub : ∀ site ∈ sites, site.decl ∈ ns)
    (hnodup : (sites.map ClassSite.decl).Nodup)
    (hsite : ∀ site ∈ sites, ((summariesBelow file ast depth site).map ClassSummary.decl).Nodup) :
    ((sites.flatMap (summariesBelow file ast depth)).map ClassSummary.decl).Nodup := by
  induction sites with
  | nil => exact List.nodup_nil
  | cons site sites ih =>
    obtain ⟨hnew, hrest⟩ := List.nodup_cons.mp hnodup
    rw [List.flatMap_cons, List.map_append]
    refine List.nodup_append.mpr ⟨hsite site (List.mem_cons_self ..), ?_, ?_⟩
    · exact ih (fun s hs => hsub s (List.mem_cons_of_mem _ hs)) hrest
        fun s hs => hsite s (List.mem_cons_of_mem _ hs)
    · intro d hd d' hd' heq
      obtain ⟨c, hc, rfl⟩ := List.mem_map.mp hd
      obtain ⟨c', hc', rfl⟩ := List.mem_map.mp hd'
      obtain ⟨site', hsite', hc'⟩ := List.mem_flatMap.mp hc'
      have hof : (Fact.binding c'.decl).Of ast site'.decl := of_mem_summariesBelow hc'
      rw [← heq] at hof
      have hsame := Fact.Of.unique hns (hsub site (List.mem_cons_self ..))
        (hsub site' (List.mem_cons_of_mem _ hsite')) (of_mem_summariesBelow hc) hof
      exact hnew (hsame ▸ List.mem_map_of_mem hsite')

/-- No class is summarised twice. -/
theorem nodup_summariesBelow (hlaid : Laid ast a [site.decl] e) :
    ((summariesBelow file ast depth site).map ClassSummary.decl).Nodup := by
  induction depth generalizing site a e with
  | zero => exact List.nodup_nil
  | succ depth ih =>
    unfold summariesBelow
    split
    · exact List.nodup_nil
    · next decl hdecl =>
      obtain ⟨b, c, d, ns, hns, hperm, hm, hd⟩ := hlaid.of_data (Ast.classDecl?_eq_some.mp hdecl)
      have hinner := innerSites_sublist ast site decl
      have hsub : ∀ inner ∈ innerSites ast site decl, inner.decl ∈ ns := by
        intro inner hmem
        refine hperm.perm.mem_iff.mpr ?_
        simp [NodeData.parts, hinner.mem (List.mem_map_of_mem hmem)]
      have hnodup : decl.inner.Nodup := by
        have hall := hperm.perm.nodup hns.nodup
        unfold NodeData.parts at hall
        exact (List.nodup_append.mp (List.nodup_append.mp (List.nodup_append.mp hall).1).1).2.1
      rw [List.map_cons]
      refine List.nodup_cons.mpr ⟨fun hmem => ?_, ?_⟩
      · obtain ⟨c', hc', heq⟩ := List.mem_map.mp hmem
        obtain ⟨inner, hmem, hc'⟩ := List.mem_flatMap.mp hc'
        have hlt := (of_mem_summariesBelow hc' (hns.mem (hsub inner hmem))).2
        rw [heq] at hlt
        exact absurd hlt (Nat.not_lt_of_le hm.le_id)
      · exact nodup_flatMap_summaries hns hsub (hnodup.sublist hinner)
          fun inner hmem => ih (hns.mem (hsub inner hmem))

/-- What has a key of its own is found by it. -/
theorem find?_of_nodup {α : Type} {key : α → Nat} {as : List α} {a : α}
    (hnodup : (as.map key).Nodup) (ha : a ∈ as) : as.find? (fun b => key b == key a) = some a := by
  induction as with
  | nil => cases ha
  | cons b as ih =>
    obtain ⟨hnew, hrest⟩ := List.nodup_cons.mp hnodup
    rcases List.mem_cons.mp ha with rfl | ha
    · exact List.find?_cons_of_pos (by simp)
    · have hne : key b ≠ key a := fun heq => hnew (heq ▸ List.mem_map_of_mem ha)
      rw [List.find?_cons_of_neg (by simpa using hne)]
      exact ih hrest ha

end Summaries

namespace ResolveInput

variable {input : ResolveInput} {mk : MarkerId → Marker} {events : List Event}
  {parts : ScriptParts} {m n : NodeId} {owner : String} {around : List Surround} {site : ClassSite}

/-- The site of a script. -/
def rootSite (input : ResolveInput) (script : ClassDecl) : ClassSite :=
  ⟨input.root, input.scriptName, qualify script.package input.scriptName, none⟩

/-- What a site is summarised with is a part of what the script is summarised with. -/
def Summarised (input : ResolveInput) (script : ClassDecl) (site : ClassSite) : Prop :=
  ∃ depth, site.decl < depth ∧ (summariesBelow input.file input.ast depth site).Sublist
    (summariesBelow input.file input.ast input.ast.size (input.rootSite script))

theorem sublist_flatMap {α β : Type} {f : α → List β} {as : List α} {a : α} (ha : a ∈ as) :
    (f a).Sublist (as.flatMap f) := by
  induction as with
  | nil => cases ha
  | cons b as ih =>
    rw [List.flatMap_cons]
    rcases List.mem_cons.mp ha with rfl | ha
    · exact List.sublist_append_left _ _
    · exact (ih ha).trans (List.sublist_append_right _ _)

theorem Summarised.inner {script decl : ClassDecl} {inner : ClassSite}
    (h : input.Summarised script site) (hdecl : input.ast.classDecl? site.decl = some decl)
    (hinner : inner ∈ innerSites input.ast site decl) (hlt : inner.decl < site.decl) :
    input.Summarised script inner := by
  obtain ⟨depth, hdepth, hsub⟩ := h
  obtain ⟨depth, rfl⟩ : ∃ k, depth = k + 1 :=
    Nat.exists_eq_succ_of_ne_zero (Nat.ne_of_gt (Nat.zero_lt_of_lt hdepth))
  refine ⟨depth, Nat.lt_of_lt_of_le hlt (Nat.le_of_lt_succ hdepth), List.Sublist.trans ?_ hsub⟩
  rw [summariesBelow, hdecl]
  exact (sublist_flatMap hinner).trans (List.sublist_cons_self _ _)

theorem mem_innerSites {decl inner : ClassDecl} {i : NodeId}
    (hi : i ∈ decl.inner) (hinner : input.ast.classDecl? i = some inner)
    (hname : inner.name.isEmpty = false) :
    ClassSite.mk i inner.name
      (if decl.isScript then qualify decl.package inner.name
        else site.fullName ++ "." ++ inner.name)
      (if decl.isScript then none else some site.fullName) ∈ innerSites input.ast site decl := by
  refine List.mem_filterMap.mpr ⟨i, hi, ?_⟩
  simp [hinner, hname]

/-- The summaries of a script, before it is known what the classes extend. -/
def summaries (input : ResolveInput) (script : ClassDecl) : List ClassSummary :=
  summariesBelow input.file input.ast input.ast.size (input.rootSite script)

/-- The class of a script comes first. -/
theorem exists_summaries (h : ScriptRecorded input.ast mk events input.root parts) :
    ∃ depth, input.ast.size = depth + 1 ∧ input.summaries parts.decl =
      summarise input.file input.ast (input.rootSite parts.decl) parts.decl ::
        (innerSites input.ast (input.rootSite parts.decl) parts.decl).flatMap
          (summariesBelow input.file input.ast depth) := by
  obtain ⟨depth, hdepth⟩ : ∃ k, input.ast.size = k + 1 := Nat.exists_eq_add_of_le'
    (Nat.zero_lt_of_lt (Ast.lt_size_of_data? h.data_root))
  refine ⟨depth, hdepth, ?_⟩
  unfold summaries
  rw [hdepth, summariesBelow, show input.ast.classDecl? (input.rootSite parts.decl).decl =
    some parts.decl from h.classDecl?_root]

/-- The classes in a script with their names, and with the full names of the classes around them. -/
inductive Site (input : ResolveInput) : ClassSite → Prop
  | top {script decl : ClassDecl} {i : NodeId} :
      input.ast.classDecl? input.root = some script → i ∈ script.inner →
      input.ast.classDecl? i = some decl → decl.name.isEmpty = false →
      Site input ⟨i, decl.name, qualify script.package decl.name, none⟩
  | inner {outer decl : ClassDecl} {site : ClassSite} {i : NodeId} :
      Site input site → input.ast.classDecl? site.decl = some outer → i ∈ outer.inner →
      input.ast.classDecl? i = some decl → decl.name.isEmpty = false →
      Site input ⟨i, decl.name, site.fullName ++ "." ++ decl.name, some site.fullName⟩

theorem Site.declares (h : input.Site site) : input.Declares site.fullName site.decl := by
  induction h with
  | top hscript hi hdecl hname => exact .top hscript hi hdecl hname
  | inner _ houter hi hdecl hname ih => exact .inner ih houter hi hdecl hname

theorem Declares.sited (h : input.Declares owner m) :
    ∃ site, input.Site site ∧ site.decl = m ∧ site.fullName = owner := by
  induction h with
  | top hscript hi hdecl hname => exact ⟨_, .top hscript hi hdecl hname, rfl, rfl⟩
  | inner _ houter hi hdecl hname ih =>
    obtain ⟨site, hsite, rfl, rfl⟩ := ih
    exact ⟨_, .inner hsite houter hi hdecl hname, rfl, rfl⟩

/-- What has a site is summarised. -/
theorem Site.summarised (h : ScriptRecorded input.ast mk events input.root parts)
    (hsite : input.Site site) : input.Summarised parts.decl site := by
  have hroot : input.Summarised parts.decl (input.rootSite parts.decl) :=
    ⟨input.ast.size, Ast.lt_size_of_data? h.data_root, .refl _⟩
  induction hsite with
  | @top script decl i hscript hi hdecl hname =>
    obtain rfl := Option.some.inj (h.classDecl?_root.symm.trans hscript)
    have hmem : ClassSite.mk i decl.name _ _ ∈
        innerSites input.ast (input.rootSite parts.decl) parts.decl := mem_innerSites hi hdecl hname
    rw [if_pos h.script.isScript, if_pos h.script.isScript] at hmem
    refine hroot.inner hscript hmem ?_
    have hlt := ((h.laid_class hi).mem_lt (List.mem_singleton_self i)).2
    exact Nat.lt_of_lt_of_le hlt (Nat.le_trans h.le_body (Nat.le_of_lt h.body_lt))
  | @inner outer decl site i hsite houter hi hdecl hname ih =>
    obtain ⟨⟨outer', hdata, hscript⟩, hlaid⟩ := hsite.declares.isClass h
    have hdata' := Ast.classDecl?_eq_some.mp houter
    cases hdata.symm.trans hdata'
    have hmem : ClassSite.mk i decl.name _ _ ∈ innerSites input.ast site outer :=
      mem_innerSites hi hdecl hname
    rw [if_neg (by simp [hscript]), if_neg (by simp [hscript])] at hmem
    exact ih.inner houter hmem (hlaid.part hdata' (by simp [NodeData.parts, hi])).2

theorem Site.mem (h : ScriptRecorded input.ast mk events input.root parts)
    (hsite : input.Site site) : ∃ decl, input.ast.classDecl? site.decl = some decl ∧
      summarise input.file input.ast site decl ∈ input.summaries parts.decl := by
  obtain ⟨⟨decl, hdata, -⟩, -⟩ := hsite.declares.isClass h
  obtain ⟨depth, hdepth, hsub⟩ := hsite.summarised h
  obtain ⟨depth, rfl⟩ : ∃ k, depth = k + 1 :=
    Nat.exists_eq_succ_of_ne_zero (Nat.ne_of_gt (Nat.zero_lt_of_lt hdepth))
  have hdecl := Ast.classDecl?_eq_some.mpr hdata
  rw [summariesBelow, hdecl] at hsub
  exact ⟨decl, hdecl, hsub.mem (List.mem_cons_self ..)⟩

/-- No class of a script is summarised twice. -/
theorem nodup_classes (h : ScriptRecorded input.ast mk events input.root parts) :
    ((input.summaries parts.decl).map ClassSummary.decl).Nodup := by
  have hinner := innerSites_sublist input.ast (input.rootSite parts.decl) parts.decl
  have hmem : ∀ i ∈ parts.decl.inner, i ∈ parts.members := fun i hi =>
    h.perm.mem_iff.mpr (by simp [hi])
  have hsub : ∀ site ∈ innerSites input.ast (input.rootSite parts.decl) parts.decl,
      site.decl ∈ parts.members := fun site hsite =>
    hmem site.decl (hinner.mem (List.mem_map_of_mem hsite))
  have hall := h.perm.nodup h.laid.nodup
  have hnodup := (List.nodup_append.mp (List.nodup_append.mp hall).1).2.1
  obtain ⟨depth, -, heq⟩ := exists_summaries h
  rw [heq, List.map_cons]
  refine List.nodup_cons.mpr ⟨fun hc => ?_, ?_⟩
  · obtain ⟨c, hc, heq⟩ := List.mem_map.mp hc
    obtain ⟨site, hsite, hc⟩ := List.mem_flatMap.mp hc
    have hlt := (of_mem_summariesBelow hc (h.laid.mem (hsub site hsite))).2
    rw [heq] at hlt
    exact absurd hlt (Nat.not_lt_of_le (Nat.le_trans h.le_body (Nat.le_of_lt h.body_lt)))
  · exact nodup_flatMap_summaries h.laid hsub (hnodup.sublist hinner)
      fun site hsite => nodup_summariesBelow (h.laid.mem (hsub site hsite))

/-- The summaries of a script, with what the classes extend. -/
def described (input : ResolveInput) (script : ClassDecl) : List ClassSummary :=
  (input.summaries script).map fun c => { c with
    base := baseWithin (input.summaries script) script.package
      (importsOf input.ast input.root) c }

theorem classes_resolve (h : ScriptRecorded input.ast mk events input.root parts) :
    input.resolve.value.classes = input.described parts.decl := by
  rw [input.resolve_classes, describeClasses, h.classDecl?_root]
  rfl

/-- A declared class is known by its declaration. -/
theorem Declares.known (h : ScriptRecorded input.ast mk events input.root parts)
    (hm : input.Declares owner m) :
    ∃ c, input.resolve.value.classes.find? (·.decl == m) = some c ∧ c.fullName = owner := by
  obtain ⟨site, hsite, rfl, rfl⟩ := hm.sited
  obtain ⟨decl, -, hmem⟩ := hsite.mem h
  have hfound := find?_of_nodup (nodup_classes h) hmem
  rw [classes_resolve h, described, List.find?_map]
  exact ⟨_, congrArg (Option.map _) hfound, rfl⟩

/-- Whatever is entered in a declared class is entered in the classes around it. -/
theorem Declares.visited (h : ScriptRecorded input.ast mk events input.root parts) {name : String}
    (hm : input.Declares name m)
    (henters : Enters input.ast input.resolve.value.classes m owner around n) :
    Visited input input.resolve.value parts owner around n := by
  induction hm with
  | top hscript hi _ _ =>
    obtain rfl := Option.some.inj (h.classDecl?_root.symm.trans hscript)
    exact .inr ⟨_, hi, henters⟩
  | inner hm houter hi _ _ ih =>
    obtain ⟨c, hknown, -⟩ := hm.known h
    exact ih (.inner (Ast.classDecl?_eq_some.mp houter) hknown hi henters)

/-- The node is walked where it stands. -/
theorem Stands.visited (h : ScriptRecorded input.ast mk events input.root parts)
    (hn : input.Stands owner around n) :
    Visited input input.resolve.value parts owner around n := by
  cases hn with
  | script hscript hbody hlies =>
    obtain rfl := Option.some.inj (h.classDecl?_root.symm.trans hscript)
    obtain rfl := Option.some.inj (h.script.body.symm.trans hbody)
    exact .inl ⟨(scriptClass_resolve h).symm, _, List.mem_singleton_self _, hlies⟩
  | member hm hdecl hk hlies =>
    obtain ⟨c, hknown, rfl⟩ := hm.known h
    exact hm.visited h (.member (Ast.classDecl?_eq_some.mp hdecl) hknown hk hlies)

end ResolveInput

end ScriptAnalysis
