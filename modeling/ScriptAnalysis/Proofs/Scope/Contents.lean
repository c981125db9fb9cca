import ScriptAnalysis.Proofs.Scope.InBlocks

/-!
# What the scopes of a script hold

Resolving the names of a script leaves every block with the first declaration of each name in it,
and reports each of the others once (`ResolveInput.BlockContents`).
-/

namespace ScriptAnalysis

/-- A report on a name is about a token in the span that is this name. -/
def NamesToken (text name : String) (d : Diagnostic) (span : Span) : Prop :=
  ∃ t ∈ scan text, t.kind = .ident ∧ t.textIn text = name ∧ span.start ≤ t.span.start ∧
    t.span.stop ≤ span.stop ∧ d.span = ⟨t.span.start, min t.span.stop maxOffset⟩

namespace ResolveInput

/-- What the blocks of a script hold, and what is reported of declarations in them. -/
structure BlockContents (input : ResolveInput) (text : String) : Prop where
  /-- The variables of a scope are the first ones of each name in the block, in the order of the
      text. -/
  vars : ∀ block scope, input.resolve.value.blocks[block]? = some scope →
    (∀ d, d ∈ scope.vars ↔ input.IsFirstVar block d) ∧
      scope.vars.Pairwise fun d e => (input.ast.span d).start < (input.ast.span e).start
  /-- The functions of a scope are the first ones of each name among the statements of the block, in
      their order and none of them twice. -/
  funs : ∀ block scope, input.resolve.value.blocks[block]? = some scope →
    (∀ f, f ∈ scope.funs ↔ input.ast.IsFirstFun block f) ∧ scope.funs.Nodup ∧
      ∀ stmts, input.ast.data? block = some (.block stmts) →
        scope.funs.Sublist (stmts.filterMap input.ast.directFun?)
  /-- Each of the other declarations is reported once, and nothing else is said to be declared
      again. -/
  again : ∃ (vars : List (NodeId × VarDecl)) (funs : List (NodeId × FunDecl))
    (rest : List Diagnostic),
    vars.Nodup ∧ (∀ d v, (d, v) ∈ vars ↔
      ∃ block, input.VarIn block d v ∧ ¬ input.IsFirstVar block d) ∧
    funs.Nodup ∧ (∀ f decl, (f, decl) ∈ funs ↔
      ∃ block, input.FunIn block f decl ∧ ¬ input.ast.IsFirstFun block f) ∧
    input.resolve.value.diagnostics.Perm
      (vars.map (fun x => x.2.again) ++ funs.map (fun x => x.2.again) ++ rest) ∧
    ∀ d ∈ rest, ¬ d.IsAgain
  /-- A declaration is reported at its name, which is a token in it.  No report ends behind the last
      offset. -/
  varNamed : ∀ block d v, input.VarIn block d v →
    NamesToken text v.name v.again (input.ast.span d)
  funNamed : ∀ block f decl, input.FunIn block f decl →
    NamesToken text decl.name decl.again (input.ast.span f)

end ResolveInput

/-! ### Lists of declarations -/

section

variable {α : Type} {decl? : NodeId → Option α} {ds : List NodeId} {d : NodeId} {v : α}

/-- Nodes with what they declare. -/
def withDecl (decl? : NodeId → Option α) (ds : List NodeId) : List (NodeId × α) :=
  ds.filterMap fun d => (decl? d).map (Prod.mk d)

theorem mem_withDecl : (d, v) ∈ withDecl decl? ds ↔ d ∈ ds ∧ decl? d = some v := by
  unfold withDecl
  simp only [List.mem_filterMap, Option.map_eq_some_iff, Prod.mk.injEq]
  constructor
  · rintro ⟨e, he, w, hw, rfl, rfl⟩
    exact ⟨he, hw⟩
  · rintro ⟨hd, hv⟩
    exact ⟨d, hd, v, hv, rfl, rfl⟩

theorem nodup_withDecl (h : ds.Nodup) : (withDecl decl? ds).Nodup := by
  refine h.filterMap fun d e x hd he => ?_
  obtain ⟨v, -, rfl⟩ := Option.map_eq_some_iff.mp hd
  obtain ⟨w, -, heq⟩ := Option.map_eq_some_iff.mp he
  exact (Prod.mk.inj heq).1.symm

theorem map_withDecl {β : Type} (g : α → β) : (withDecl decl? ds).map (fun x => g x.2) =
    ds.filterMap fun d => (decl? d).map g := by
  unfold withDecl
  rw [List.map_filterMap]
  simp only [Option.map_map]
  rfl

/-- What different scopes declare is different if nothing is declared in two blocks. -/
theorem nodup_flatMap_scopes {scopes : List Surround} {ds : Surround → List NodeId}
    (hblocks : (scopes.map Surround.block).Nodup) (hds : ∀ s ∈ scopes, (ds s).Nodup)
    (hapart : ∀ s ∈ scopes, ∀ s' ∈ scopes, ∀ d ∈ ds s, d ∈ ds s' → s.block = s'.block) :
    (scopes.flatMap ds).Nodup := by
  refine List.nodup_flatMap.mpr ⟨hds, ?_⟩
  refine (List.pairwise_map.mp hblocks).imp_of_mem fun {s s'} hs hs' hne => ?_
  exact fun d hd hd' => hne (hapart s hs s' hs' d hd hd')

/-- The reports of several scopes, those of variables first. -/
theorem again_perm (ast : Ast) (scopes : List Surround) :
    (scopes.flatMap (Surround.again ast)).Perm
      (ast.varsAgain (scopes.flatMap fun s => repeats ast.varName? [] (s.vars ast)) ++
        ast.funsAgain (scopes.flatMap fun s => repeats ast.funName? [] (s.funs ast))) := by
  refine (List.flatMap_append_perm scopes _ _).symm.trans (.of_eq ?_)
  unfold Ast.varsAgain Ast.funsAgain
  rw [List.filterMap_flatMap, List.filterMap_flatMap]

end

namespace ResolveInput

variable {input : ResolveInput} {mk : MarkerId → Marker} {events : List Event} {parts : ScriptParts}
  {scope : Surround} {block d f : NodeId} {v : VarDecl} {decl : FunDecl} {text : String}

/-! ### Declarations that are kept -/

namespace OpensScope

theorem mem_kept_vars_iff (h : ScriptRecorded input.ast mk events input.root parts)
    (hs : input.OpensScope scope) : d ∈ keepNew input.ast.varName? (scope.vars input.ast) ↔
      input.IsFirstVar scope.block d := by
  obtain ⟨a, c, horder⟩ := hs.inOrder h
  have hname {e : NodeId} {w : VarDecl} (he : input.VarIn scope.block e w) :
      input.ast.varName? e = some w.name := Ast.varName?_eq (Ast.varDecl?_of_expr he.found)
  rw [mem_keepNew]
  constructor
  · rintro ⟨front, rest, hvars, hfirst⟩
    obtain ⟨v, hv⟩ := (hs.mem_vars_iff h (d := d)).mp (by rw [hvars]; simp)
    refine ⟨v, hv, fun e w he hsame => ?_⟩
    have hmem := (hs.mem_vars_iff h).mpr ⟨w, he⟩
    have hlt := horder.start_lt
    rw [hvars] at hmem hlt
    rcases List.mem_append.mp hmem with hmem | hmem
    · exact absurd ((hname he).trans (by rw [hname hv, hsame])) (hfirst e hmem)
    · rcases List.mem_cons.mp hmem with rfl | hmem
      · exact Nat.le_refl _
      · exact Nat.le_of_lt (List.rel_of_pairwise_cons (List.pairwise_append.mp hlt).2.1 hmem)
  · rintro ⟨v, hv, hfirst⟩
    obtain ⟨front, rest, hvars⟩ := List.append_of_mem ((hs.mem_vars_iff h).mpr ⟨v, hv⟩)
    refine ⟨front, rest, hvars, fun e he hsame => ?_⟩
    have hlt := horder.start_lt
    obtain ⟨w, hw⟩ := (hs.mem_vars_iff h (d := e)).mp (by rw [hvars]; simp [he])
    rw [hname hw, hname hv] at hsame
    rw [hvars] at hlt
    have hbefore := (List.pairwise_append.mp hlt).2.2 e he d (List.mem_cons_self ..)
    exact absurd (hfirst e w hw (Option.some.inj hsame)) (Nat.not_le_of_lt hbefore)

theorem mem_kept_funs_iff (h : ScriptRecorded input.ast mk events input.root parts)
    (hs : input.OpensScope scope) : f ∈ keepNew input.ast.funName? (scope.funs input.ast) ↔
      input.ast.IsFirstFun scope.block f := by
  have hname {stmt f : NodeId} {decl : FunDecl} (hdecl : input.ast.DeclaresFun stmt f decl) :
      input.ast.funName? f = some decl.name := Ast.funName?_eq (Ast.funDecl?_of_expr hdecl.2.1)
  rw [hs.funs_eq h, mem_keepNew_filterMap]
  constructor
  · rintro ⟨front, stmt, rest, hstmts, hf, hfirst⟩
    have hmem : ∀ stmt' ∈ front ++ stmt :: rest, stmt' ∈ scope.stmts := fun _ hm => hstmts ▸ hm
    obtain ⟨decl, hdecl⟩ := (hs.directFun?_eq_some_iff h (hmem stmt (by simp))).mp hf
    refine ⟨front, stmt, rest, decl, hstmts ▸ (hs.ofBlock h).2, hdecl,
      fun stmt' hstmt' f' decl' hdecl' hsame => ?_⟩
    refine hfirst stmt' hstmt' f'
      ((hs.directFun?_eq_some_iff h (hmem stmt' (by simp [hstmt']))).mpr ⟨decl', hdecl'⟩) ?_
    rw [hname hdecl', hname hdecl, hsame]
  · rintro ⟨front, stmt, rest, decl, hdata, hdecl, hfirst⟩
    have hstmts : scope.stmts = front ++ stmt :: rest :=
      NodeData.block.inj (Option.some.inj ((hs.ofBlock h).2.symm.trans hdata))
    have hmem : ∀ stmt' ∈ front ++ stmt :: rest, stmt' ∈ scope.stmts := fun _ hm => hstmts ▸ hm
    refine ⟨front, stmt, rest, hstmts,
      (hs.directFun?_eq_some_iff h (hmem stmt (by simp))).mpr ⟨decl, hdecl⟩,
      fun stmt' hstmt' f' hf' hsame => ?_⟩
    obtain ⟨decl', hdecl'⟩ := (hs.directFun?_eq_some_iff h (hmem stmt' (by simp [hstmt']))).mp hf'
    rw [hname hdecl', hname hdecl] at hsame
    exact hfirst stmt' hstmt' f' decl' hdecl' (Option.some.inj hsame)

theorem nodup_vars (h : ScriptRecorded input.ast mk events input.root parts)
    (hs : input.OpensScope scope) : (scope.vars input.ast).Nodup := by
  obtain ⟨a, c, horder⟩ := hs.inOrder h
  exact horder.start_lt.imp fun hlt heq => absurd (heq ▸ hlt) (Nat.lt_irrefl _)

theorem mem_repeated_vars_iff (h : ScriptRecorded input.ast mk events input.root parts)
    (hs : input.OpensScope scope) :
    d ∈ repeats input.ast.varName? [] (scope.vars input.ast) ↔
      (∃ v, input.VarIn scope.block d v) ∧ ¬ input.IsFirstVar scope.block d := by
  rw [mem_repeats _ (hs.nodup_vars h), hs.mem_vars_iff h, hs.mem_kept_vars_iff h]

theorem mem_repeated_funs_iff (h : ScriptRecorded input.ast mk events input.root parts)
    (hs : input.OpensScope scope) :
    f ∈ repeats input.ast.funName? [] (scope.funs input.ast) ↔
      (∃ decl, input.FunIn scope.block f decl) ∧ ¬ input.ast.IsFirstFun scope.block f := by
  rw [mem_repeats _ (hs.nodup_funs h), hs.mem_funs_iff h, hs.mem_kept_funs_iff h]

end OpensScope

/-! ### Declarations that are reported -/

section Reported

variable {scopes : List Surround} (hopens : ∀ {scope}, scope ∈ scopes ↔ input.OpensScope scope)

include hopens

theorem mem_reported_vars (h : ScriptRecorded input.ast mk events input.root parts) :
    (d, v) ∈ withDecl input.ast.varDecl?
        (scopes.flatMap fun s => repeats input.ast.varName? [] (s.vars input.ast)) ↔
      ∃ block, input.VarIn block d v ∧ ¬ input.IsFirstVar block d := by
  rw [mem_withDecl, List.mem_flatMap]
  constructor
  · rintro ⟨⟨s, hs, hd⟩, hv⟩
    obtain ⟨⟨w, hw⟩, hnot⟩ := ((hopens.mp hs).mem_repeated_vars_iff h).mp hd
    obtain rfl := Option.some.inj (hv.symm.trans (Ast.varDecl?_of_expr hw.found))
    exact ⟨s.block, hw, hnot⟩
  · rintro ⟨block, hv, hnot⟩
    obtain ⟨s, hs, rfl, -⟩ := hv.opensScope h
    exact ⟨⟨s, hopens.mpr hs, (hs.mem_repeated_vars_iff h).mpr ⟨⟨v, hv⟩, hnot⟩⟩,
      Ast.varDecl?_of_expr hv.found⟩

theorem mem_reported_funs (h : ScriptRecorded input.ast mk events input.root parts) :
    (f, decl) ∈ withDecl input.ast.funDecl?
        (scopes.flatMap fun s => repeats input.ast.funName? [] (s.funs input.ast)) ↔
      ∃ block, input.FunIn block f decl ∧ ¬ input.ast.IsFirstFun block f := by
  rw [mem_withDecl, List.mem_flatMap]
  constructor
  · rintro ⟨⟨s, hs, hf⟩, hdecl⟩
    obtain ⟨⟨decl', hdecl'⟩, hnot⟩ := ((hopens.mp hs).mem_repeated_funs_iff h).mp hf
    obtain ⟨stmts, stmt, -, -, hdeclares⟩ := hdecl'.found
    obtain rfl := Option.some.inj (hdecl.symm.trans (Ast.funDecl?_of_expr hdeclares.2.1))
    exact ⟨s.block, hdecl', hnot⟩
  · rintro ⟨block, hdecl, hnot⟩
    obtain ⟨owner, outer, hnests⟩ := hdecl.nests
    obtain ⟨stmts, stmt, hdata, -, hdeclares⟩ := hdecl.found
    obtain ⟨s, hs, rfl⟩ := hnests.opensScope h ⟨stmts, hdata⟩
    exact ⟨⟨s, hopens.mpr hs, (hs.mem_repeated_funs_iff h).mpr ⟨⟨decl, hdecl⟩, hnot⟩⟩,
      Ast.funDecl?_of_expr hdeclares.2.1⟩

theorem nodup_reported_vars (h : ScriptRecorded input.ast mk events input.root parts)
    (hblocks : (scopes.map Surround.block).Nodup) :
    (scopes.flatMap fun s => repeats input.ast.varName? [] (s.vars input.ast)).Nodup := by
  refine nodup_flatMap_scopes hblocks (fun s hs => ?_) fun s hs s' hs' d hd hd' => ?_
  · exact ((hopens.mp hs).nodup_vars h).sublist (repeats_sublist _ _ _)
  · obtain ⟨⟨v, hv⟩, -⟩ := ((hopens.mp hs).mem_repeated_vars_iff h).mp hd
    obtain ⟨⟨w, hw⟩, -⟩ := ((hopens.mp hs').mem_repeated_vars_iff h).mp hd'
    exact hv.block_unique h hw

theorem nodup_reported_funs (h : ScriptRecorded input.ast mk events input.root parts)
    (hblocks : (scopes.map Surround.block).Nodup) :
    (scopes.flatMap fun s => repeats input.ast.funName? [] (s.funs input.ast)).Nodup := by
  refine nodup_flatMap_scopes hblocks (fun s hs => ?_) fun s hs s' hs' f hf hf' => ?_
  · exact ((hopens.mp hs).nodup_funs h).sublist (repeats_sublist _ _ _)
  · obtain ⟨⟨decl, hdecl⟩, -⟩ := ((hopens.mp hs).mem_repeated_funs_iff h).mp hf
    obtain ⟨⟨decl', hdecl'⟩, -⟩ := ((hopens.mp hs').mem_repeated_funs_iff h).mp hf'
    exact hdecl.block_unique h hdecl'

end Reported

/-- A name is reported where its token stands. -/
theorem namesToken_of_nameIn {message name : String} {offset : Nat} {span : Span}
    (h : NameIn text (Significant text) name offset span) :
    NamesToken text name (.ofResolution message (nameSpan name offset)) span := by
  obtain ⟨t, ht, hkind, rfl, rfl, hstart, hstop⟩ := h
  refine ⟨t, ht.1, hkind, rfl, hstart, hstop, ?_⟩
  rw [span_of_scan ht.1]
  rfl

theorem blockContents (h : ScriptRecorded input.ast mk events input.root parts)
    (ha : input.Anchored text (Significant text)) : input.BlockContents text where
  vars block s hs := by
    rcases opensScope_or_empty h hs with ⟨scope, hscope, rfl⟩ | ⟨hblock, hvars, -⟩
    · obtain ⟨s', hs', hvars, -⟩ := hscope.recorded h
      obtain rfl := Option.some.inj (hs.symm.trans hs')
      obtain ⟨a, c, horder⟩ := hscope.inOrder h
      rw [hvars]
      exact ⟨fun d => hscope.mem_kept_vars_iff h, horder.start_lt.sublist (keepNew_sublist _ _)⟩
    · have hnone (d : NodeId) : ¬ input.IsFirstVar block d :=
        fun ⟨_, hd, _⟩ => hblock hd.isBlock
      simp [hvars, hnone]
  funs block s hs := by
    rcases opensScope_or_empty h hs with ⟨scope, hscope, rfl⟩ | ⟨hblock, -, hfuns⟩
    · obtain ⟨s', hs', -, hfuns⟩ := hscope.recorded h
      obtain rfl := Option.some.inj (hs.symm.trans hs')
      rw [hfuns]
      refine ⟨fun f => hscope.mem_kept_funs_iff h,
        (hscope.nodup_funs h).sublist (keepNew_sublist _ _), fun stmts hdata => ?_⟩
      cases hdata.symm.trans (hscope.ofBlock h).2
      rw [← hscope.funs_eq h]
      exact keepNew_sublist _ _
    · have hnone (f : NodeId) : ¬ input.ast.IsFirstFun block f :=
        fun ⟨_, _, _, _, hdata, _⟩ => hblock ⟨_, hdata⟩
      simp [hfuns, hnone]
  again := by
    obtain ⟨opened, opened', hbody, hinner, rest, hperm, hrest⟩ := resolve_tells h
    have hopens {scope : Surround} : scope ∈ opened ++ opened' ↔ input.OpensScope scope :=
      opensScope_iff h hbody hinner
    have hblocks := nodup_opened h hbody hinner
    refine ⟨_, _, rest, nodup_withDecl (nodup_reported_vars hopens h hblocks),
      fun d v => mem_reported_vars hopens h, nodup_withDecl (nodup_reported_funs hopens h hblocks),
      fun f decl => mem_reported_funs hopens h, ?_, hrest⟩
    rw [map_withDecl, map_withDecl]
    exact hperm.trans ((again_perm input.ast _).append_right rest)
  varNamed block d v hv := namesToken_of_nameIn (ha.nameIn_of_var hv.found hv.named)
  funNamed block f decl hf := by
    obtain ⟨stmts, stmt, -, -, -, hdecl, hnamed⟩ := hf.found
    exact namesToken_of_nameIn (ha.nameIn_of_fun hdecl hnamed)

/-- In every text, under every name of the script, and whatever is declared elsewhere. -/
theorem block_contents (text scriptName : String) (file : FileId) (globals : Globals)
    (others : ClassLookup) : ∃ p, parseScript text = .ok p ∧
      (ResolveInput.mk file scriptName p.ast p.root globals others).BlockContents text := by
  obtain ⟨p, -, -, -, hp, -⟩ := parseWith_script text (scan_endsWithEof text)
  obtain ⟨parts, hparts⟩ := ScriptRecorded.of_parse hp
  have hrun := ScriptRun.of_parse hp
  have h : ScriptRecorded (ResolveInput.mk file scriptName p.ast p.root globals others).ast _ _
      (ResolveInput.mk file scriptName p.ast p.root globals others).root parts := hparts
  exact ⟨p, hp, blockContents h (.of_script hrun hparts rfl rfl)⟩

/-- A branch without braces declares its variable in the scope around it. -/
example : (parseScript "int x; if (x) int x").toOption.any (fun p => decide (
    (ResolveInput.mk 0 "S" p.ast p.root .empty .none).resolve.value.diagnostics =
      [.ofResolution "Variable 'x' already declared" ⟨18, 19⟩])) = true := by
  decide +kernel

end ResolveInput

end ScriptAnalysis
