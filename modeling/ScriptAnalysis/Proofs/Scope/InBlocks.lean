import ScriptAnalysis.Proofs.Grammar.Paths
import ScriptAnalysis.Proofs.Scope.Enclosing
import ScriptAnalysis.Proofs.Scope.RepeatedScripts

/-!
# What is declared in a block

`ResolveInput.VarIn` and `ResolveInput.FunIn` tell from the text alone what is declared in a block.
They are the variables and the functions of the scope that is opened for it
(`OpensScope.mem_vars_iff`, `OpensScope.mem_funs_iff`), and nothing is declared in two blocks.
-/

namespace ScriptAnalysis

/-! ### What is declared in a block -/

namespace Ast

/-- The statement `stmt` declares the function `f` under a name. -/
def DeclaresFun (ast : Ast) (stmt f : NodeId) (decl : FunDecl) : Prop :=
  ast.data? stmt = some (.funDecl f) ∧ ast.data? f = some (.funDeclExpr decl) ∧ decl.name ≠ ""

/-- The first function of its name among the statements directly in a block. -/
def IsFirstFun (ast : Ast) (block f : NodeId) : Prop :=
  ∃ front stmt rest decl, ast.data? block = some (.block (front ++ stmt :: rest)) ∧
    ast.DeclaresFun stmt f decl ∧
    ∀ stmt' ∈ front, ∀ f' decl', ast.DeclaresFun stmt' f' decl' → decl'.name ≠ decl.name

end Ast

namespace ResolveInput

/-- The variable `d` has a name, and of all blocks around it `block` is the innermost one.  A
    parameter lies in the block of the body. -/
structure VarIn (input : ResolveInput) (block d : NodeId) (v : VarDecl) : Prop where
  isBlock : input.ast.IsBlock block
  nests : ∃ owner outer, input.Nests owner (block :: outer) d
  found : input.ast.data? d = some (.varDeclExpr v)
  named : v.name ≠ ""

/-- The first variable of its name in a block. -/
def IsFirstVar (input : ResolveInput) (block d : NodeId) : Prop :=
  ∃ v, input.VarIn block d v ∧ ∀ e w, input.VarIn block e w → w.name = v.name →
    (input.ast.span d).start ≤ (input.ast.span e).start

/-- The function `f` has a name, and a statement directly in the block declares it. -/
structure FunIn (input : ResolveInput) (block f : NodeId) (decl : FunDecl) : Prop where
  nests : ∃ owner scopes, input.Nests owner scopes block
  found : ∃ stmts stmt, input.ast.data? block = some (.block stmts) ∧ stmt ∈ stmts ∧
    input.ast.DeclaresFun stmt f decl

end ResolveInput

/-! ### Variables within a construct -/

namespace Ast

variable {ast : Ast} {a c : ParsePoint} {m n k d : Nat} {around around' : List Surround}

/-- What a part of a construct declares in the scope around it, the construct declares. -/
theorem mem_directVars_of_part {data : NodeData} (h : Laid ast a [m] c)
    (hdata : ast.data? m = some data) (hopens : ast.opens? m = none)
    (hclass : ∀ c, data ≠ .classDecl c) (hk : k ∈ data.parts) (hd : d ∈ ast.directVars k) :
    d ∈ ast.directVars m := by
  obtain ⟨_, _, _, _, -, -, hm, -⟩ := h.of_data hdata
  have hformed := hm.formed
  have hexpr (hk : ast.IsExpr k) : d ∈ ast.directVars m := by
    rw [hk.directVars] at hd
    cases hd
  by_cases hisExpr : data.isExpr = true
  · refine hexpr (isExpr_of_part hformed hisExpr ?_ hk)
    rintro params body isBlock rfl
    simp [opens?, hdata] at hopens
  cases data with
  | classDecl c => exact absurd rfl (hclass c)
  | block | funDeclExpr => simp [opens?, hdata] at hopens
  | varDecl decl =>
    obtain rfl := List.mem_singleton.mp hk
    obtain ⟨v, hv⟩ := hformed
    rw [directVars_eq_nil hv (by simp) (by simp) (by simp)] at hd
    cases hd
  | funDecl decl =>
    obtain rfl := List.mem_singleton.mp hk
    obtain ⟨f, hf⟩ := hformed
    rw [directVars_eq_nil hf (by simp) (by simp) (by simp)] at hd
    cases hd
  | ifStmt cond thenBranch elseBranch =>
    rcases List.mem_cons.mp hk with rfl | hk
    · exact hexpr hformed.1
    · rw [directVars_of_ifStmt h hdata]
      exact List.mem_flatMap.mpr ⟨k, hk, hd⟩
  | whileStmt cond body =>
    rcases List.mem_cons.mp hk with rfl | hk
    · exact hexpr hformed.1
    · obtain rfl := List.mem_singleton.mp hk
      rwa [directVars_of_whileStmt h hdata]
  | exprStmt expr =>
    obtain rfl := List.mem_singleton.mp hk
    exact hexpr hformed
  | returnStmt value => exact hexpr (hformed k (Option.mem_toList.mp hk))
  | varDeclExpr v => exact hexpr (hformed k (Option.mem_toList.mp hk))
  | importDecl | name | type => cases hk
  | _ => exact absurd rfl hisExpr

/-- A variable in a construct is declared in the scope around the construct, or in one that is
    opened in it.  By induction on the way to the statement. -/
theorem Lies.declared (hlies : ast.Lies around m around' n) (h : Laid ast a [m] c)
    (hn : ast.data? n = some (.varDecl d)) (hnamed : isNamed (ast.varName? d) = true) :
    (around' = around ∧ d ∈ ast.directVars m) ∨ ∃ s outer k scope, around' = s :: outer ∧
      ast.Lies around m outer k ∧ ast.opens? k = some scope ∧ s.block = scope.block ∧
      d ∈ scope.vars ast := by
  induction hlies generalizing a c with
  | here around n =>
    refine .inl ⟨rfl, ?_⟩
    rw [directVars_of_varDecl hn, if_pos hnamed]
    exact List.mem_singleton_self d
  | part hdata hopens hclass hk _ ih =>
    rcases ih (h.part hdata hk).1 hn with ⟨hsame, hd⟩ | ⟨s, outer, l, scope, hs, hlies, hl⟩
    · exact .inl ⟨hsame, mem_directVars_of_part h hdata hopens hclass hk hd⟩
    · exact .inr ⟨s, outer, l, scope, hs, .part hdata hopens hclass hk hlies, hl⟩
  | @param around _ m k _ scope hopens hk _ ih =>
    obtain ⟨b, d', ho⟩ := opened h hopens
    rcases ih (ho.params.mem hk) hn with ⟨rfl, hd⟩ | ⟨s, outer, l, scope', hs, hlies, hl⟩
    · exact .inr ⟨_, _, m, scope, rfl, .here around m, hopens, rfl,
        List.mem_flatMap.mpr ⟨k, List.mem_append_left _ hk, hd⟩⟩
    · exact .inr ⟨s, outer, l, scope', hs, .param hopens hk hlies, hl⟩
  | @stmt around _ m k _ scope hopens hk _ ih =>
    obtain ⟨b, d', ho⟩ := opened h hopens
    rcases ih (ho.stmts.mem hk) hn with ⟨rfl, hd⟩ | ⟨s, outer, l, scope', hs, hlies, hl⟩
    · exact .inr ⟨_, _, m, scope, rfl, .here around m, hopens, rfl,
        List.mem_flatMap.mpr ⟨k, List.mem_append_right _ hk, hd⟩⟩
    · exact .inr ⟨s, outer, l, scope', hs, .stmt hopens hk hlies, hl⟩

end Ast

/-! ### What lies in a scope -/

namespace ResolveInput

variable {input : ResolveInput} {mk : MarkerId → Marker} {events : List Event} {parts : ScriptParts}
  {owner : String} {scopes : List NodeId} {around around' : List Surround} {scope : Surround}
  {block m n k d f : NodeId}

theorem scopeFor_eq_none {ast : Ast} {data : NodeData} (hdata : ast.data? m = some data)
    (hopens : ast.opens? m = none) : data.scopeFor m k = none := by
  cases data with
  | block | closure | funDeclExpr => simp [Ast.opens?, hdata] at hopens
  | _ => rfl

/-- Parameters and the statements of a block lie in the block. -/
theorem Nests.of_body {params : List NodeId} {body : NodeId}
    (hparams : ∀ p ∈ params, input.ast.IsVar p) (hbody : input.ast.IsBlock body)
    (hpart : ∀ k ∈ params ++ [body],
      input.Nests owner ((if k ∈ params then some body else none).toList ++ scopes) k)
    (hk : k ∈ params ++ Walk.blockStatements input.ast body) :
    input.Nests owner (body :: scopes) k := by
  obtain ⟨stmts, hstmts⟩ := hbody
  rw [Ast.blockStatements_of_data hstmts] at hk
  rcases List.mem_append.mp hk with hk | hk
  · have hnests := hpart k (List.mem_append_left _ hk)
    rwa [if_pos hk] at hnests
  · have hnot : body ∉ params := fun hmem => by
      obtain ⟨decl, v, hdata, -⟩ := hparams body hmem
      cases hstmts.symm.trans hdata
    have hnests := hpart body (List.mem_append_right _ (List.mem_singleton_self body))
    rw [if_neg hnot] at hnests
    exact .part hnests hstmts (by simp) hk

/-- What opens a scope has its parameters and statements in it. -/
theorem Nests.entered (h : ScriptRecorded input.ast mk events input.root parts)
    (hm : input.Nests owner scopes m) (hopens : input.ast.opens? m = some scope)
    (hk : k ∈ scope.params ++ scope.stmts) : input.Nests owner (scope.block :: scopes) k := by
  unfold Ast.opens? at hopens
  split at hopens
  · next params body isBlock hdata =>
    cases hopens
    obtain ⟨hparams, hbody⟩ := hm.formed h hdata
    exact .of_body hparams hbody (fun k hk => .part hm hdata (by simp) hk) hk
  · next f hdata =>
    cases hopens
    obtain ⟨hparams, hbody⟩ := hm.formed h hdata
    exact .of_body hparams hbody (fun k hk => .part hm hdata (by simp) hk) hk
  · next stmts hdata =>
    cases hopens
    exact .part hm hdata (by simp) hk
  · cases hopens

theorem Nests.within (h : ScriptRecorded input.ast mk events input.root parts)
    (hlies : input.ast.Lies around m around' n)
    (hm : input.Nests owner (around.map Surround.block) m) :
    input.Nests owner (around'.map Surround.block) n := by
  induction hlies with
  | here => exact hm
  | part hdata hopens hclass hk _ ih =>
    refine ih ?_
    have hnests := Nests.part hm hdata hclass hk
    rwa [scopeFor_eq_none hdata hopens] at hnests
  | param hopens hk _ ih =>
    have hnests := hm.entered h hopens (List.mem_append_left _ hk)
    exact ih hnests
  | stmt hopens hk _ ih => exact ih (hm.entered h hopens (List.mem_append_right _ hk))

theorem Stands.nests (h : ScriptRecorded input.ast mk events input.root parts)
    (hn : input.Stands owner around n) : input.Nests owner (around.map Surround.block) n := by
  cases hn with
  | script hscript hbody hlies => exact .within h hlies (.body hscript hbody)
  | member hm hdecl hk hlies => exact .within h hlies (.member hm hdecl hk)

/-- What a statement declares lies where the statement lies. -/
theorem Nests.var (h : ScriptRecorded input.ast mk events input.root parts)
    (hk : input.Nests owner scopes k) (hd : d ∈ input.ast.directVars k) :
    ∃ v, input.Nests owner scopes d ∧ input.ast.data? d = some (.varDeclExpr v) ∧ v.name ≠ "" := by
  unfold Ast.directVars at hd
  generalize input.ast.size = depth at hd
  induction depth generalizing k with
  | zero => cases hd
  | succ depth ih =>
    unfold Ast.varsWithin at hd
    split at hd
    · next decl hdata =>
      split at hd
      · next hnamed =>
        obtain rfl := List.mem_singleton.mp hd
        obtain ⟨v, hv⟩ := hk.formed h hdata
        refine ⟨v, .part hk hdata (by simp) (List.mem_singleton_self _), hv, ?_⟩
        rw [Ast.varName?_eq (Ast.varDecl?_of_expr hv)] at hnamed
        simpa [Ast.isNamed] using hnamed
      · cases hd
    · next cond thenBranch elseBranch hdata =>
      obtain ⟨l, hl, hd⟩ := List.mem_flatMap.mp hd
      exact ih (.part hk hdata (by simp) (List.mem_cons_of_mem _ hl)) hd
    · next cond body hdata => exact ih (.part hk hdata (by simp) (by simp [NodeData.parts])) hd
    · cases hd

end ResolveInput

/-! ### The scopes that are opened -/

namespace ResolveInput

variable {input : ResolveInput} {mk : MarkerId → Marker} {events : List Event} {parts : ScriptParts}
  {owner : String} {scopes : List NodeId} {around around' : List Surround} {scope scope' : Surround}
  {block m n k d f : NodeId} {v : VarDecl}

/-- A scope that something in the script opens. -/
def OpensScope (input : ResolveInput) (scope : Surround) : Prop :=
  ∃ owner around n, input.Stands owner around n ∧ input.ast.opens? n = some scope

/-- What opens a scope stands where it is walked. -/
theorem exists_stands (h : ScriptRecorded input.ast mk events input.root parts)
    (hn : Visited input input.resolve.value parts owner around n)
    (hopens : input.ast.opens? n = some scope) : ∃ owner, input.Stands owner around n := by
  rcases hn with ⟨-, k, hk, hlies⟩ | ⟨i, -, henters⟩
  · obtain rfl := List.mem_singleton.mp hk
    exact ⟨_, .script h.classDecl?_root h.script.body hlies⟩
  · induction henters with
    | here hdata => simp [Ast.opens?, hdata] at hopens
    | @member m k n decl c around hdata hknown hk hlies =>
      rcases declares_of_known h (by rw [hknown]; rfl) with rfl | ⟨owner, hm⟩
      · cases hdata.symm.trans h.data_root
        rw [h.script.fields, h.script.methods] at hk
        cases hk
      · exact ⟨owner, .member hm (Ast.classDecl?_eq_some.mpr hdata) hk hlies⟩
    | inner _ _ _ _ ih => exact ih hopens

theorem opensScope_iff (h : ScriptRecorded input.ast mk events input.root parts)
    {opened opened' : List Surround} (hbody : input.ast.Opens [parts.body] opened)
    (hinner : input.ast.OpensClasses input.resolve.value.classes parts.decl.inner opened') :
    scope ∈ opened ++ opened' ↔ input.OpensScope scope := by
  rw [mem_opened_iff hbody hinner]
  constructor
  · rintro ⟨owner, around, n, hn, hopens⟩
    obtain ⟨owner, hn⟩ := exists_stands h hn hopens
    exact ⟨owner, around, n, hn, hopens⟩
  · rintro ⟨owner, around, n, hn, hopens⟩
    exact ⟨owner, around, n, hn.visited h, hopens⟩

namespace OpensScope

theorem unique (h : ScriptRecorded input.ast mk events input.root parts)
    (hs : input.OpensScope scope) (hs' : input.OpensScope scope')
    (heq : scope.block = scope'.block) :
    scope = scope' := by
  obtain ⟨opened, opened', hbody, hinner, -⟩ := resolve_tells h
  exact List.inj_on_of_nodup_map (nodup_opened h hbody hinner)
    ((opensScope_iff h hbody hinner).mpr hs) ((opensScope_iff h hbody hinner).mpr hs') heq

theorem laid (h : ScriptRecorded input.ast mk events input.root parts)
    (hs : input.OpensScope scope) : ∃ n a c b d, Opened input.ast a c n scope b d := by
  obtain ⟨owner, around, n, hn, hopens⟩ := hs
  obtain ⟨a, c, hlaid⟩ := (hn.nests h).laid h
  obtain ⟨b, d, ho⟩ := Ast.opened hlaid hopens
  exact ⟨n, a, c, b, d, ho⟩

/-- A scope is that of a block that lies somewhere. -/
theorem ofBlock (h : ScriptRecorded input.ast mk events input.root parts)
    (hs : input.OpensScope scope) : (∃ owner scopes, input.Nests owner scopes scope.block) ∧
      input.ast.data? scope.block = some (.block scope.stmts) := by
  obtain ⟨owner, around, n, hn, hopens⟩ := hs
  have hnests := hn.nests h
  unfold Ast.opens? at hopens
  split at hopens
  · next params body isBlock hdata =>
    cases hopens
    obtain ⟨-, stmts, hstmts⟩ := hnests.formed h hdata
    refine ⟨⟨_, _, .part hnests hdata (by simp) (by simp [NodeData.parts])⟩, ?_⟩
    exact (Ast.blockStatements_of_data hstmts).symm ▸ hstmts
  · next f hdata =>
    cases hopens
    obtain ⟨-, stmts, hstmts⟩ := hnests.formed h hdata
    refine ⟨⟨_, _, .part hnests hdata (by simp) (by simp [NodeData.parts])⟩, ?_⟩
    exact (Ast.blockStatements_of_data hstmts).symm ▸ hstmts
  · next stmts hdata =>
    cases hopens
    exact ⟨⟨_, _, hnests⟩, hdata⟩
  · cases hopens

/-- The parameters and the statements of a scope lie in its block. -/
theorem nests (h : ScriptRecorded input.ast mk events input.root parts)
    (hs : input.OpensScope scope) : ∃ owner outer, ∀ k ∈ scope.params ++ scope.stmts,
      input.Nests owner (scope.block :: outer) k := by
  obtain ⟨owner, around, n, hn, hopens⟩ := hs
  exact ⟨owner, _, fun k hk => (hn.nests h).entered h hopens hk⟩

/-- The scope is left with the first declaration of each name. -/
theorem recorded (h : ScriptRecorded input.ast mk events input.root parts)
    (hs : input.OpensScope scope) : ∃ s, input.resolve.value.blocks[scope.block]? = some s ∧
      s.vars = keepNew input.ast.varName? (scope.vars input.ast) ∧
      s.funs = keepNew input.ast.funName? (scope.funs input.ast) := by
  obtain ⟨owner, around, n, hn, hopens⟩ := hs
  exact ⟨_, ((resolve_finds h).settled (hn.visited h)).scope scope hopens, rfl, rfl⟩

/-- The variables of a scope stand one behind the other. -/
theorem inOrder (h : ScriptRecorded input.ast mk events input.root parts)
    (hs : input.OpensScope scope) : ∃ a c, input.ast.InOrder a (scope.vars input.ast) c := by
  obtain ⟨n, a, c, b, d, ho⟩ := hs.laid h
  exact ⟨a, d, (ho.params.append ho.stmts).directVars_inOrder⟩

end OpensScope

/-- A block that lies somewhere is a scope. -/
theorem Nests.opensScope (h : ScriptRecorded input.ast mk events input.root parts)
    (hn : input.Nests owner scopes n) (hblock : input.ast.IsBlock n) :
    ∃ scope, input.OpensScope scope ∧ scope.block = n := by
  obtain ⟨stmts, hstmts⟩ := hblock
  cases hn.seat h with
  | construct hn =>
    have hopens : input.ast.opens? n = some ⟨n, [], stmts, false⟩ := by simp [Ast.opens?, hstmts]
    exact ⟨_, ⟨_, _, n, hn, hopens⟩, rfl⟩
  | block hm hopens _ => exact ⟨_, ⟨_, _, _, hm, hopens⟩, rfl⟩
  | ofClass hm =>
    obtain ⟨⟨c, hc, -⟩, -⟩ := hm.isClass h
    cases hstmts.symm.trans hc

/-- Every scope was opened for a block, or is that of a class and holds nothing. -/
theorem opensScope_or_empty (h : ScriptRecorded input.ast mk events input.root parts)
    {s : BlockScope} (hs : input.resolve.value.blocks[block]? = some s) :
    (∃ scope, input.OpensScope scope ∧ scope.block = block) ∨
      ¬ input.ast.IsBlock block ∧ s.vars = [] ∧ s.funs = [] := by
  have haltered : Altered input input.resolve.value parts (.scope block) := by
    by_contra hnot
    have hsame : input.resolve.value.blocks[block]? =
        (input.start parts.decl).resolution.blocks[block]? := (resolve_finds h).alters.same _ hnot
    cases hsame.symm.trans hs
  obtain ⟨owner, around, n, hn, ⟨scope, hopens, rfl⟩ | ⟨decl, hdata, rfl⟩⟩ :=
    Visited.of_altered haltered
  · obtain ⟨owner, hn⟩ := exists_stands h hn hopens
    exact .inl ⟨scope, ⟨owner, around, n, hn, hopens⟩, rfl⟩
  · have hclass := ((resolve_finds h).settled hn).ofClass decl hdata
    obtain rfl := Option.some.inj (hs.symm.trans hclass)
    refine .inr ⟨fun ⟨stmts, hstmts⟩ => ?_, rfl, rfl⟩
    cases hstmts.symm.trans hdata

end ResolveInput

/-! ### Variables -/

namespace ResolveInput

variable {input : ResolveInput} {mk : MarkerId → Marker} {events : List Event} {parts : ScriptParts}
  {owner : String} {scope : Surround} {block block' m d : NodeId} {v w : VarDecl}

/-- A variable is declared by a statement. -/
theorem stmt_of_part {ast : Ast} {data : NodeData} (hformed : data.Formed ast)
    (hclass : ∀ c, data ≠ .classDecl c) (hd : d ∈ data.parts)
    (hv : ast.data? d = some (.varDeclExpr v)) : data = .varDecl d := by
  rcases Ast.part_cases hformed hclass hd with ⟨_, hdata, hexpr⟩ | ⟨_, hdata, hstmt⟩ | ⟨hdata, -⟩ |
    ⟨-, f, hf⟩
  · cases hv.symm.trans hdata
    cases hexpr
  · cases hv.symm.trans hdata
    cases hstmt
  · exact hdata
  · cases hv.symm.trans hf

namespace VarIn

/-- The statement that declares a variable lies where the variable does. -/
theorem stmt (h : ScriptRecorded input.ast mk events input.root parts)
    (hd : input.VarIn block d v) : ∃ m owner outer, input.Nests owner (block :: outer) m ∧
      input.ast.data? m = some (.varDecl d) := by
  obtain ⟨⟨stmts, hstmts⟩, ⟨owner, outer, hnests⟩, hv, -⟩ := hd
  generalize hscopes : block :: outer = scopes at hnests
  cases hnests with
  | body => cases hscopes
  | ofClass hm =>
    obtain ⟨⟨c, hc, -⟩, -⟩ := hm.isClass h
    cases hv.symm.trans hc
  | member hm =>
    obtain ⟨⟨c, hc, -⟩, -⟩ := hm.isClass h
    cases hscopes
    cases hstmts.symm.trans hc
  | @part _ scopes m _ data hm hdata hclass hk =>
    obtain rfl := stmt_of_part (hm.formed h hdata) hclass hk hv
    exact ⟨m, owner, outer, hscopes ▸ hm, hdata⟩

/-- A variable in a block is declared in the scope of the block. -/
theorem opensScope (h : ScriptRecorded input.ast mk events input.root parts)
    (hd : input.VarIn block d v) :
    ∃ scope, input.OpensScope scope ∧ scope.block = block ∧ d ∈ scope.vars input.ast := by
  obtain ⟨m, owner, outer, hnests, hdata⟩ := hd.stmt h
  obtain ⟨stmts, hstmts⟩ := hd.isBlock
  have hnamed : Ast.isNamed (input.ast.varName? d) = true := by
    rw [Ast.varName?_eq (Ast.varDecl?_of_expr hd.found)]
    simp [Ast.isNamed, hd.named]
  have hseat := hnests.seat h
  generalize hscopes : block :: outer = scopes at hseat
  cases hseat with
  | block _ _ hblock =>
    obtain ⟨stmts, hstmts⟩ := hblock
    cases hdata.symm.trans hstmts
  | ofClass hm =>
    obtain ⟨⟨c, hc, -⟩, -⟩ := hm.isClass h
    cases hdata.symm.trans hc
  | construct hm =>
    cases hm with
    | script hscript hbody hlies =>
      obtain rfl := Option.some.inj (h.classDecl?_root.symm.trans hscript)
      obtain rfl := Option.some.inj (h.script.body.symm.trans hbody)
      rcases hlies.declared h.laid_body hdata hnamed with
        ⟨rfl, -⟩ | ⟨s, outer', n, scope, rfl, hn, hs⟩
      · cases hscopes
      · cases hscopes
        exact ⟨scope, ⟨_, outer', n, .script hscript hbody hn, hs.1⟩, hs.2.1.symm, hs.2.2⟩
    | member hm hdecl hk hlies =>
      obtain ⟨a, c, hlaid⟩ := (Nests.member hm hdecl hk).laid h
      rcases hlies.declared hlaid hdata hnamed with ⟨rfl, -⟩ | ⟨s, outer', n, scope, rfl, hn, hs⟩
      · cases hscopes
        cases hstmts.symm.trans (Ast.classDecl?_eq_some.mp hdecl)
      · cases hscopes
        exact ⟨scope, ⟨_, outer', n, .member hm hdecl hk hn, hs.1⟩, hs.2.1.symm, hs.2.2⟩

end VarIn

namespace OpensScope

/-- The variables of a scope are those in its block. -/
theorem mem_vars_iff (h : ScriptRecorded input.ast mk events input.root parts)
    (hs : input.OpensScope scope) :
    d ∈ scope.vars input.ast ↔ ∃ v, input.VarIn scope.block d v := by
  constructor
  · intro hd
    obtain ⟨k, hk, hd⟩ := List.mem_flatMap.mp hd
    obtain ⟨owner, outer, hnests⟩ := hs.nests h
    obtain ⟨v, hd, hv, hnamed⟩ := (hnests k hk).var h hd
    exact ⟨v, ⟨_, (hs.ofBlock h).2⟩, ⟨owner, outer, hd⟩, hv, hnamed⟩
  · rintro ⟨v, hd⟩
    obtain ⟨scope', hs', heq, hd⟩ := hd.opensScope h
    exact hs.unique h hs' heq.symm ▸ hd

end OpensScope

/-! ### Functions -/

theorem Nests.contains (hn : input.Nests owner scopes n) : input.ast.Contains input.root n := by
  have hdeclares {owner : String} {m : NodeId} (hm : input.Declares owner m) :
      input.ast.Contains input.root m := by
    induction hm with
    | top hscript hi =>
      exact .part (Ast.classDecl?_eq_some.mp hscript) (by simp [NodeData.parts, hi]) (.here _)
    | inner _ houter hi _ _ ih =>
      exact ih.trans (.part (Ast.classDecl?_eq_some.mp houter)
        (by simp [NodeData.parts, hi]) (.here _))
  induction hn with
  | body hscript hbody =>
    exact .part (Ast.classDecl?_eq_some.mp hscript) (by simp [NodeData.parts, hbody]) (.here _)
  | ofClass hm => exact hdeclares hm
  | member hm hdecl hk =>
    refine (hdeclares hm).trans (.part (Ast.classDecl?_eq_some.mp hdecl) ?_ (.here _))
    simpa [NodeData.parts, or_assoc] using Or.inl hk
  | part _ hdata _ hk ih => exact ih.trans (.part hdata hk (.here _))

theorem Ast.directFun?_eq_some_iff {ast : Ast} {a c : ParsePoint} (h : Laid ast a [n] c) :
    ast.directFun? n = some f ↔ ∃ decl, ast.DeclaresFun n f decl := by
  unfold Ast.directFun?
  constructor
  · intro hf
    split at hf
    · next f' hdata =>
      obtain ⟨_, _, _, _, -, -, hn, -⟩ := h.of_data hdata
      obtain ⟨decl, hdecl⟩ := hn.formed
      rw [Ast.funName?_eq (Ast.funDecl?_of_expr hdecl)] at hf
      by_cases hempty : decl.name = ""
      · simp [Ast.isNamed, hempty] at hf
      · obtain rfl : f' = f := by simpa [Ast.isNamed, hempty] using hf
        exact ⟨decl, hdata, hdecl, hempty⟩
    · cases hf
  · rintro ⟨decl, hdata, hdecl, hnamed⟩
    rw [hdata]
    simp [Ast.funName?_eq (Ast.funDecl?_of_expr hdecl), Ast.isNamed, hnamed]

namespace OpensScope

theorem directFun?_eq_some_iff (h : ScriptRecorded input.ast mk events input.root parts)
    (hs : input.OpensScope scope) (hn : n ∈ scope.stmts) :
    input.ast.directFun? n = some f ↔ ∃ decl, input.ast.DeclaresFun n f decl := by
  obtain ⟨_, _, _, _, _, ho⟩ := hs.laid h
  exact Ast.directFun?_eq_some_iff (ho.stmts.mem hn)

theorem funs_eq (h : ScriptRecorded input.ast mk events input.root parts)
    (hs : input.OpensScope scope) :
    scope.funs input.ast = scope.stmts.filterMap input.ast.directFun? := by
  obtain ⟨_, _, _, _, _, ho⟩ := hs.laid h
  unfold Surround.funs
  rw [ho.inParams]
  rfl

/-- The functions of a scope are those directly in its block. -/
theorem mem_funs_iff (h : ScriptRecorded input.ast mk events input.root parts)
    (hs : input.OpensScope scope) :
    f ∈ scope.funs input.ast ↔ ∃ decl, input.FunIn scope.block f decl := by
  rw [hs.funs_eq h, List.mem_filterMap]
  constructor
  · rintro ⟨stmt, hstmt, hf⟩
    obtain ⟨decl, hdecl⟩ := (hs.directFun?_eq_some_iff h hstmt).mp hf
    exact ⟨decl, (hs.ofBlock h).1, _, stmt, (hs.ofBlock h).2, hstmt, hdecl⟩
  · rintro ⟨decl, -, stmts, stmt, hdata, hstmt, hdecl⟩
    cases hdata.symm.trans (hs.ofBlock h).2
    exact ⟨stmt, hstmt, (hs.directFun?_eq_some_iff h hstmt).mpr ⟨decl, hdecl⟩⟩

/-- No function is declared twice. -/
theorem nodup_funs (h : ScriptRecorded input.ast mk events input.root parts)
    (hs : input.OpensScope scope) : (scope.funs input.ast).Nodup := by
  obtain ⟨_, _, _, _, _, ho⟩ := hs.laid h
  rw [hs.funs_eq h]
  refine List.pairwise_filterMap.mpr (ho.stmts.nodup.imp_of_mem
    fun {n m} hn hm hne f hf f' hf' => ?_)
  obtain ⟨decl, hdata, -⟩ := (hs.directFun?_eq_some_iff h hn).mp hf
  obtain ⟨decl', hdata', -⟩ := (hs.directFun?_eq_some_iff h hm).mp hf'
  rintro rfl
  exact ho.stmts.disjoint hn hm hne (.part hdata (List.mem_singleton_self f) (.here f))
    (.part hdata' (List.mem_singleton_self f) (.here f))

end OpensScope

/-! ### Nothing is declared in two blocks -/

/-- A variable in a block is no field. -/
theorem VarIn.not_isFieldDecl (h : ScriptRecorded input.ast mk events input.root parts)
    (hd : input.VarIn block d v) : ¬ input.IsFieldDecl d := by
  rintro ⟨owner, c, cdecl, field, hc, hcdecl, hfield, hdata⟩
  obtain ⟨m, owner', outer, hm, hdata'⟩ := hd.stmt h
  have hmember := Nests.member hc hcdecl (List.mem_append_left _ hfield)
  obtain rfl := h.holder_unique hmember.contains hm.contains hdata hdata'
    (List.mem_singleton_self d) (List.mem_singleton_self d)
  -- The field is noted in the class and in the block.
  have hnot : ¬ input.IsFieldDecl field := by
    rintro ⟨_, c', cdecl', field', hc', hcdecl', hfield', hdata''⟩
    obtain ⟨v', hv'⟩ := (Nests.member hc' hcdecl' (List.mem_append_left _ hfield')).formed h hdata''
    cases hv'.symm.trans hdata
  have hnoted := (hm.seat h).noted h hnot
  rw [(hmember.seat h).noted h hnot] at hnoted
  obtain rfl := Option.some.inj hnoted
  obtain ⟨stmts, hstmts⟩ := hd.isBlock
  cases hstmts.symm.trans (Ast.classDecl?_eq_some.mp hcdecl)

theorem VarIn.block_unique (h : ScriptRecorded input.ast mk events input.root parts)
    (hd : input.VarIn block d v) (hd' : input.VarIn block' d w) : block = block' := by
  obtain ⟨owner, outer, hnests⟩ := hd.nests
  obtain ⟨owner', outer', hnests'⟩ := hd'.nests
  have hnot := hd.not_isFieldDecl h
  have hnoted := (hnests.seat h).noted h hnot
  rw [(hnests'.seat h).noted h hnot] at hnoted
  exact (Option.some.inj hnoted).symm

theorem FunIn.block_unique {decl decl' : FunDecl}
    (h : ScriptRecorded input.ast mk events input.root parts) (hf : input.FunIn block f decl)
    (hf' : input.FunIn block' f decl') : block = block' := by
  obtain ⟨⟨owner, scopes, hnests⟩, stmts, stmt, hdata, hstmt, hdecl⟩ := hf
  obtain ⟨⟨owner', scopes', hnests'⟩, stmts', stmt', hdata', hstmt', hdecl'⟩ := hf'
  have hcontains := hnests.contains.trans (.part hdata hstmt (.here stmt))
  have hcontains' := hnests'.contains.trans (.part hdata' hstmt' (.here stmt'))
  obtain rfl := h.holder_unique hcontains hcontains' hdecl.1 hdecl'.1 (List.mem_singleton_self f)
    (List.mem_singleton_self f)
  exact h.holder_unique hnests.contains hnests'.contains hdata hdata' hstmt hstmt'

end ResolveInput

end ScriptAnalysis
