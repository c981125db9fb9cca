import ScriptAnalysis.Proofs.Scope.Openings
import ScriptAnalysis.Proofs.Scope.Redeclared

/-!
# What a walk reports of names that are declared again

A walk over constructs reports those of their own variables that the innermost scope does not take,
and for every scope that it opens the declarations that this scope does not keep (`Told`).  It
reports each of them once, and nothing else of this kind.
-/

namespace ScriptAnalysis

/-! ### What is told -/

namespace Ast

def varsAgain (ast : Ast) (ds : List NodeId) : List Diagnostic :=
  ds.filterMap fun d => (ast.varDecl? d).map VarDecl.again

theorem varsAgain_append (ast : Ast) (ds es : List NodeId) :
    ast.varsAgain (ds ++ es) = ast.varsAgain ds ++ ast.varsAgain es := List.filterMap_append

def funsAgain (ast : Ast) (ds : List NodeId) : List Diagnostic :=
  ds.filterMap fun d => (ast.funDecl? d).map FunDecl.again

theorem funsAgain_append (ast : Ast) (ds es : List NodeId) :
    ast.funsAgain (ds ++ es) = ast.funsAgain ds ++ ast.funsAgain es := List.filterMap_append

end Ast

/-- The reports of the declarations that a scope does not keep. -/
def Surround.again (ast : Ast) (s : Surround) : List Diagnostic :=
  ast.varsAgain (repeats ast.varName? [] (s.vars ast)) ++
    ast.funsAgain (repeats ast.funName? [] (s.funs ast))

/-- The variables of constructs that the innermost scope does not take. -/
def headRepeats (ast : Ast) : List Standing → List NodeId → List NodeId
  | [], _ => []
  | st :: _, ns => repeats ast.varName? st.walked (ns.flatMap ast.directVars)

/-- What is reported on a walk over the constructs `ns` within the scopes of `env`. -/
def Told (input : ResolveInput) (env : List Standing) (ns : List NodeId) (s s' : WalkState) :
    Prop :=
  ∃ scopes, input.ast.Opens ns scopes ∧ s.resolution.Tells
    (input.ast.varsAgain (headRepeats input.ast env ns) ++
      scopes.flatMap (Surround.again input.ast))
    s'.resolution

section

variable {ast : Ast} {ns ms : List NodeId} {env : List Standing}

theorem headRepeats_append (ns ms : List NodeId) (env : List Standing) :
    headRepeats ast env (ns ++ ms) =
      headRepeats ast env ns ++ headRepeats ast (declare ast ns env) ms := by
  cases env with
  | nil => rfl
  | cons st outer => simp [headRepeats, declare, repeats_append]

theorem headRepeats_congr (h : ns.flatMap ast.directVars = ms.flatMap ast.directVars) :
    headRepeats ast env ns = headRepeats ast env ms := by
  cases env with
  | nil => rfl
  | cons st outer => simp [headRepeats, h]

theorem headRepeats_eq_nil (h : ns.flatMap ast.directVars = []) : headRepeats ast env ns = [] := by
  cases env with
  | nil => rfl
  | cons st outer => simp [headRepeats, h, repeats]

end

theorem perm_interchange {α : Type} (as bs cs ds : List α) :
    (as ++ bs ++ (cs ++ ds)).Perm (as ++ cs ++ (bs ++ ds)) := by
  simp only [List.append_assoc]
  exact (List.perm_append_comm_assoc bs cs ds).append_left as

namespace Told

variable {input : ResolveInput} {env : List Standing} {ns ms : List NodeId} {m : NodeId}
  {data : NodeData} {s s₁ s₂ : WalkState}

theorem nil (h : s.resolution.Tells [] s₁.resolution) : Told input env [] s s₁ :=
  ⟨[], .nil, by rwa [headRepeats_eq_nil rfl]⟩

theorem before (h : s.resolution.Tells [] s₁.resolution) (k : Told input env ns s₁ s₂) :
    Told input env ns s s₂ := by
  obtain ⟨scopes, hopens, htold⟩ := k
  exact ⟨scopes, hopens, h.before htold⟩

theorem after (h : Told input env ns s s₁) (k : s₁.resolution.Tells [] s₂.resolution) :
    Told input env ns s s₂ := by
  obtain ⟨scopes, hopens, htold⟩ := h
  exact ⟨scopes, hopens, htold.after k⟩

/-- The second constructs are told of what the first ones declared. -/
theorem append (h : Told input env ns s s₁)
    (k : Told input (declare input.ast ns env) ms s₁ s₂) : Told input env (ns ++ ms) s s₂ := by
  obtain ⟨scopes, hopens, htold⟩ := h
  obtain ⟨scopes', hopens', htold'⟩ := k
  refine ⟨scopes ++ scopes', hopens.append hopens', (htold.trans htold').perm ?_⟩
  rw [headRepeats_append, Ast.varsAgain_append, List.flatMap_append]
  exact perm_interchange _ _ _ _

/-- A construct that opens no scope tells what its parts tell. -/
theorem part (hdata : input.ast.data? m = some data) (hopens : input.ast.opens? m = none)
    (hclass : ∀ decl, data ≠ .classDecl decl)
    (hvars : data.parts.flatMap input.ast.directVars = input.ast.directVars m)
    (h : Told input env data.parts s s₁) : Told input env [m] s s₁ := by
  obtain ⟨scopes, hscopes, htold⟩ := h
  have hdirect : [m].flatMap input.ast.directVars = data.parts.flatMap input.ast.directVars := by
    rw [List.flatMap_singleton, hvars]
  exact ⟨scopes, .part hdata hopens hclass hscopes, by rwa [headRepeats_congr hdirect]⟩

/-- Constructs that declare nothing tell the same in all scopes. -/
theorem anywhere (hvars : ns.flatMap input.ast.directVars = []) (h : Told input env ns s s₁)
    (env' : List Standing) : Told input env' ns s s₁ := by
  obtain ⟨scopes, hscopes, htold⟩ := h
  refine ⟨scopes, hscopes, ?_⟩
  rw [headRepeats_eq_nil hvars] at htold ⊢
  exact htold

end Told

namespace Walk

variable {input : ResolveInput} {r : Resolution} {v : Visitors} {owner : String}
  {env : List Standing} {a b c d : ParsePoint} {ns ms : List NodeId} {m : Nat} {data : NodeData}
  {scope : Surround} {s : WalkState} {x y : Walk Unit}

/-- A walk over constructs tells of them, wherever they are laid out. -/
def Tells (input : ResolveInput) (r : Resolution) (x : Walk Unit) (ns : List NodeId) : Prop :=
  ∀ ⦃owner env a c s⦄, Laid input.ast a ns c → Sited input.ast a c ns env →
    At input r owner env s → x.Leads s fun _ s' => Told input env ns s s'

theorem tells_nil : Tells input r (pure ()) [] := fun _ _ _ _ s _ _ _ => .nil (.refl s.resolution)

theorem tells_append (hcovers : Covers input r x ns) (hx : Tells input r x ns)
    (hy : Tells input r y ms) : Tells input r (x >>= fun _ => y) (ns ++ ms) := by
  intro owner env a c s hlaid hsited hs
  obtain ⟨b, hns, hms⟩ := hlaid.split
  obtain ⟨hsited₁, hsited₂⟩ := hsited.split hns hms
  refine leads_bind.mpr (((hcovers hns hsited₁ hs).and (hx hns hsited₁ hs)).mono ?_)
  rintro _ s₁ ⟨hs₁, h₁⟩
  exact (hy hms hsited₂ hs₁.stands).mono fun _ s₂ h₂ => h₁.append h₂

theorem tells_mute (hx : Tells input r x ns) (hy : Mute y) :
    Tells input r (x >>= fun _ => y) ns := by
  intro owner env a c s hlaid hsited hs
  refine leads_bind.mpr ((hx hlaid hsited hs).mono fun _ s₁ h₁ => ?_)
  exact (hy.leads s₁).mono fun _ s₂ h₂ => h₁.after h₂

/-- Visitors tell of the constructs below some depth. -/
structure VisitorsTell (input : ResolveInput) (r : Resolution) (v : Visitors) (depth : Nat) : Prop
    extends VisitorsCover input r v depth where
  tellStatement : ∀ m : Nat, m < depth → input.ast.IsStmt m → Tells input r (v.statement m) [m]
  tellExpression : ∀ m : Nat, m < depth → input.ast.IsExpr m → Tells input r (v.expression m) [m]

theorem tells_visits {depth : Nat} (hv : VisitorsTell input r v depth) (hx : Visits input v x ns)
    (hlt : ∀ k : Nat, k ∈ ns → k < depth) : Tells input r x ns := by
  induction hx with
  | nil => exact tells_nil
  | expression hexpr => exact hv.tellExpression _ (hlt _ (List.mem_singleton_self _)) hexpr
  | statement hstmt => exact hv.tellStatement _ (hlt _ (List.mem_singleton_self _)) hstmt
  | append hx _ ih₁ ih₂ =>
    have hlt₁ : ∀ k : Nat, k ∈ _ → k < depth := fun k hk => hlt k (List.mem_append_left _ hk)
    exact tells_append (covers_visits hv.toVisitorsCover hx hlt₁) (ih₁ hlt₁)
      (ih₂ fun k hk => hlt k (List.mem_append_right _ hk))
  | numeric symbol operand _ ih => exact tells_mute (ih hlt) (mute_checkNumeric symbol)

/-! ### Nodes -/

/-- A construct that opens no scope and is no class. -/
theorem tells_node (hdata : input.ast.data? m = some data) (hopens : input.ast.opens? m = none)
    (hclass : ∀ decl, data ≠ .classDecl decl)
    (hvars : data.parts.flatMap input.ast.directVars = input.ast.directVars m)
    (hx : Tells input r x data.parts) : Tells input r (noteBlock m >>= fun _ => x) [m] := by
  intro owner env a c s hlaid hsited hs
  obtain ⟨b, d, hparts, hallots⟩ := laid_parts hlaid hdata hclass
  refine leads_bind.mpr (((mute_noteBlock m).along (leads_noteBlock m s)).mono ?_)
  rintro _ s₁ ⟨⟨hs₁, -⟩, h₁⟩
  refine (hx hparts (sited_parts hsited hallots hvars) (hs.kept hs₁ fun _ _ => by simp)).mono
    fun _ s₂ h₂ => ?_
  exact (h₂.part hdata hopens hclass hvars).before h₁

/-- A new object is bound to its class, or its class is unknown. -/
theorem tells_new {className : String} {own : Option String → Walk Unit} (hx : Tells input r x ns)
    (hsome : ∀ fullName, own (some fullName) = bindTo m (.toClass fullName) >>= fun _ => x)
    (hnone : own none =
      report s!"Unknown class '{className}'" (input.ast.span m) >>= fun _ => x) :
    Tells input r (resolveClass input className >>= own) ns := by
  intro owner env a c s hlaid hsited hs
  refine leads_bind.mpr (((mute_resolveClass className).along
    (leads_resolveClass hs className)).mono ?_)
  rintro found s₁ ⟨⟨hs₁, -⟩, h₁⟩
  have hstands₁ := hs.kept hs₁ fun _ _ => id
  cases found with
  | none =>
    have hmute : Mute (report s!"Unknown class '{className}'" (input.ast.span m)) :=
      fun _ => reports_report (not_isAgain_unknownClass className _)
    rw [hnone]
    refine leads_bind.mpr ((hmute.along
      (leads_report (by simp [toString, String.toList_append]) _ s₁)).mono ?_)
    rintro _ s₂ ⟨hs₂, h₂⟩
    have hx := hx hlaid hsited (hstands₁.kept hs₂ fun _ _ => id)
    exact hx.mono fun _ s₃ h₃ => (h₃.before h₂).before h₁
  | some fullName =>
    have hmute : Mute (bindTo m (.toClass fullName)) := fun _ => reports_bindTo _ _
    rw [hsome]
    refine leads_bind.mpr ((hmute.along (leads_bindTo m _ s₁)).mono ?_)
    rintro _ s₂ ⟨⟨hs₂, -⟩, h₂⟩
    have hx := hx hlaid hsited (hstands₁.kept hs₂ fun _ _ => by simp)
    exact hx.mono fun _ s₃ h₃ => (h₃.before h₂).before h₁

/-! ### Variables -/

/-- A variable is reported if its name is known in the scope at hand. -/
theorem tells_knowVar {decl : Nat} {var : VarDecl}
    (hdata : input.ast.data? m = some (.varDecl decl)) (hvar : input.ast.varDecl? decl = some var)
    (hs : At input r owner env s) : (knowVar input decl var).Leads s fun _ s' =>
      s.resolution.Tells (input.ast.varsAgain (headRepeats input.ast env [m])) s'.resolution := by
  have hvars := directVars_of_var hdata hvar
  unfold knowVar
  split
  · next hempty =>
    rw [headRepeats_eq_nil (by rw [List.flatMap_singleton, hvars, if_pos hempty])]
    exact .refl s.resolution
  · next hempty =>
    simp only [leads_bind, leads_get]
    cases env with
    | nil =>
      rw [show s.block = none from hs.block]
      exact .refl s.resolution
    | cons st outer =>
      have hrepeats : headRepeats input.ast (st :: outer) [m] = if st.walked.any fun k =>
          input.ast.varName? k == some var.name then [decl] else [] := by
        simp [headRepeats, hvars, hempty, repeats, Ast.varName?_eq hvar]
      rw [show s.block = some st.surround.block from hs.block, hrepeats]
      simp only [leads_bind, leads_scope?, hs.scopes.1, Ast.varDecl?_any,
        Standing.scope, any_keepNew]
      split
      · have hagain : input.ast.varsAgain [decl] = [var.again] := by simp [Ast.varsAgain, hvar]
        rw [hagain]
        exact tells_report _ _ s
      · exact .refl s.resolution

theorem tells_checkVar {decl : Nat} {var : VarDecl} (hlaid : Laid input.ast a [decl] c)
    (hdata : input.ast.data? decl = some (.varDeclExpr var))
    (hsited : ∀ ⦃b d⦄, Allots input.ast a b d decl (.varDeclExpr var) c →
      Sited input.ast b d var.init.toList env)
    (hinit : ∀ init ∈ var.init, Tells input r (v.expression init) [init])
    (hs : At input r owner env s) :
    (checkVar input v decl).Leads s fun _ s' => Told input env [decl] s s' := by
  obtain ⟨hopens, hown⟩ := opens?_of_varDeclExpr hdata
  have hclass : ∀ c, NodeData.varDeclExpr var ≠ .classDecl c := by simp
  obtain ⟨b, d, hparts, hallots⟩ := laid_parts hlaid hdata hclass
  have hpart {s s'} (h : Told input env var.init.toList s s') : Told input env [decl] s s' :=
    .part hdata hopens hclass ((directVars_init hallots).trans hown.symm) h
  have hparts : Laid input.ast b var.init.toList d := hparts
  have hsitedParts := hsited hallots
  unfold checkVar
  rw [Ast.varDecl?_of_expr hdata]
  refine leads_bind.mpr
    (((mute_checkType var.type _).along (leads_checkType hs var.type _)).mono ?_)
  rintro _ s₁ ⟨hs₁, h₁⟩
  have hstands₁ := hs.kept hs₁ fun _ _ => id
  cases hvalue : var.init with
  | none =>
    rw [hvalue] at hpart
    exact hpart (.nil h₁)
  | some init =>
    rw [hvalue] at hinit hparts hsitedParts hpart
    refine leads_bind.mpr ((hinit init rfl hparts hsitedParts hstands₁).mono fun _ s₂ h₂ => ?_)
    refine (Mute.leads (fun r => reports_get_bind fun s _ => ?_) s₂).mono
      fun _ s₃ h₃ => hpart ((h₂.before h₁).after h₃)
    -- what is left compares the types, and its message is none of the two
    split
    · exact reports_pure _
    · exact reports_ite (fun _ => reports_report (not_isAgain
        (by simp [toString, String.toList_append]) (by simp [toString, String.toList_append]) _))
        fun _ => reports_pure _

theorem tells_declareVar {decl : Nat} (hdata : input.ast.data? m = some (.varDecl decl))
    (hinit : ∀ var, input.ast.data? decl = some (.varDeclExpr var) → ∀ init ∈ var.init,
      Covers input r (v.expression init) [init] ∧ Tells input r (v.expression init) [init]) :
    Tells input r (noteBlock m >>= fun _ => declareVar input v decl) [m] := by
  intro owner env a c s hlaid hsited hs
  obtain ⟨var, hdecl⟩ : ∃ var, input.ast.data? decl = some (.varDeclExpr var) := by
    obtain ⟨_, _, _, _, -, -, hm, -⟩ := hlaid.of_data hdata
    exact hm.formed
  have hvar := Ast.varDecl?_of_expr hdecl
  have hown := (opens?_of_varDeclExpr hdecl).2
  have hlaidDecl := (hlaid.part hdata (k := decl) (by simp [NodeData.parts])).1
  have hsitedInit := fun b d h => sited_init (b := b) (d := d) hsited hdata hdecl h
  rw [declareVar_eq hvar]
  refine leads_bind.mpr (((mute_noteBlock m).along (leads_noteBlock m s)).mono ?_)
  rintro _ s₁ ⟨⟨hs₁, -⟩, h₁⟩
  have hstands₁ := hs.kept hs₁ fun _ _ => by simp
  refine leads_bind.mpr (((mute_noteBlock decl).along (leads_noteBlock decl s₁)).mono ?_)
  rintro _ s₂ ⟨⟨hs₂, hnoted⟩, h₂⟩
  have hstands₂ := hstands₁.kept hs₂ fun _ _ => by simp
  refine leads_bind.mpr (((leads_checkVar hlaidDecl hdecl hsited.above hsitedInit
    (fun init h => (hinit var hdecl init h).1) hstands₁ hs₂ fun _ => hnoted).and
    (tells_checkVar hlaidDecl hdecl hsitedInit (fun init h => (hinit var hdecl init h).2)
      hstands₂)).mono ?_)
  rintro _ s₃ ⟨hs₃, scopes, hopens, h₃⟩
  have hstands₃ := hs₃.stands
  rw [declare_eq_self (by rw [List.flatMap_singleton, hown])] at hstands₃
  refine (tells_knowVar hdata hvar hstands₃).mono fun _ s₄ h₄ => ?_
  have hscopes : input.ast.Opens [m] scopes :=
    .part hdata (by simp [Ast.opens?, hdata]) (by simp) hopens
  rw [headRepeats_eq_nil (by rw [List.flatMap_singleton, hown])] at h₃
  exact ⟨scopes, hscopes, (((h₁.before h₂).before h₃).trans h₄).perm List.perm_append_comm⟩

/-! ### Functions and blocks -/

theorem tells_declareFunction {held : BlockScope} {ds : List NodeId} {block stmt : Nat}
    (hlaid : Laid input.ast a [stmt] c) (hheld : s.resolution.blocks[block]? =
      some { held with funs := keepNew input.ast.funName? ds }) :
    (declareFunction input block stmt).Leads s fun _ s' => s.resolution.Tells
      (input.ast.funsAgain (repeats input.ast.funName? ds (input.ast.directFun? stmt).toList))
      s'.resolution := by
  cases hdirect : input.ast.directFun? stmt with
  | none =>
    rw [declareFunction_of_none hlaid hdirect]
    exact .refl s.resolution
  | some decl =>
    obtain ⟨f, hdecl, heq⟩ := declareFunction_of_some hlaid hdirect
    rw [heq, Option.toList_some, repeats, repeats, Ast.funName?_eq hdecl]
    unfold knowFunction
    simp only [leads_bind, leads_scope?, hheld, Ast.funDecl?_any, any_keepNew]
    split
    · have hagain : input.ast.funsAgain ([decl] ++ []) = [f.again] := by
        simp [Ast.funsAgain, hdecl]
      rw [hagain]
      exact tells_report _ _ s
    · exact .refl s.resolution

/-- The functions of a block are reported that are not the first of their names. -/
theorem tells_declareFunctions {held : BlockScope} {ds stmts : List NodeId} {block : Nat}
    (hlaid : Laid input.ast a stmts c) (hheld : s.resolution.blocks[block]? =
      some { held with funs := keepNew input.ast.funName? ds }) :
    (stmts.forM (declareFunction input block)).Leads s fun _ s' => s.resolution.Tells
      (input.ast.funsAgain
        (repeats input.ast.funName? ds (stmts.filterMap input.ast.directFun?))) s'.resolution := by
  induction stmts generalizing ds s with
  | nil => exact .refl s.resolution
  | cons stmt stmts ih =>
    have hstmt := hlaid.sublist (List.singleton_sublist.mpr (List.mem_cons_self ..))
    have hstmts := hlaid.sublist (List.sublist_cons_self stmt stmts)
    have hsplit : (stmt :: stmts).filterMap input.ast.directFun? =
        (input.ast.directFun? stmt).toList ++ stmts.filterMap input.ast.directFun? := by
      rw [List.filterMap_cons]
      cases input.ast.directFun? stmt <;> rfl
    refine leads_bind.mpr (((leads_declareFunction hstmt hheld).and
      (tells_declareFunction hstmt hheld)).mono ?_)
    rintro _ s₁ ⟨⟨-, hheld₁⟩, h₁⟩
    refine (ih hstmts hheld₁).mono fun _ s₂ h₂ => ?_
    rw [hsplit, repeats_append, Ast.funsAgain_append]
    exact h₁.trans h₂

/-- A block tells of its scope and of those in it. -/
theorem tells_walkBlock (hopens : input.ast.opens? m = some scope)
    (hcovers : Covers input r (scope.params.forM v.statement) scope.params)
    (hparams : Tells input r (scope.params.forM v.statement) scope.params)
    (hstmts : Tells input r (scope.stmts.forM v.statement) scope.stmts) :
    Tells input r (walkBlock input v scope.block scope.params) [m] := by
  intro owner env a c s hlaid hsited hs
  obtain ⟨b, d, ho⟩ := Ast.opened hlaid hopens
  unfold walkBlock
  rw [ho.stmts_eq]
  simp only [leads_bind, leads_get, leads_modify]
  refine ((mute_noteBlock _).along (leads_noteBlock _ s)).mono ?_
  rintro _ s₁ ⟨⟨hs₁, -⟩, h₁⟩
  have hstands₁ := hs.kept hs₁ fun _ _ => by simp
  refine ((mute_openScope _ _).along (leads_openScope _ _ s₁)).mono ?_
  rintro _ s₂ ⟨⟨hs₂, hblock₂, howner₂, hheld₂⟩, h₂⟩
  have hstands₂ := at_opening ho hsited hstands₁ hs₂ hblock₂ howner₂ hheld₂
  refine ((hcovers ho.params (ho.sited_params hsited) hstands₂).and
    (hparams ho.params (ho.sited_params hsited) hstands₂)).mono ?_
  rintro _ s₃ ⟨hs₃, inner, hinner, h₃⟩
  have hfuns : scope.stmts.filterMap input.ast.directFun? = scope.funs input.ast := by
    simp [Surround.funs, ho.inParams]
  have hheld₃ : s₃.resolution.blocks[scope.block]? =
      some { (scope.entered input.ast).scope input.ast (innermost (env.map Standing.surround)) owner
        with funs := keepNew input.ast.funName? [] } := hs₃.stands.scopes.1
  refine ((leads_entered ho hs₃.stands).and (tells_declareFunctions ho.stmts hheld₃)).mono ?_
  rintro _ s₄ ⟨⟨-, hstands₄⟩, h₄⟩
  refine (hstmts ho.stmts (ho.sited_stmts hsited) hstands₄).mono ?_
  rintro _ s₅ ⟨inner', hinner', h₅⟩
  refine ⟨scope :: (inner ++ inner'), .scope hopens hinner hinner', ?_⟩
  refine ((((h₁.before h₂).before h₃).trans h₄).trans h₅).perm ?_
  have hvars : repeats input.ast.varName? [] (scope.vars input.ast) =
      headRepeats input.ast (scope.opening :: env) scope.params ++
        headRepeats input.ast (scope.entered input.ast :: env) scope.stmts := by
    rw [Surround.vars, List.flatMap_append, repeats_append]
    rfl
  have hnone : input.ast.varsAgain (headRepeats input.ast env [m]) = [] := by
    rw [headRepeats_eq_nil (by rw [List.flatMap_singleton, ho.vars])]
    rfl
  rw [hnone, List.nil_append, List.flatMap_cons, List.flatMap_append, Surround.again, hvars,
    Ast.varsAgain_append, hfuns, List.perm_iff_count]
  intro e
  simp only [List.count_append]
  omega

theorem tells_block {depth : Nat} (hv : VisitorsTell input r v depth) (hm : m ≤ depth)
    (hopens : input.ast.opens? m = some scope) :
    Tells input r (walkBlock input v scope.block scope.params) [m] := by
  intro owner env a c s hlaid hsited hs
  obtain ⟨b, d, ho⟩ := Ast.opened hlaid hopens
  have hparams : Visits input v (scope.params.forM v.statement) scope.params :=
    .statements fun k hk => (ho.isVar k hk).isStmt
  have hlt (k : Nat) (hk : k ∈ scope.params) := ho.param_lt hm hk
  exact tells_walkBlock hopens (covers_visits hv.toVisitorsCover hparams hlt)
    (tells_visits hv hparams hlt) (tells_visits hv (.statements ho.isStmt) fun k hk =>
      ho.stmt_lt hm hk)
    hlaid hsited hs

theorem tells_walkFunction {depth : Nat} {f : FunDecl} (hv : VisitorsTell input r v depth)
    (hm : m ≤ depth) (hdata : input.ast.data? m = some (.funDeclExpr f)) :
    Tells input r (walkFunction input v m) [m] := by
  have hopens : input.ast.opens? m =
      some ⟨f.body, f.params, blockStatements input.ast f.body, false⟩ := by
    simp [Ast.opens?, hdata]
  intro owner env a c s hlaid hsited hs
  unfold walkFunction
  rw [Ast.funDecl?_of_expr hdata]
  refine leads_bind.mpr (((mute_noteBlock m).along (leads_noteBlock m s)).mono ?_)
  rintro _ s₁ ⟨⟨hs₁, -⟩, h₁⟩
  have hstands₁ := hs.kept hs₁ fun _ _ => by simp
  refine leads_bind.mpr (((mute_checkType f.returnType _).along
    (leads_checkType hstands₁ f.returnType _)).mono ?_)
  rintro _ s₂ ⟨hs₂, h₂⟩
  have hblock := tells_block hv hm hopens hlaid hsited (hstands₁.kept hs₂ fun _ _ => id)
  exact hblock.mono fun _ s₃ h₃ => (h₃.before h₂).before h₁

/-! ### Visitors -/

theorem tells_noted (hx : Tells input r x [m]) :
    Tells input r (noteBlock m >>= fun _ => x) [m] := by
  intro owner env a c s hlaid hsited hs
  refine leads_bind.mpr (((mute_noteBlock m).along (leads_noteBlock m s)).mono ?_)
  rintro _ s₁ ⟨⟨hs₁, -⟩, h₁⟩
  exact (hx hlaid hsited (hs.kept hs₁ fun _ _ => by simp)).mono fun _ s₂ h₂ => h₂.before h₁

/-- A node tells of its scopes, in whichever way it is walked. -/
theorem tells_shape {depth : Nat} (hv : VisitorsTell input r v depth) (hm : m ≤ depth)
    (hlaid : Laid input.ast a [m] c) (hdata : input.ast.data? m = some data)
    (h : WalkShape input v m data x) : Tells input r x [m] := by
  have hbelow : ∀ k : Nat, k ∈ data.parts → k < depth := fun k hk =>
    Nat.lt_of_lt_of_le (hlaid.part hdata hk).2 hm
  cases h with
  | parts _ hopens hclass hvars hx =>
    exact tells_node hdata hopens hclass hvars (tells_visits hv hx hbelow)
  | name hname hvars hx =>
    obtain ⟨hopens, hnone, hclass⟩ := shape_of_isName hname hdata
    exact tells_node hdata hopens hclass (hvars.trans hnone.symm)
      (tells_mute (tells_visits hv hx hbelow) (mute_bindName _))
  | new heq hvars hx hsome hnone =>
    subst heq
    have hown := Ast.directVars_eq_nil hdata (by simp) (by simp) (by simp)
    exact tells_node hdata (by simp [Ast.opens?, hdata]) (by simp) (hvars.trans hown.symm)
      (tells_new (tells_visits hv hx hbelow) hsome hnone)
  | block hopens => exact tells_noted (tells_block hv hm hopens)
  | @funDecl decl f heq hdecl =>
    subst heq
    have hown := Ast.directVars_eq_nil hdata (by simp) (by simp) (by simp)
    have hdeclVars := Ast.directVars_eq_nil hdecl (by simp) (by simp) (by simp)
    refine tells_node hdata (by simp [Ast.opens?, hdata]) (by simp) ?_
      (tells_walkFunction hv (Nat.le_of_lt (hbelow decl (by simp [NodeData.parts]))) hdecl)
    simpa [NodeData.parts, hown] using hdeclVars
  | @varDecl decl heq =>
    subst heq
    refine tells_declareVar hdata fun var hdecl init hinit => ?_
    obtain ⟨hlaidDecl, hlt⟩ := hlaid.part hdata (k := decl) (by simp [NodeData.parts])
    obtain ⟨_, _, _, _, -, -, hallots, -⟩ := hlaidDecl.of_data hdecl
    have hlt' := (hlaidDecl.part hdecl (k := init) (by simpa [NodeData.parts] using hinit)).2
    have hinitLt : init < depth := Nat.lt_of_lt_of_le (Nat.lt_trans hlt' hlt) hm
    have hexpr := hallots.formed init hinit
    exact ⟨hv.expression init hinitLt hexpr, hv.tellExpression init hinitLt hexpr⟩

/-- By induction on the depth. -/
theorem tells_visitors (depth : Nat) : VisitorsTell input r (visitors input depth) depth := by
  induction depth with
  | zero =>
    exact ⟨covers_visitors 0, fun m hm => absurd hm (Nat.not_lt_zero m),
      fun m hm => absurd hm (Nat.not_lt_zero m)⟩
  | succ depth ih =>
    refine ⟨covers_visitors (depth + 1), fun m hm hstmt owner env a c s hlaid hsited hs => ?_,
      fun m hm hexpr owner env a c s hlaid hsited hs => ?_⟩
    · obtain ⟨data, hdata, hstmt⟩ := hstmt
      obtain ⟨_, _, _, _, -, -, hallots, -⟩ := hlaid.of_data hdata
      exact tells_shape ih (Nat.le_of_lt_succ hm) hlaid hdata
        (shape_walkStatement hlaid hdata hallots.formed hstmt) hlaid hsited hs
    · obtain ⟨data, hdata, hexpr⟩ := hexpr
      obtain ⟨_, _, _, _, -, -, hallots, -⟩ := hlaid.of_data hdata
      exact tells_shape ih (Nat.le_of_lt_succ hm) hlaid hdata
        (shape_walkExpression hdata hallots.formed hexpr) hlaid hsited hs

end Walk

end ScriptAnalysis
