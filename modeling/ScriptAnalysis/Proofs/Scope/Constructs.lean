import ScriptAnalysis.Proofs.Scope.Blocks

/-!
# Walks over statements and expressions

Every construct is walked as its place tells, provided that its parts are.  The cases are the ways
in which a node is walked (`WalkShape`); the depth of the visitors bounds the constructs they may be
asked for.
-/

namespace ScriptAnalysis

namespace Walk

variable {input : ResolveInput} {r : Resolution} {v : Visitors} {owner : String}
  {env : List Standing} {a b c d : ParsePoint} {ns ms : List NodeId} {m n : Nat} {data : NodeData}
  {s s₁ s₂ s₃ : WalkState} {x y : Walk Unit}

/-! ### Nodes -/

/-- The scope at hand is noted for a node before its parts are walked. -/
theorem noted_here (hs : At input r owner env s)
    (hnoted : s₁.resolution.nodeBlock[m]? = s.block.or s.resolution.nodeBlock[m]?)
    (hsame : s₂.resolution.nodeBlock[m]? = s₁.resolution.nodeBlock[m]?)
    (hnone : s.resolution.nodeBlock[m]? = none) :
    s₂.resolution.nodeBlock[m]? = innermost (env.map Standing.surround) := by
  rw [hsame, hnoted, hnone, Option.or_none, hs.block]

theorem settled_of_not_use (hdata : input.ast.data? m = some data) (huse : isUse data = false)
    (hopens : input.ast.opens? m = none) (hclass : ∀ decl, data ≠ .classDecl decl)
    {around : List Surround} {r₁ r₂ : Resolution} (hsame : r₂.bindings[m]? = r₁.bindings[m]?)
    (hnoted : ¬ input.ast.IsFieldDecl r.classes m → r₁.nodeBlock[m]? = none →
      r₂.nodeBlock[m]? = innermost around) : Settled input r owner around m r₁ r₂ := by
  have hname : ∀ name, ¬ input.ast.IsName m name := by
    rintro name (hname | ⟨value, hname⟩)
    · cases Option.some.inj (hdata.symm.trans hname)
      cases huse
    · cases Option.some.inj (hdata.symm.trans hname)
      cases huse
  have hbinding : input.bindingAt r owner around m = none := by
    unfold ResolveInput.bindingAt
    rw [hdata]
    cases data <;> cases huse <;> rfl
  refine .of_opens_none hdata hopens hclass (fun hnone => ?_) hnoted
    fun name h => absurd h (hname name)
  rw [hsame, hnone, hbinding]

theorem laid_parts {ast : Ast} (hlaid : Laid ast a [m] c) (hdata : ast.data? m = some data)
    (hclass : ∀ decl, data ≠ .classDecl decl) :
    ∃ b d, Laid ast b data.parts d ∧ Allots ast a b d m data c := by
  obtain ⟨b, d, e, ns, hns, harranged, hm, he⟩ := hlaid.of_data hdata
  have hparts : ns = data.parts := by
    cases data with
    | classDecl decl => exact absurd rfl (hclass decl)
    | _ => exact harranged
  subst hparts
  exact ⟨b, d, hns, { hm with
    id_lt := Nat.lt_of_lt_of_le hm.id_lt he.ids
    text := Nat.le_trans hm.text he.text
    stop := fun hsolid => Nat.le_trans (hm.stop hsolid) he.text }⟩

/-- The parts of a construct stand in the same scopes as the construct. -/
theorem sited_parts (hsited : Sited input.ast a c [m] env) (hm : Allots input.ast a b d m data c)
    (hvars : data.parts.flatMap input.ast.directVars = input.ast.directVars m) :
    Sited input.ast b d data.parts env := by
  have hdc : d.Precedes c := ⟨Nat.le_trans hm.le_id (Nat.le_of_lt hm.id_lt), hm.text⟩
  refine (hsited.narrow hm.before hdc).congr ?_
  rw [List.flatMap_singleton, hvars]

/-- A construct that is bound to nothing and opens no scope is walked as its parts are. -/
theorem covers_node (hdata : input.ast.data? m = some data) (huse : isUse data = false)
    (hopens : input.ast.opens? m = none) (hclass : ∀ decl, data ≠ .classDecl decl)
    (hvars : ∀ ⦃a c⦄, Laid input.ast a [m] c →
      data.parts.flatMap input.ast.directVars = input.ast.directVars m)
    (hx : Covers input r x data.parts) :
    Covers input r (noteBlock m >>= fun _ => x) [m] := by
  intro owner env a c s hlaid hsited hs
  obtain ⟨b, d, hparts, hallots⟩ := laid_parts hlaid hdata hclass
  have hsitedParts := sited_parts hsited hallots (hvars hlaid)
  refine leads_bind.mpr ((leads_noteBlock m s).mono ?_)
  rintro _ s₁ ⟨hs₁, hnoted⟩
  refine (hx hparts hsitedParts (hs.kept hs₁ fun _ _ => by simp)).mono fun _ s₂ hs₂ => ?_
  have hdeclare : declare input.ast [m] env = declare input.ast data.parts env :=
    declare_congr (by rw [List.flatMap_singleton, hvars hlaid])
  have hsame : s₂.resolution.bindings[m]? = s₁.resolution.bindings[m]? :=
    hs₂.found.same_binding hparts hallots hopens hclass
  have hsameNoted : s₂.resolution.nodeBlock[m]? = s₁.resolution.nodeBlock[m]? :=
    hs₂.found.same_noted hparts hallots hopens hclass
  refine .node hlaid hsited.above hdata hopens hclass (hs₁.alters.mono ?_) hs₂ (.refl _ _) ?_ ?_
  · rintro f rfl
    exact .inl rfl
  · rw [hdeclare]
    exact hs₂.stands
  · exact settled_of_not_use hdata huse hopens hclass
      (hsame.trans (hs₁.same (f := .binding m) (by simp))) fun _ => noted_here hs hnoted hsameNoted

/-! ### Names -/

theorem shape_of_isName {name : String} (hname : input.ast.IsName m name)
    (hdata : input.ast.data? m = some data) : input.ast.opens? m = none ∧
      input.ast.directVars m = [] ∧ ∀ decl, data ≠ .classDecl decl := by
  unfold Ast.opens?
  rcases hname with h | ⟨value, h⟩
  · cases Option.some.inj (hdata.symm.trans h)
    rw [h]
    exact ⟨rfl, Ast.directVars_eq_nil h (by simp) (by simp) (by simp), by simp⟩
  · cases Option.some.inj (hdata.symm.trans h)
    rw [h]
    exact ⟨rfl, Ast.directVars_eq_nil h (by simp) (by simp) (by simp), by simp⟩

/-- A node that is bound to a name after its parts were walked. -/
theorem covers_name {name : String} (hname : input.ast.IsName m name)
    (hdata : input.ast.data? m = some data) (hvars : data.parts.flatMap input.ast.directVars = [])
    (hx : Covers input r x data.parts) :
    Covers input r (noteBlock m >>= fun _ => x >>= fun _ => bindName input m name) [m] := by
  obtain ⟨hopens, hnone, hclass⟩ := shape_of_isName hname hdata
  intro owner env a c s hlaid hsited hs
  obtain ⟨b, d, hparts, hallots⟩ := laid_parts hlaid hdata hclass
  have hsitedParts := sited_parts hsited hallots (hvars.trans hnone.symm)
  refine leads_bind.mpr ((leads_noteBlock m s).mono ?_)
  rintro _ s₁ ⟨hs₁, hnoted⟩
  have hstands₁ := hs.kept hs₁ fun _ _ => by simp
  refine leads_bind.mpr ((hx hparts hsitedParts hstands₁).mono fun _ s₂ hs₂ => ?_)
  have hstands₂ := hs₂.stands
  rw [declare_eq_self hvars] at hstands₂
  have hplaced := hsited.placed (by rw [List.flatMap_singleton, hnone])
  obtain ⟨hstart, hstop⟩ := hname.start_bounds hlaid
  refine (leads_bindName hstands₂ hplaced hstart hstop name).mono ?_
  rintro _ s₃ ⟨hs₃, houtcome⟩
  have hown : ∀ f, (f = .binding m ∨ f = .unknown name (input.ast.span m)) →
      input.ast.Concerns m f := by
    rintro f (rfl | rfl)
    · rfl
    · exact ⟨hname, rfl⟩
  have hstands₃ : At input r owner (declare input.ast [m] env) s₃ := by
    rw [declare_eq_self (by rw [List.flatMap_singleton, hnone])]
    exact hstands₂.kept hs₃ fun _ _ => by simp
  refine .node hlaid hsited.above hdata hopens hclass (hs₁.alters.mono ?_) hs₂
    (hs₃.alters.mono fun f hf => .inl (hown f hf)) hstands₃ ?_
  · rintro f rfl
    exact .inl rfl
  · rw [← input.bindingAt_of_isName hname] at houtcome
    refine .of_opens_none hdata hopens hclass (fun hunbound => houtcome.bound ?_)
      (fun _ => noted_here hs hnoted ?_) fun name' hname' => ?_
    · have h₁ : s₁.resolution.bindings[m]? = s.resolution.bindings[m]? :=
        hs₁.same (f := .binding m) (by simp)
      have h₂ : s₂.resolution.bindings[m]? = s₁.resolution.bindings[m]? :=
        hs₂.found.same_binding hparts hallots hopens hclass
      rw [h₂, h₁, hunbound]
    · have h₃ : s₃.resolution.nodeBlock[m]? = s₂.resolution.nodeBlock[m]? :=
        hs₃.same (f := .noted m) (by simp)
      exact h₃.trans (hs₂.found.same_noted hparts hallots hopens hclass)
    · obtain rfl : name' = name := by
        rcases hname with h | ⟨value, h⟩ <;> rcases hname' with h' | ⟨value', h'⟩ <;>
          cases h.symm.trans h' <;> rfl
      have h₁ : s₁.resolution.unknowns name' (input.ast.span m) =
          s.resolution.unknowns name' (input.ast.span m) :=
        hs₁.same (f := .unknown name' _) (by simp)
      have h₂ : s₂.resolution.unknowns name' (input.ast.span m) =
          s₁.resolution.unknowns name' (input.ast.span m) :=
        hs₂.found.same_own (f := .unknown name' _) hparts hallots hopens hclass ⟨hname', rfl⟩
      rw [houtcome.reported, h₂, h₁]

/-- A new object is bound to its class before its arguments are walked. -/
theorem covers_new {className : String} {args : List NodeId} {own : Option String → Walk Unit}
    (hdata : input.ast.data? m = some (.invokeNew className args))
    (hvars : args.flatMap input.ast.directVars = []) (hx : Covers input r x args)
    (hsome : ∀ fullName, own (some fullName) = bindTo m (.toClass fullName) >>= fun _ => x)
    (hnone : own none =
      report s!"Unknown class '{className}'" (input.ast.span m) >>= fun _ => x) :
    Covers input r (noteBlock m >>= fun _ => resolveClass input className >>= own) [m] := by
  have hopens : input.ast.opens? m = none := by
    unfold Ast.opens?
    rw [hdata]
  have hown : input.ast.directVars m = [] :=
    Ast.directVars_eq_nil hdata (by simp) (by simp) (by simp)
  have hname : ∀ name, ¬ input.ast.IsName m name := by
    rintro name (h | ⟨value, h⟩)
    · cases hdata.symm.trans h
    · cases hdata.symm.trans h
  have hclass : ∀ decl, NodeData.invokeNew className args ≠ .classDecl decl := by simp
  intro owner env a c s hlaid hsited hs
  obtain ⟨b, d, hparts, hallots⟩ := laid_parts hlaid hdata hclass
  have hsitedParts := sited_parts hsited hallots (hvars.trans hown.symm)
  refine leads_bind.mpr ((leads_noteBlock m s).mono ?_)
  rintro _ s₁ ⟨hs₁, hnoted⟩
  have hstands₁ := hs.kept hs₁ fun _ _ => by simp
  refine leads_bind.mpr ((leads_resolveClass hstands₁ className).mono ?_)
  rintro found s₂ ⟨hs₂, hfound⟩
  have hstands₂ := hstands₁.kept hs₂ fun _ _ => id
  have hbound₂ : s.resolution.bindings[m]? = none → s₂.resolution.bindings[m]? = none := by
    intro hunbound
    have h₁ : s₁.resolution.bindings[m]? = s.resolution.bindings[m]? :=
      hs₁.same (f := .binding m) (by simp)
    have h₂ : s₂.resolution.bindings[m]? = s₁.resolution.bindings[m]? :=
      hs₂.same (f := .binding m) id
    rw [h₂, h₁, hunbound]
  have hrest : ∀ {s₃ : WalkState}, s₂.Changes (· = .binding m) s₃ →
      (s.resolution.bindings[m]? = none →
        s₃.resolution.bindings[m]? = found.map Binding.toClass) →
      x.Leads s₃ fun _ s₄ => Walked input r owner env [m] s s₄ := by
    intro s₃ hs₃ hbound
    have hstands₃ := hstands₂.kept hs₃ fun _ _ => by simp
    refine (hx hparts hsitedParts hstands₃).mono fun _ s₄ hs₄ => ?_
    have hstands₄ := hs₄.stands
    rw [declare_eq_self hvars] at hstands₄
    have hsame : s₄.resolution.bindings[m]? = s₃.resolution.bindings[m]? :=
      hs₄.found.same_binding hparts hallots hopens hclass
    have halters : s.resolution.Alters (input.ast.Concerns m) s₃.resolution := by
      refine (hs₁.alters.mono ?_).trans ((hs₂.quiet _).alters.trans (hs₃.alters.mono ?_))
      · rintro f rfl
        exact .inl rfl
      · rintro f rfl
        rfl
    have hsameNoted : s₄.resolution.nodeBlock[m]? = s₁.resolution.nodeBlock[m]? := by
      have h₂ : s₂.resolution.nodeBlock[m]? = s₁.resolution.nodeBlock[m]? :=
        hs₂.same (f := .noted m) id
      have h₃ : s₃.resolution.nodeBlock[m]? = s₂.resolution.nodeBlock[m]? :=
        hs₃.same (f := .noted m) (by simp)
      rw [hs₄.found.same_noted hparts hallots hopens hclass, h₃, h₂]
    refine .node hlaid hsited.above hdata hopens hclass halters hs₄ (.refl _ _) ?_ ?_
    · rw [declare_eq_self (by rw [List.flatMap_singleton, hown])]
      exact hstands₄
    · refine .of_opens_none hdata hopens hclass (fun hunbound => ?_)
        (fun _ => noted_here hs hnoted hsameNoted) fun name h => absurd h (hname name)
      unfold ResolveInput.bindingAt
      rw [hsame, hbound hunbound, hfound, hdata, Option.map_map]
      rfl
  cases found with
  | none =>
    rw [hnone]
    refine leads_bind.mpr ((leads_report (by simp [toString, String.toList_append]) _ s₂).mono
      fun _ s₃ hs₃ => hrest (hs₃.quiet _) fun hunbound => ?_)
    have hsame : s₃.resolution.bindings[m]? = s₂.resolution.bindings[m]? :=
      hs₃.same (f := .binding m) id
    rw [hsame, hbound₂ hunbound]
    rfl
  | some fullName =>
    rw [hsome]
    refine leads_bind.mpr ((leads_bindTo m _ s₂).mono ?_)
    rintro _ s₃ ⟨hs₃, hbound⟩
    exact hrest hs₃ fun _ => hbound

/-! ### Declarations -/

theorem opens?_of_varDeclExpr {ast : Ast} {decl : Nat} {var : VarDecl}
    (hdata : ast.data? decl = some (.varDeclExpr var)) :
    ast.opens? decl = none ∧ ast.directVars decl = [] := by
  refine ⟨?_, Ast.directVars_eq_nil hdata (by simp) (by simp) (by simp)⟩
  unfold Ast.opens?
  rw [hdata]

/-- The initial value of a variable declares nothing in the scopes around. -/
theorem directVars_init {decl : Nat} {var : VarDecl}
    (hm : Allots input.ast a b d decl (.varDeclExpr var) c) :
    var.init.toList.flatMap input.ast.directVars = [] :=
  flatMap_directVars_eq_nil fun init h => hm.formed init (Option.mem_toList.mp h)

/-- The initial value of a variable is walked before the variable is known. -/
theorem leads_checkVar {decl : Nat} {var : VarDecl} (hlaid : Laid input.ast a [decl] c)
    (hdata : input.ast.data? decl = some (.varDeclExpr var))
    (habove : ∀ st ∈ env, c.ids ≤ st.surround.block)
    (hsited : ∀ ⦃b d⦄, Allots input.ast a b d decl (.varDeclExpr var) c →
      Sited input.ast b d var.init.toList env)
    (hinit : ∀ init ∈ var.init, Covers input r (v.expression init) [init])
    (hs : At input r owner env s) (h₁ : s.Changes (· = .noted decl) s₁)
    (hnoted : ¬ input.ast.IsFieldDecl r.classes decl →
      s₁.resolution.nodeBlock[decl]? = s.block.or s.resolution.nodeBlock[decl]?) :
    (checkVar input v decl).Leads s₁ fun _ s' => Walked input r owner env [decl] s s' := by
  obtain ⟨hopens, hown⟩ := opens?_of_varDeclExpr hdata
  have hclass : ∀ c, NodeData.varDeclExpr var ≠ .classDecl c := by simp
  obtain ⟨b, d, hparts, hallots⟩ := laid_parts hlaid hdata hclass
  have hnone := directVars_init hallots
  have hrest : ∀ {s₂}, Walked input r owner env var.init.toList s₁ s₂ →
      Walked input r owner env [decl] s s₂ := by
    intro s₂ hs₂
    have hstands := hs₂.stands
    rw [declare_eq_self hnone] at hstands
    have hsame : s₂.resolution.bindings[decl]? = s₁.resolution.bindings[decl]? :=
      hs₂.found.same_binding hparts hallots hopens hclass
    have hsameNoted : s₂.resolution.nodeBlock[decl]? = s₁.resolution.nodeBlock[decl]? :=
      hs₂.found.same_noted hparts hallots hopens hclass
    refine .node hlaid habove hdata hopens hclass (h₁.alters.mono ?_) hs₂ (.refl _ _) ?_ ?_
    · rintro f rfl
      exact .inl rfl
    · rw [declare_eq_self (by rw [List.flatMap_singleton, hown])]
      exact hstands
    · exact settled_of_not_use hdata rfl hopens hclass
        (hsame.trans (h₁.same (f := .binding decl) (by simp)))
        fun hfield => noted_here hs (hnoted hfield) hsameNoted
  have hparts : Laid input.ast b var.init.toList d := hparts
  have hsitedParts := hsited hallots
  have hstands₁ := hs.kept h₁ fun _ _ => by simp
  unfold checkVar
  rw [Ast.varDecl?_of_expr hdata]
  simp only [leads_bind]
  refine (leads_checkType hstands₁ var.type _).mono fun _ s₂ hs₂ => ?_
  have hstands₂ := hstands₁.kept hs₂ fun _ _ => id
  cases hvalue : var.init with
  | none =>
    rw [hvalue] at hrest
    exact hrest (.quiet_before hs₂ (.nil hstands₂))
  | some init =>
    rw [hvalue] at hinit hparts hsitedParts hrest
    simp only [leads_bind, leads_get]
    refine (hinit init rfl hparts hsitedParts hstands₂).mono fun _ s₃ hs₃ => ?_
    have hs₃ := Walked.quiet_before hs₂ hs₃
    split
    · exact hrest hs₃
    · split
      · exact (leads_report (by simp [toString, String.toList_append]) _ s₃).mono
          fun _ s₄ hs₄ => hrest (hs₃.quiet_after hs₄)
      · exact hrest hs₃

/-- A variable is not known yet where its initial value stands. -/
theorem sited_init {decl : Nat} {var : VarDecl} (hsited : Sited input.ast a c [m] env)
    (hdata : input.ast.data? m = some (.varDecl decl))
    (hdecl : input.ast.data? decl = some (.varDeclExpr var))
    (hallots : Allots input.ast a b d decl (.varDeclExpr var) c) :
    Sited input.ast b d var.init.toList env := by
  have hdc : d.Precedes c :=
    ⟨Nat.le_trans hallots.le_id (Nat.le_of_lt hallots.id_lt), hallots.text⟩
  have hnarrow := hsited.narrow hallots.before hdc
  have hnone := directVars_init hallots
  have hvars := Ast.directVars_of_varDecl hdata
  refine ⟨fun st hst => ?_, hnarrow.outer, hnarrow.above⟩
  obtain ⟨rest, heq, hwalked, hrest⟩ := hnarrow.head st hst
  rw [List.flatMap_singleton, hvars] at heq
  rw [hnone]
  split at heq
  · next hnamed =>
    refine ⟨decl :: rest, by simpa using heq, hwalked, fun k hk => ?_⟩
    rcases List.mem_cons.mp hk with rfl | hk
    · exact hallots.parts (Ast.solid_of_isNamed hdecl hnamed)
    · exact hrest k hk
  · exact ⟨rest, heq, hwalked, hrest⟩

/-- The facts about the scope at hand. -/
def AtHead (env : List Standing) (f : Fact) : Prop :=
  ∃ block, innermost (env.map Standing.surround) = some block ∧ f = .scope block

/-- A variable that was walked becomes known in the scope at hand unless one of its name is. -/
theorem leads_knowVar {decl : Nat} {var : VarDecl}
    (hdata : input.ast.data? m = some (.varDecl decl)) (hvar : input.ast.varDecl? decl = some var)
    (hs : At input r owner env s) : (knowVar input decl var).Leads s fun _ s' =>
      At input r owner (declare input.ast [m] env) s' ∧ s.Changes (AtHead env) s' := by
  have hvars := directVars_of_var hdata hvar
  unfold knowVar
  split
  · next hempty =>
    rw [declare_eq_self (by rw [List.flatMap_singleton, hvars, if_pos hempty])]
    exact ⟨hs, .refl _ s⟩
  · next hempty =>
    simp only [leads_bind, leads_get]
    cases env with
    | nil =>
      rw [show s.block = none from hs.block]
      exact ⟨hs, .refl _ s⟩
    | cons st outer =>
      have hheld := hs.scopes.1
      have hdeclare : declare input.ast [m] (st :: outer) =
          { st with walked := st.walked ++ [decl] } :: outer := by
        simp [declare, hvars, hempty]
      rw [show s.block = some st.surround.block from hs.block, hdeclare]
      simp only [leads_bind, leads_scope?, hheld, Ast.varDecl?_any]
      have hkeep := keepNew_concat input.ast.varName? st.walked decl
      rw [Ast.varName?_eq hvar] at hkeep
      split
      · next hknown =>
        refine (leads_report (by simp [toString, String.toList_append]) _ s).mono
          fun _ s₁ hs₁ => ⟨hs.reheld (hs₁.quiet _) rfl ?_, hs₁.quiet _⟩
        have hsame : s₁.resolution.blocks[st.surround.block]? =
            s.resolution.blocks[st.surround.block]? := hs₁.same (f := .scope _) id
        rw [hsame, hheld]
        unfold Standing.scope at hknown ⊢
        rw [hkeep, if_pos hknown]
      · next hnew =>
        refine (leads_modifyScope hheld _).mono ?_
        rintro _ s₁ ⟨hs₁, hheld₁⟩
        refine ⟨hs.reheld hs₁ rfl ?_, hs₁.mono fun f hf => ⟨_, rfl, hf⟩⟩
        rw [hheld₁]
        unfold Standing.scope at hnew ⊢
        rw [hkeep, if_neg hnew]

/-- A variable is known behind its declaration. -/
theorem covers_declareVar {decl : Nat} (hdata : input.ast.data? m = some (.varDecl decl))
    (hinit : ∀ var, input.ast.data? decl = some (.varDeclExpr var) → ∀ init ∈ var.init,
      Covers input r (v.expression init) [init]) :
    Covers input r (noteBlock m >>= fun _ => declareVar input v decl) [m] := by
  intro owner env a c s hlaid hsited hs
  have hopens : input.ast.opens? m = none := by
    unfold Ast.opens?
    rw [hdata]
  obtain ⟨var, hdecl⟩ : ∃ var, input.ast.data? decl = some (.varDeclExpr var) := by
    obtain ⟨_, _, _, _, -, -, hm, -⟩ := hlaid.of_data hdata
    exact hm.formed
  have hvar := Ast.varDecl?_of_expr hdecl
  have hclass : ∀ c, NodeData.varDecl decl ≠ .classDecl c := by simp
  obtain ⟨b, d, hparts, hallots⟩ := laid_parts hlaid hdata hclass
  have hlaidDecl := (hlaid.part hdata (k := decl) (by simp [NodeData.parts])).1
  refine leads_bind.mpr ((leads_noteBlock m s).mono ?_)
  rintro _ s₁ ⟨hs₁, hnoted⟩
  have hstands₁ := hs.kept hs₁ fun _ _ => by simp
  rw [declareVar_eq hvar]
  refine leads_bind.mpr ((leads_noteBlock decl s₁).mono ?_)
  rintro _ s₂ ⟨hs₂, hnotedDecl⟩
  refine leads_bind.mpr ((leads_checkVar hlaidDecl hdecl hsited.above
    (fun b d h => sited_init hsited hdata hdecl h) (hinit var hdecl) hstands₁ hs₂
    fun _ => hnotedDecl).mono fun _ s₃ hs₃ => ?_)
  have hstands₃ := hs₃.stands
  rw [declare_eq_self
    (by rw [List.flatMap_singleton, (opens?_of_varDeclExpr hdecl).2])] at hstands₃
  refine (leads_knowVar hdata hvar hstands₃).mono ?_
  rintro _ s₄ ⟨hstands₄, hs₄⟩
  have hsame : s₃.resolution.bindings[m]? = s₁.resolution.bindings[m]? :=
    hs₃.found.same_binding hparts hallots hopens hclass
  have hsameNoted : s₄.resolution.nodeBlock[m]? = s₁.resolution.nodeBlock[m]? := by
    have h₃ : s₃.resolution.nodeBlock[m]? = s₁.resolution.nodeBlock[m]? :=
      hs₃.found.same_noted hparts hallots hopens hclass
    have h₄ : s₄.resolution.nodeBlock[m]? = s₃.resolution.nodeBlock[m]? := by
      refine hs₄.same (f := .noted m) ?_
      rintro ⟨block, -, heq⟩
      cases heq
    rw [h₄, h₃]
  refine .node hlaid hsited.above hdata hopens hclass (hs₁.alters.mono ?_) hs₃
    (hs₄.alters.mono fun f hf => .inr hf) hstands₄ ?_
  · rintro f rfl
    exact .inl rfl
  · refine settled_of_not_use hdata rfl hopens hclass ?_ fun _ => noted_here hs hnoted hsameNoted
    have h₁ : s₁.resolution.bindings[m]? = s.resolution.bindings[m]? :=
      hs₁.same (f := .binding m) (by simp)
    have h₄ : s₄.resolution.bindings[m]? = s₃.resolution.bindings[m]? := by
      refine hs₄.same (f := .binding m) ?_
      rintro ⟨block, -, heq⟩
      cases heq
    rw [h₄, hsame, h₁]

/-! ### Visitors -/

/-- Visitors walk the constructs below some depth as their places tell. -/
structure VisitorsCover (input : ResolveInput) (r : Resolution) (v : Visitors) (depth : Nat) :
    Prop where
  statement : ∀ m : Nat, m < depth → input.ast.IsStmt m → Covers input r (v.statement m) [m]
  expression : ∀ m : Nat, m < depth → input.ast.IsExpr m → Covers input r (v.expression m) [m]

section

variable {depth : Nat}

/-- Constructs that are visited one after the other. -/
theorem covers_visits (hv : VisitorsCover input r v depth) (hx : Visits input v x ns)
    (hlt : ∀ k : Nat, k ∈ ns → k < depth) : Covers input r x ns := by
  induction hx with
  | nil => exact covers_nil
  | expression hexpr => exact hv.expression _ (hlt _ (List.mem_singleton_self _)) hexpr
  | statement hstmt => exact hv.statement _ (hlt _ (List.mem_singleton_self _)) hstmt
  | append _ _ ih₁ ih₂ =>
    exact covers_append (ih₁ fun k hk => hlt k (List.mem_append_left _ hk))
      (ih₂ fun k hk => hlt k (List.mem_append_right _ hk))
  | numeric symbol operand _ ih => exact covers_quiet (ih hlt) (leads_checkNumeric symbol operand)

/-- A construct that opens a scope is walked as its parameters and statements are. -/
theorem leads_block {scope : Surround} (hv : VisitorsCover input r v depth) (hm : m ≤ depth)
    (hlaid : Laid input.ast a [m] c) (hopens : input.ast.opens? m = some scope)
    (hsited : Sited input.ast a c [m] env) (hs : At input r owner env s)
    (h₁ : s.Changes (· = .noted m) s₁)
    (hnoted : s₁.resolution.nodeBlock[m]? = s.block.or s.resolution.nodeBlock[m]?) :
    (walkBlock input v scope.block scope.params).Leads s₁ fun _ s' =>
      Walked input r owner env [m] s s' := by
  obtain ⟨b, d, ho⟩ := Ast.opened hlaid hopens
  have hparams : Covers input r (scope.params.forM v.statement) scope.params :=
    covers_visits hv (.statements fun k hk => (ho.isVar k hk).isStmt) fun k hk => ho.param_lt hm hk
  have hstmts : Covers input r (scope.stmts.forM v.statement) scope.stmts :=
    covers_visits hv (.statements ho.isStmt) fun k hk => ho.stmt_lt hm hk
  exact leads_walkBlock hlaid hopens hsited hparams hstmts hs h₁ hnoted

theorem covers_block {scope : Surround} (hv : VisitorsCover input r v depth) (hm : m ≤ depth)
    (hopens : input.ast.opens? m = some scope) :
    Covers input r (noteBlock m >>= fun _ => walkBlock input v scope.block scope.params) [m] := by
  intro owner env a c s hlaid hsited hs
  refine leads_bind.mpr ((leads_noteBlock m s).mono ?_)
  rintro _ s₁ ⟨hs₁, hnoted⟩
  exact leads_block hv hm hlaid hopens hsited hs hs₁ hnoted

theorem covers_walkFunction {f : FunDecl} (hv : VisitorsCover input r v depth) (hm : m ≤ depth)
    (hdata : input.ast.data? m = some (.funDeclExpr f)) :
    Covers input r (walkFunction input v m) [m] := by
  have hopens : input.ast.opens? m =
      some ⟨f.body, f.params, blockStatements input.ast f.body, false⟩ := by
    simp [Ast.opens?, hdata]
  intro owner env a c s hlaid hsited hs
  unfold walkFunction
  rw [Ast.funDecl?_of_expr hdata]
  refine leads_bind.mpr ((leads_noteBlock m s).mono ?_)
  rintro _ s₁ ⟨hs₁, hnoted⟩
  have hstands₁ := hs.kept hs₁ fun _ _ => by simp
  refine leads_bind.mpr ((leads_checkType hstands₁ f.returnType _).mono fun _ s₂ hs₂ => ?_)
  have hsame : s₂.resolution.nodeBlock[m]? = s₁.resolution.nodeBlock[m]? :=
    hs₂.same (f := .noted m) id
  have hblock := leads_block hv hm hlaid hopens hsited hs (hs₁.trans (hs₂.quiet _))
    (hsame.trans hnoted)
  exact hblock

/-- A node is walked as its place tells, in whichever way. -/
theorem covers_shape (hv : VisitorsCover input r v depth) (hm : m ≤ depth)
    (hlaid : Laid input.ast a [m] c) (hdata : input.ast.data? m = some data)
    (h : WalkShape input v m data x) : Covers input r x [m] := by
  have hbelow : ∀ k : Nat, k ∈ data.parts → k < depth := fun k hk =>
    Nat.lt_of_lt_of_le (hlaid.part hdata hk).2 hm
  cases h with
  | parts huse hopens hclass hvars hx =>
    exact covers_node hdata huse hopens hclass (fun _ _ _ => hvars) (covers_visits hv hx hbelow)
  | name hname hvars hx => exact covers_name hname hdata hvars (covers_visits hv hx hbelow)
  | new heq hvars hx hsome hnone =>
    subst heq
    exact covers_new hdata hvars (covers_visits hv hx hbelow) hsome hnone
  | block hopens => exact covers_block hv hm hopens
  | @funDecl decl f heq hdecl =>
    subst heq
    have hdeclVars : input.ast.directVars decl = [] :=
      Ast.directVars_eq_nil hdecl (by simp) (by simp) (by simp)
    refine covers_node hdata rfl (by simp [Ast.opens?, hdata]) (by simp) (fun _ _ _ => ?_)
      (covers_walkFunction hv (Nat.le_of_lt (hbelow decl (by simp [NodeData.parts]))) hdecl)
    rw [Ast.directVars_eq_nil hdata (by simp) (by simp) (by simp)]
    simpa [NodeData.parts] using hdeclVars
  | @varDecl decl heq =>
    subst heq
    refine covers_declareVar hdata fun var hdecl init hinit => ?_
    obtain ⟨hlaidDecl, hlt⟩ := hlaid.part hdata (k := decl) (by simp [NodeData.parts])
    obtain ⟨_, _, _, _, -, -, hallots, -⟩ := hlaidDecl.of_data hdecl
    have hlt' := (hlaidDecl.part hdecl (k := init) (by simpa [NodeData.parts] using hinit)).2
    exact hv.expression init (Nat.lt_of_lt_of_le (Nat.lt_trans hlt' hlt) hm)
      (hallots.formed init hinit)

theorem covers_walkExpression (hv : VisitorsCover input r v depth) (hm : m ≤ depth)
    (hexpr : input.ast.IsExpr m) : Covers input r (walkExpression input v m) [m] := by
  intro owner env a c s hlaid hsited hs
  obtain ⟨data, hdata, hexpr⟩ := hexpr
  obtain ⟨_, _, _, _, -, -, hallots, -⟩ := hlaid.of_data hdata
  exact covers_shape hv hm hlaid hdata (shape_walkExpression hdata hallots.formed hexpr) hlaid
    hsited hs

theorem covers_walkStatement (hv : VisitorsCover input r v depth) (hm : m ≤ depth)
    (hstmt : input.ast.IsStmt m) : Covers input r (walkStatement input v m) [m] := by
  intro owner env a c s hlaid hsited hs
  obtain ⟨data, hdata, hstmt⟩ := hstmt
  obtain ⟨_, _, _, _, -, -, hallots, -⟩ := hlaid.of_data hdata
  exact covers_shape hv hm hlaid hdata (shape_walkStatement hlaid hdata hallots.formed hstmt) hlaid
    hsited hs

theorem covers_visitors (depth : Nat) :
    VisitorsCover input r (visitors input depth) depth := by
  induction depth with
  | zero =>
    exact ⟨fun m hm => absurd hm (Nat.not_lt_zero m), fun m hm => absurd hm (Nat.not_lt_zero m)⟩
  | succ depth ih =>
    exact ⟨fun m hm => covers_walkStatement ih (Nat.le_of_lt_succ hm),
      fun m hm => covers_walkExpression ih (Nat.le_of_lt_succ hm)⟩

end

end Walk

end ScriptAnalysis
