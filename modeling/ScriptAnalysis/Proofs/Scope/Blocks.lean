import ScriptAnalysis.Proofs.Scope.Shapes
import ScriptAnalysis.Proofs.Scope.Walked

/-!
# Walks over blocks

A block opens a scope.  The parameters in front of it are walked before its functions are known, its
statements after that, and when the walk leaves it, the scope holds all that was declared in it.
-/

namespace ScriptAnalysis

/-! ### Standing in a block -/

/-- The scope of a block while its parameters are walked. -/
def Surround.opening (scope : Surround) : Standing := ⟨{ scope with inParams := true }, []⟩

/-- The scope of a block when its statements are about to be walked. -/
def Surround.entered (ast : Ast) (scope : Surround) : Standing :=
  ⟨scope, scope.params.flatMap ast.directVars⟩

/-- The scope of a block that was walked. -/
def Surround.left (ast : Ast) (scope : Surround) : Standing := ⟨scope, scope.vars ast⟩

namespace Opened

variable {ast : Ast} {a b c d : ParsePoint} {m : Nat} {scope : Surround} {env : List Standing}
  {f : Fact}

theorem sited_params (h : Opened ast a c m scope b d) (henv : Sited ast a c [m] env) :
    Sited ast a b scope.params (scope.opening :: env) := by
  have hbd := h.stmts.precedes
  have hbc := hbd.trans h.precedes
  refine ⟨?_, fun st hst => ?_, ?_⟩
  · rintro st hst
    obtain rfl := Option.some.inj hst
    refine ⟨scope.stmts.flatMap ast.directVars, ?_, by simp [Surround.opening], fun k hk => ?_⟩
    · simp [Surround.opening, Surround.vars]
    · exact (h.stmts.directVars_bounds hk).1
  · have hplaced := henv.placed (by rw [List.flatMap_singleton, h.vars]) st hst
    exact hplaced.narrow (.refl a) hbc
  · rintro st hst
    rcases List.mem_cons.mp hst with rfl | hst
    · exact Nat.le_trans hbd.ids h.le_block
    · exact Nat.le_trans hbc.ids (henv.above st hst)

theorem sited_stmts (h : Opened ast a c m scope b d) (henv : Sited ast a c [m] env) :
    Sited ast b d scope.stmts (scope.entered ast :: env) := by
  refine ⟨?_, fun st hst => ?_, ?_⟩
  · rintro st hst
    obtain rfl := Option.some.inj hst
    refine ⟨[], by simp [Surround.entered, Surround.vars], fun k hk => ?_, by simp⟩
    exact (h.params.directVars_bounds hk).2
  · have hplaced := henv.placed (by rw [List.flatMap_singleton, h.vars]) st hst
    exact hplaced.narrow h.params.precedes h.precedes
  · rintro st hst
    rcases List.mem_cons.mp hst with rfl | hst
    · exact h.le_block
    · exact Nat.le_trans h.precedes.ids (henv.above st hst)

/-- The parameters and the statements are below the node. -/
theorem param_lt (h : Opened ast a c m scope b d) {depth k : Nat} (hm : m ≤ depth)
    (hk : k ∈ scope.params) : k < depth := by
  have hlt := (h.params.mem_lt hk).2
  have hbd := h.stmts.precedes.ids
  have hle := Nat.le_trans h.le_block h.block_le
  omega

theorem stmt_lt (h : Opened ast a c m scope b d) {depth k : Nat} (hm : m ≤ depth)
    (hk : k ∈ scope.stmts) : k < depth := by
  have hlt := (h.stmts.mem_lt hk).2
  have hle := Nat.le_trans h.le_block h.block_le
  omega

/-- What a node that opens a scope concerns itself is about nothing in that scope. -/
theorem not_within (h : Opened ast a c m scope b d) (hopens : ast.opens? m = some scope)
    (hf : ast.Concerns m f) : ¬ f.Within a d := by
  have hle := h.le_block
  have hm := h.block_le
  intro hwithin
  cases f with
  | binding n =>
    obtain rfl : n = m := hf
    exact absurd hwithin.2 (Nat.not_lt_of_le (Nat.le_trans hle hm))
  | noted n =>
    rcases hf with rfl | ⟨scope', hscope, rfl⟩
    · exact absurd hwithin.2 (Nat.not_lt_of_le (Nat.le_trans hle hm))
    · cases hopens.symm.trans hscope
      exact absurd hwithin.2 (Nat.not_lt_of_le hle)
  | scope block =>
    rcases hf with ⟨scope', hscope, rfl⟩ | ⟨decl, -, rfl⟩
    · cases hopens.symm.trans hscope
      exact absurd hwithin.2 (Nat.not_lt_of_le hle)
    · exact absurd hwithin.2 (Nat.not_lt_of_le (Nat.le_trans hle hm))
  | unknown name span => exact h.unbound name hf.1

end Opened

theorem ResolveInput.bindingAt_of_opens {input : ResolveInput} {n : NodeId} {scope : Surround}
    (h : input.ast.opens? n = some scope) (r : Resolution) (owner : String)
    (around : List Surround) : input.bindingAt r owner around n = none := by
  unfold Ast.opens? at h
  unfold bindingAt
  split at h
  · next hdata => rw [hdata]
  · next hdata => rw [hdata]
  · next hdata => rw [hdata]
  · cases h

/-- Another walk within the innermost scope. -/
theorem At.reheld {input : ResolveInput} {r : Resolution} {owner : String} {st st' : Standing}
    {env : List Standing} {s s' : WalkState} (h : At input r owner (st :: env) s)
    (hs : s.Changes (· = .scope st.surround.block) s')
    (hblock : st'.surround.block = st.surround.block)
    (hheld : s'.resolution.blocks[st.surround.block]? =
      some (st'.scope input.ast (innermost (env.map Standing.surround)) owner)) :
    At input r owner (st' :: env) s' := by
  obtain ⟨-, habove, houter⟩ := h.scopes
  refine ⟨hs.alters.header.trans h.header, hs.owner.trans h.owned, ?_, ?_, ?_, ?_⟩
  · exact (hs.block.trans h.block).trans (congrArg some hblock.symm)
  · rw [hblock]
    exact hheld
  · rw [hblock]
    exact habove
  · refine houter.congr fun o ho => ?_
    refine hs.same (f := .scope o.surround.block) fun heq => ?_
    exact absurd (Fact.scope.inj heq) (Nat.ne_of_gt (habove o ho))

namespace Walk

variable {input : ResolveInput} {r : Resolution} {v : Visitors} {owner : String}
  {env : List Standing} {a b c d : ParsePoint} {m : Nat} {scope : Surround} {s s₁ : WalkState}

/-! ### Functions of a block -/

/-- A function becomes known unless one of its name is. -/
theorem leads_declareFunction {held : BlockScope} {ds : List NodeId} {block stmt : Nat}
    (hlaid : Laid input.ast a [stmt] c) (hheld : s.resolution.blocks[block]? =
      some { held with funs := keepNew input.ast.funName? ds }) :
    (declareFunction input block stmt).Leads s fun _ s' =>
      s.Changes (· = .scope block) s' ∧ s'.resolution.blocks[block]? =
        some { held with
          funs := keepNew input.ast.funName? (ds ++ (input.ast.directFun? stmt).toList) } := by
  cases hdirect : input.ast.directFun? stmt with
  | none =>
    rw [declareFunction_of_none hlaid hdirect, Option.toList_none, List.append_nil]
    exact ⟨.refl _ s, hheld⟩
  | some decl =>
    obtain ⟨f, hdecl, heq⟩ := declareFunction_of_some hlaid hdirect
    rw [heq, Option.toList_some, keepNew_concat, Ast.funName?_eq hdecl]
    unfold knowFunction
    simp only [leads_bind, leads_scope?, hheld, Ast.funDecl?_any]
    split
    · refine (leads_report (by simp [toString, String.toList_append]) _ s).mono
        fun _ s₁ hs₁ => ⟨hs₁.quiet _, ?_⟩
      have hsame : s₁.resolution.blocks[block]? = s.resolution.blocks[block]? :=
        hs₁.same (f := .scope block) id
      exact hsame.trans hheld
    · exact leads_modifyScope hheld _

theorem leads_declareFunctions {held : BlockScope} {ds stmts : List NodeId} {block : Nat}
    (hlaid : Laid input.ast a stmts c) (hheld : s.resolution.blocks[block]? =
      some { held with funs := keepNew input.ast.funName? ds }) :
    (stmts.forM (declareFunction input block)).Leads s fun _ s' =>
      s.Changes (· = .scope block) s' ∧ s'.resolution.blocks[block]? =
        some { held with
          funs := keepNew input.ast.funName? (ds ++ stmts.filterMap input.ast.directFun?) } := by
  induction stmts generalizing ds s with
  | nil =>
    rw [List.filterMap_nil, List.append_nil]
    exact ⟨.refl _ s, hheld⟩
  | cons stmt stmts ih =>
    have hstmt := hlaid.sublist (List.singleton_sublist.mpr (List.mem_cons_self ..))
    have hstmts := hlaid.sublist (List.sublist_cons_self stmt stmts)
    refine leads_bind.mpr ((leads_declareFunction hstmt hheld).mono ?_)
    rintro _ s₁ ⟨hs₁, hheld₁⟩
    refine (ih hstmts hheld₁).mono ?_
    rintro _ s₂ ⟨hs₂, hheld₂⟩
    refine ⟨hs₁.trans hs₂, ?_⟩
    rw [hheld₂, List.filterMap_cons, List.append_assoc]
    cases input.ast.directFun? stmt <;> rfl

/-! ### Blocks -/

/-- The facts that a node finds out at itself when it opens a scope. -/
def Entry (scope : Surround) (m : NodeId) (f : Fact) : Prop :=
  f = .noted m ∨ f = .noted scope.block ∨ f = .scope scope.block

theorem Entry.concerns {ast : Ast} {f : Fact} (h : Entry scope m f)
    (hopens : ast.opens? m = some scope) : ast.Concerns m f := by
  rcases h with rfl | rfl | rfl
  · exact .inl rfl
  · exact .inr ⟨scope, hopens, rfl⟩
  · exact .inl ⟨scope, hopens, rfl⟩

/-- What was found out of a node before its parameters were walked is known behind its
    statements. -/
theorem same_own {around around' : List Surround} {f : Fact} {r₃ r₄ r₅ r₆ : Resolution}
    (hopens : input.ast.opens? m = some scope) (ho : Opened input.ast a c m scope b d)
    (hf : input.ast.Concerns m f) (hscope : ∀ block, f ≠ .scope block)
    (h₄ : Found input r owner around scope.params r₃ r₄)
    (h₅ : r₄.Alters (· = .scope scope.block) r₅)
    (h₆ : Found input r owner around' scope.stmts r₅ r₆) : f.Same r₃ r₆ := by
  have hself : ¬ f.Within a d := ho.not_within hopens hf
  refine Fact.Same.trans (h₄.alters.same f fun hf => ?_)
    (Fact.Same.trans (h₅.same f (hscope _)) (h₆.alters.same f fun hf => ?_))
  · rcases hf with htouches | ⟨block, -, heq⟩
    · exact hself ((htouches.within ho.params).mono (.refl a) ho.stmts.precedes)
    · exact hscope block heq
  · rcases hf with htouches | ⟨block, -, heq⟩
    · exact hself ((htouches.within ho.stmts).mono ho.params.precedes (.refl d))
    · exact hscope block heq

/-- The state behind a block, from the walks over its parameters and its statements. -/
theorem walked_block {s₃ s₄ s₅ s₆ : WalkState} (hlaid : Laid input.ast a [m] c)
    (hopens : input.ast.opens? m = some scope) (ho : Opened input.ast a c m scope b d)
    (hsited : Sited input.ast a c [m] env)
    (h₃ : s.resolution.Alters (Entry scope m) s₃.resolution)
    (hnoted : ∀ n, n = m ∨ n = scope.block → s.resolution.nodeBlock[n]? = none →
      s₃.resolution.nodeBlock[n]? = innermost (env.map Standing.surround))
    (h₄ : Walked input r owner (scope.opening :: env) scope.params s₃ s₄)
    (h₅ : s₄.resolution.Alters (· = .scope scope.block) s₅.resolution)
    (h₆ : Walked input r owner (scope.entered input.ast :: env) scope.stmts s₅ s₆) :
    Walked input r owner env [m] s
      { s₆ with block := innermost (env.map Standing.surround) } := by
  have hstands := h₆.stands
  obtain ⟨hheld, -, houter⟩ := hstands.scopes
  have habove : ∀ sc ∈ (scope.entered input.ast :: env).map Standing.surround,
      d.ids ≤ sc.block := List.forall_mem_map.mpr (ho.sited_stmts hsited).above
  have habove' : ∀ sc ∈ (scope.opening :: env).map Standing.surround, d.ids ≤ sc.block := by
    intro sc hsc
    rcases List.mem_cons.mp hsc with rfl | hsc
    · exact ho.le_block
    · exact habove sc (List.mem_cons_of_mem _ hsc)
  have hown : ∀ {f}, Entry scope m f → ¬ f.Within a d := fun hf =>
    ho.not_within hopens (hf.concerns hopens)
  have hbd := ho.stmts.precedes
  have hab := ho.params.precedes
  have h₅' : s₄.resolution.Alters (Entry scope m) s₅.resolution :=
    h₅.mono fun f hf => .inr (.inr hf)
  refine ⟨?_, ?_, ?_⟩
  · rw [declare_eq_self (by rw [List.flatMap_singleton, ho.vars])]
    exact ⟨hstands.header, hstands.owned, rfl, houter⟩
  · rintro owner' around n ⟨rfl, m', hm', hlies⟩
    obtain rfl := List.mem_singleton.mp hm'
    rcases hlies.scope_cases hopens with ⟨rfl, rfl⟩ | ⟨k, hk, hlies⟩ | ⟨k, hk, hlies⟩
    · have hbinding : s₆.resolution.bindings[n]? = s.resolution.bindings[n]? :=
        Fact.Same.trans (f := .binding n) (h₃.same _ (by simp [Entry]))
          (same_own hopens ho rfl (by simp) h₄.found h₅ h₆.found)
      have hkept {k : NodeId} (hk : k = n ∨ k = scope.block)
          (hnone : s.resolution.nodeBlock[k]? = none) :
          s₆.resolution.nodeBlock[k]? = innermost (env.map Standing.surround) := by
        have hconcerns : input.ast.Concerns n (.noted k) :=
          hk.imp_right fun heq => ⟨scope, hopens, heq⟩
        have hsame : s₆.resolution.nodeBlock[k]? = s₃.resolution.nodeBlock[k]? :=
          same_own hopens ho hconcerns (by simp) h₄.found h₅ h₆.found
        rw [hsame, hnoted k hk hnone]
      refine ⟨fun hnone => ?_, fun _ => hkept (.inl rfl), fun sc hsc => ?_, fun sc hsc => ?_,
        fun decl hdata => ?_, fun name hname => absurd hname (ho.unbound name)⟩
      · rw [hbinding, hnone, input.bindingAt_of_opens hopens]
      · cases hopens.symm.trans hsc
        exact hkept (.inr rfl)
      · cases hopens.symm.trans hsc
        refine hheld.trans ?_
        unfold Surround.entered Surround.vars
        rw [List.flatMap_append]
      · simp [Ast.opens?, hdata] at hopens
    · have hwithin : ∀ f, input.ast.Concerns n f → f.Within a b := fun f hf =>
        hf.within (hlies.laid (ho.params.mem hk))
      have hn := (h₄.found.settled ⟨rfl, k, hk, hlies⟩).before h₃ fun f hf hf' =>
        hown hf' ((hwithin f hf).mono (.refl a) hbd)
      have hn := hn.after h₅' fun f hf hf' => hown hf' ((hwithin f hf).mono (.refl a) hbd)
      exact hn.after h₆.found.alters fun f hf hf' => hf'.not_before ho.stmts habove (hwithin f hf)
    · have hwithin : ∀ f, input.ast.Concerns n f → f.Within b d := fun f hf =>
        hf.within (hlies.laid (ho.stmts.mem hk))
      have hn := (h₆.found.settled ⟨rfl, k, hk, hlies⟩).before h₅' fun f hf hf' =>
        hown hf' ((hwithin f hf).mono hab (.refl d))
      have hn := hn.before h₄.found.alters fun f hf hf' =>
        hf'.not_behind ho.params habove' (hwithin f hf)
      exact hn.before h₃ fun f hf hf' => hown hf' ((hwithin f hf).mono hab (.refl d))
  · have hhere : ∀ f, Entry scope m f →
        input.ast.Alterable (env.map Standing.surround) [m] f := fun f hf =>
      .inl ⟨m, List.mem_singleton_self m, _, m, .here _ m, hf.concerns hopens⟩
    refine (h₃.mono hhere).trans ((h₄.found.alters.mono fun f hf => ?_).trans
      ((h₅'.mono hhere).trans (h₆.found.alters.mono fun f hf => ?_)))
    · rcases hf with ⟨k, hk, around, n, hlies, hn⟩ | ⟨block, hblock, rfl⟩
      · exact .inl ⟨m, List.mem_singleton_self m, around, n, .param hopens hk hlies, hn⟩
      · cases hblock
        exact hhere _ (.inr (.inr rfl))
    · rcases hf with ⟨k, hk, around, n, hlies, hn⟩ | ⟨block, hblock, rfl⟩
      · exact .inl ⟨m, List.mem_singleton_self m, around, n, .stmt hopens hk hlies, hn⟩
      · cases hblock
        exact hhere _ (.inr (.inr rfl))

/-- The scope at hand is noted for what opens a scope and for its block, which may be the same. -/
theorem noted_twice {block n : NodeId} {s₂ : WalkState} (h₁ : s.Changes (· = .noted m) s₁)
    (hnoted₁ : s₁.resolution.nodeBlock[m]? = s.block.or s.resolution.nodeBlock[m]?)
    (h₂ : s₁.Changes (· = .noted block) s₂)
    (hnoted₂ : s₂.resolution.nodeBlock[block]? = s₁.block.or s₁.resolution.nodeBlock[block]?)
    (hn : n = m ∨ n = block) (hnone : s.resolution.nodeBlock[n]? = none) :
    s₂.resolution.nodeBlock[n]? = s.block := by
  by_cases hblock : n = block
  · subst hblock
    rw [hnoted₂, h₁.block]
    by_cases hm : n = m
    · subst hm
      rw [hnoted₁, hnone, Option.or_none, Option.or_self]
    · have hsame : s₁.resolution.nodeBlock[n]? = s.resolution.nodeBlock[n]? :=
        h₁.same (f := .noted n) (by simpa using hm)
      rw [hsame, hnone, Option.or_none]
  · obtain rfl := hn.resolve_right hblock
    have hsame : s₂.resolution.nodeBlock[n]? = s₁.resolution.nodeBlock[n]? :=
      h₂.same (f := .noted n) (by simpa using hblock)
    rw [hsame, hnoted₁, hnone, Option.or_none]

/-- The scope of a block is opened within those around it. -/
theorem at_opening (ho : Opened input.ast a c m scope b d) (hsited : Sited input.ast a c [m] env)
    (hs : At input r owner env s) (h₁ : s.resolution.Alters (· = .scope scope.block) s₁.resolution)
    (hblock : s₁.block = some scope.block) (howner : s₁.owner = s.owner)
    (hheld : s₁.resolution.blocks[scope.block]? = some ⟨s.block, s.owner, [], []⟩) :
    At input r owner (scope.opening :: env) s₁ := by
  have habove : ∀ st ∈ env, scope.block < st.surround.block := fun st hst =>
    Nat.lt_of_le_of_lt ho.block_le (Nat.lt_of_lt_of_le ho.lt_stop (hsited.above st hst))
  refine ⟨h₁.header.trans hs.header, howner.trans hs.owned, hblock, ?_, habove, ?_⟩
  · rw [hs.owned, hs.block] at hheld
    exact hheld
  · refine hs.scopes.congr fun st hst => ?_
    refine h₁.same (.scope st.surround.block) fun heq => ?_
    exact absurd (Fact.scope.inj heq) (Nat.ne_of_gt (habove st hst))

/-- Its functions become known behind the parameters. -/
theorem leads_entered (ho : Opened input.ast a c m scope b d)
    (hs : At input r owner (declare input.ast scope.params (scope.opening :: env)) s) :
    (scope.stmts.forM (declareFunction input scope.block)).Leads s fun _ s' =>
      s.Changes (· = .scope scope.block) s' ∧
        At input r owner (scope.entered input.ast :: env) s' := by
  have hheld : s.resolution.blocks[scope.block]? =
      some { (scope.entered input.ast).scope input.ast (innermost (env.map Standing.surround)) owner
        with funs := keepNew input.ast.funName? [] } := hs.scopes.1
  refine (leads_declareFunctions ho.stmts hheld).mono ?_
  rintro _ s₁ ⟨h₁, hheld₁⟩
  refine ⟨h₁, hs.reheld h₁ rfl (hheld₁.trans ?_)⟩
  simp [Standing.scope, Surround.entered, Surround.funs, ho.inParams]

/-- A block, and the parameters in front of it, are walked in a scope of their own. -/
theorem leads_walkBlock (hlaid : Laid input.ast a [m] c) (hopens : input.ast.opens? m = some scope)
    (hsited : Sited input.ast a c [m] env)
    (hparams : Covers input r (scope.params.forM v.statement) scope.params)
    (hstmts : Covers input r (scope.stmts.forM v.statement) scope.stmts)
    (hs : At input r owner env s) (h₁ : s.Changes (· = .noted m) s₁)
    (hnoted : s₁.resolution.nodeBlock[m]? = s.block.or s.resolution.nodeBlock[m]?) :
    (walkBlock input v scope.block scope.params).Leads s₁ fun _ s' =>
      Walked input r owner env [m] s s' := by
  obtain ⟨b, d, ho⟩ := Ast.opened hlaid hopens
  unfold walkBlock
  rw [ho.stmts_eq]
  simp only [leads_bind, leads_get, leads_modify]
  refine (leads_noteBlock _ s₁).mono ?_
  rintro _ s₂ ⟨h₂, hnoted₂⟩
  refine (leads_openScope _ _ s₂).mono ?_
  rintro _ s₃ ⟨h₃, hblock₃, howner₃, hheld₃⟩
  have hs₂ := (hs.kept h₁ fun _ _ => by simp).kept h₂ fun _ _ => by simp
  have hs₃ := at_opening ho hsited hs₂ h₃ hblock₃ howner₃ hheld₃
  have hentry : s.resolution.Alters (Entry scope m) s₃.resolution := by
    refine (h₁.alters.mono fun f hf => .inl hf).trans ?_
    exact (h₂.alters.mono fun f hf => .inr (.inl hf)).trans (h₃.mono fun f hf => .inr (.inr hf))
  have hnoted₃ : ∀ n, n = m ∨ n = scope.block → s.resolution.nodeBlock[n]? = none →
      s₃.resolution.nodeBlock[n]? = innermost (env.map Standing.surround) := by
    intro n hn hnone
    have hsame : s₃.resolution.nodeBlock[n]? = s₂.resolution.nodeBlock[n]? :=
      h₃.same (.noted n) (by simp)
    rw [hsame, noted_twice h₁ hnoted h₂ hnoted₂ hn hnone, hs.block]
  refine (hparams ho.params (ho.sited_params hsited) hs₃).mono fun _ s₄ h₄ => ?_
  refine (leads_entered ho h₄.stands).mono ?_
  rintro _ s₅ ⟨h₅, hs₅⟩
  refine (hstmts ho.stmts (ho.sited_stmts hsited) hs₅).mono fun _ s₆ h₆ => ?_
  rw [hs₂.block]
  exact walked_block hlaid hopens ho hsited hentry hnoted₃ h₄ h₅.alters h₆

end Walk

end ScriptAnalysis
