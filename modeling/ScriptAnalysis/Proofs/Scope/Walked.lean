import ScriptAnalysis.Proofs.Scope.Changes

/-!
# What a walk finds out

A walk over constructs binds every node in them to what it means at its place, notes the innermost
scope around it, and leaves every scope in them with all of its declarations.  Constructs that are
laid out one after the other concern different facts, so what is known of the first ones is still
known after the others were walked.
-/

namespace ScriptAnalysis

/-! ### The facts of a construct -/

/-- The facts that a walk finds out at a node itself. -/
def Ast.Concerns (ast : Ast) (n : NodeId) : Fact → Prop
  | .binding k => k = n
  | .noted k => k = n ∨ ∃ scope, ast.opens? n = some scope ∧ k = scope.block
  | .scope block => (∃ scope, ast.opens? n = some scope ∧ block = scope.block) ∨
      ∃ c, ast.data? n = some (.classDecl c) ∧ block = n
  | .unknown name span => ast.IsName n name ∧ span = ast.span n

/-- The facts that a walk finds out at the nodes within some constructs. -/
def Ast.Touches (ast : Ast) (around : List Surround) (ns : List NodeId) (f : Fact) : Prop :=
  ∃ m ∈ ns, ∃ around' n, ast.Lies around m around' n ∧ ast.Concerns n f

/-- A fact is about something between two points. -/
def Fact.Within (a c : ParsePoint) : Fact → Prop
  | binding n | noted n => a.ids ≤ n ∧ c.ids > n
  | scope block => a.ids ≤ block ∧ c.ids > block
  | unknown _ span => a.text ≤ span.start ∧ span.start < c.text

theorem Fact.Within.mono {a b c d : ParsePoint} {f : Fact} (h : f.Within b c) (hab : a.Precedes b)
    (hcd : c.Precedes d) : f.Within a d := by
  have h₁ := hab.ids
  have h₂ := hab.text
  have h₃ := hcd.ids
  have h₄ := hcd.text
  cases f with
  | unknown name span =>
    dsimp only [Within] at h ⊢
    omega
  | _ =>
    dsimp only [Within] at h ⊢
    omega

theorem Fact.Within.disjoint {a b c : ParsePoint} {f : Fact} (h : f.Within a b) :
    ¬ f.Within b c := by
  intro k
  cases f with
  | unknown name span =>
    dsimp only [Within] at h k
    omega
  | _ =>
    dsimp only [Within] at h k
    omega

/-- A construct that opens a scope: its parameters and the statements of its block are laid out
    before its block was allotted. -/
structure Opened (ast : Ast) (a c : ParsePoint) (m : Nat) (scope : Surround) (b d : ParsePoint) :
    Prop where
  params : Laid ast a scope.params b
  stmts : Laid ast b scope.stmts d
  isVar : ∀ k ∈ scope.params, ast.IsVar k
  isStmt : ∀ k ∈ scope.stmts, ast.IsStmt k
  le_block : d.ids ≤ scope.block
  block_le : m ≥ scope.block
  lt_stop : m < c.ids
  precedes : d.Precedes c
  inParams : scope.inParams = false
  vars : ast.directVars m = []
  stmts_eq : Walk.blockStatements ast scope.block = scope.stmts
  unbound : ∀ name, ¬ ast.IsName m name

namespace Ast

variable {ast : Ast} {a b c d : ParsePoint} {m n k : Nat} {around : List Surround}

theorem IsVar.isStmt (h : ast.IsVar n) : ast.IsStmt n := by
  obtain ⟨decl, v, hdata, -⟩ := h
  exact ⟨_, hdata, rfl⟩

theorem opened_block {stmts : List NodeId} (h : Laid ast a [m] c)
    (hdata : ast.data? m = some (.block stmts)) :
    ∃ d, Opened ast a c m ⟨m, [], stmts, false⟩ a d := by
  obtain ⟨b, d, e, ns, hns, harranged, hm, he⟩ := h.of_data hdata
  obtain rfl : ns = stmts := harranged
  have hde : d.Precedes e := ⟨Nat.le_trans hm.le_id (Nat.le_of_lt hm.id_lt), hm.text⟩
  refine ⟨d, .nil (.refl a), hns.ge hm.before, by simp, hm.formed, hm.le_id, Nat.le_refl m,
    Nat.lt_of_lt_of_le hm.id_lt he.ids, hde.trans he, rfl, ?_, blockStatements_of_data hdata, ?_⟩
  · exact directVars_eq_nil hdata (by simp) (by simp) (by simp)
  · rintro name (hname | ⟨value, hname⟩)
    · cases hdata.symm.trans hname
    · cases hdata.symm.trans hname

/-- Whatever has parameters and a block opens a scope for both. -/
theorem opened_body {params : List NodeId} {body : NodeId} {data : NodeData}
    (h : Laid ast a [m] c) (hdata : ast.data? m = some data)
    (harranged : ∀ ns, data.Arranged ns → ns = params ++ [body])
    (hparams : data.Formed ast → ∀ k ∈ params, ast.IsVar k)
    (hbody : data.Formed ast → ast.IsBlock body)
    (hvars : ast.directVars m = []) (hname : ∀ name, ¬ ast.IsName m name) :
    ∃ b d, Opened ast a c m ⟨body, params, Walk.blockStatements ast body, false⟩ b d := by
  obtain ⟨b, d, e, ns, hns, harr, hm, he⟩ := h.of_data hdata
  obtain rfl := harranged ns harr
  obtain ⟨p, hp, hb⟩ := (hns.ge hm.before).split
  obtain ⟨stmts, hstmts⟩ := hbody hm.formed
  obtain ⟨q, hq⟩ := opened_block hb hstmts
  have hlt := hq.lt_stop
  have hle := hm.le_id
  have hde : d.Precedes e := ⟨Nat.le_trans hm.le_id (Nat.le_of_lt hm.id_lt), hm.text⟩
  rw [blockStatements_of_data hstmts]
  exact ⟨p, q, hp, hq.stmts, hparams hm.formed, hq.isStmt, hq.le_block,
    Nat.le_trans (Nat.le_of_lt hlt) hle, Nat.lt_of_lt_of_le hm.id_lt he.ids,
    hq.precedes.trans (hde.trans he), rfl, hvars, blockStatements_of_data hstmts, hname⟩

theorem opened {scope : Surround} (h : Laid ast a [m] c) (hopens : ast.opens? m = some scope) :
    ∃ b d, Opened ast a c m scope b d := by
  unfold opens? at hopens
  split at hopens
  · next params body isBlock hdata =>
    cases hopens
    refine opened_body h hdata (fun ns harranged => harranged) (fun hformed => hformed.1)
      (fun hformed => hformed.2) (directVars_eq_nil hdata (by simp) (by simp) (by simp)) ?_
    rintro name (hname | ⟨value, hname⟩)
    · cases hdata.symm.trans hname
    · cases hdata.symm.trans hname
  · next f hdata =>
    cases hopens
    refine opened_body h hdata (fun ns harranged => harranged) (fun hformed => hformed.1)
      (fun hformed => hformed.2) (directVars_eq_nil hdata (by simp) (by simp) (by simp)) ?_
    rintro name (hname | ⟨value, hname⟩)
    · cases hdata.symm.trans hname
    · cases hdata.symm.trans hname
  · next stmts hdata =>
    cases hopens
    exact ⟨a, opened_block h hdata⟩
  · cases hopens

/-- A name starts within the place where it is laid out. -/
theorem IsName.start_bounds {name : String} (hname : ast.IsName n name) (h : Laid ast a [n] c) :
    a.text ≤ (ast.span n).start ∧ (ast.span n).start < c.text := by
  rcases hname with hdata | ⟨value, hdata⟩
  · obtain ⟨hstart, hlt, hstop⟩ := h.solid hdata rfl
    omega
  · obtain ⟨hstart, hlt, hstop⟩ := h.solid hdata rfl
    omega

theorem Concerns.within {f : Fact} (hf : ast.Concerns n f) (h : Laid ast a [n] c) :
    f.Within a c := by
  have hn := h.mem_lt (List.mem_singleton_self n)
  have hscope : ∀ {scope : Surround}, ast.opens? n = some scope →
      a.ids ≤ scope.block ∧ c.ids > scope.block := by
    intro scope hopens
    obtain ⟨b, d, ho⟩ := opened h hopens
    have h₁ := ho.params.precedes.ids
    have h₂ := ho.stmts.precedes.ids
    have h₃ := ho.le_block
    have h₄ := ho.block_le
    have h₅ := ho.lt_stop
    omega
  cases f with
  | binding k =>
    obtain rfl : k = n := hf
    exact hn
  | noted k =>
    rcases hf with rfl | ⟨scope, hopens, rfl⟩
    · exact hn
    · exact hscope hopens
  | scope block =>
    rcases hf with ⟨scope, hopens, rfl⟩ | ⟨c, -, rfl⟩
    · exact hscope hopens
    · exact hn
  | unknown name span =>
    obtain ⟨hname, rfl⟩ := hf
    exact hname.start_bounds h

theorem Touches.within {ns : List NodeId} {f : Fact} (hf : ast.Touches around ns f)
    (h : Laid ast a ns c) : f.Within a c := by
  obtain ⟨m, hm, around', n, hlies, hn⟩ := hf
  exact hn.within (hlies.laid (h.mem hm))

/-- What a node that opens no scope concerns itself concerns none of its parts. -/
theorem Concerns.not_within {f : Fact} {data : NodeData} (hf : ast.Concerns m f)
    (hopens : ast.opens? m = none) (hm : Allots ast a b c m data d) (hk : k ∈ data.parts) :
    ¬ f.Within b c := by
  have hle := hm.le_id
  intro hwithin
  cases f with
  | binding n =>
    obtain rfl : n = m := hf
    exact absurd hwithin.2 (Nat.not_lt_of_le hle)
  | noted n =>
    rcases hf with rfl | ⟨scope, hscope, -⟩
    · exact absurd hwithin.2 (Nat.not_lt_of_le hle)
    · cases hopens.symm.trans hscope
  | scope block =>
    rcases hf with ⟨scope, hscope, -⟩ | ⟨c, -, rfl⟩
    · cases hopens.symm.trans hscope
    · exact absurd hwithin.2 (Nat.not_lt_of_le hle)
  | unknown name span =>
    obtain ⟨hname | ⟨value, hname⟩, rfl⟩ := hf
    · cases Option.some.inj (hm.found.symm.trans hname)
      cases hk
    · exact absurd hwithin.1 (Nat.not_le_of_lt (hm.lead name value
        (Option.some.inj (hm.found.symm.trans hname))))

/-! ### Where a node lies -/

/-- A node in a construct that opens no scope is the construct itself or in a part of it. -/
theorem Lies.part_cases {around' : List Surround} {data : NodeData}
    (h : ast.Lies around m around' n) (hdata : ast.data? m = some data)
    (hopens : ast.opens? m = none) :
    (around' = around ∧ n = m) ∨ ∃ k ∈ data.parts, ast.Lies around k around' n := by
  cases h with
  | here => exact .inl ⟨rfl, rfl⟩
  | part hdata' _ _ hk hlies =>
    cases Option.some.inj (hdata.symm.trans hdata')
    exact .inr ⟨_, hk, hlies⟩
  | param hopens' => cases hopens.symm.trans hopens'
  | stmt hopens' => cases hopens.symm.trans hopens'

/-- A node in a construct that opens a scope is the construct itself, or in a parameter or a
    statement in that scope. -/
theorem Lies.scope_cases {around' : List Surround} {scope : Surround}
    (h : ast.Lies around m around' n) (hopens : ast.opens? m = some scope) :
    (around' = around ∧ n = m) ∨
      (∃ k ∈ scope.params, ast.Lies ({ scope with inParams := true } :: around) k around' n) ∨
      ∃ k ∈ scope.stmts, ast.Lies (scope :: around) k around' n := by
  cases h with
  | here => exact .inl ⟨rfl, rfl⟩
  | part _ hopens' => cases hopens.symm.trans hopens'
  | param hopens' hk hlies =>
    cases Option.some.inj (hopens.symm.trans hopens')
    exact .inr (.inl ⟨_, hk, hlies⟩)
  | stmt hopens' hk hlies =>
    cases Option.some.inj (hopens.symm.trans hopens')
    exact .inr (.inr ⟨_, hk, hlies⟩)

end Ast

/-! ### What was found out -/

/-- The declaration in a field of a known class.  It is walked without a scope being noted for
    it. -/
def Ast.IsFieldDecl (ast : Ast) (classes : List ClassSummary) (n : NodeId) : Prop :=
  ∃ m decl field, ast.data? m = some (.classDecl decl) ∧
    (classes.find? (·.decl == m)).isSome = true ∧ field ∈ decl.fields ∧
    ast.data? field = some (.varDecl n)

/-- What a walk found out at the node `n`, which stands in code of the class `owner` within the
    scopes `around`. -/
structure Settled (input : ResolveInput) (r : Resolution) (owner : String) (around : List Surround)
    (n : NodeId) (before after : Resolution) : Prop where
  binding : before.bindings[n]? = none →
    after.bindings[n]? = input.bindingAt r owner around n
  noted : ¬ input.ast.IsFieldDecl r.classes n → before.nodeBlock[n]? = none →
    after.nodeBlock[n]? = innermost around
  notedBlock : ∀ scope, input.ast.opens? n = some scope → before.nodeBlock[scope.block]? = none →
    after.nodeBlock[scope.block]? = innermost around
  scope : ∀ scope, input.ast.opens? n = some scope → after.blocks[scope.block]? =
    some ((Standing.mk scope (scope.vars input.ast)).scope input.ast (innermost around) owner)
  ofClass : ∀ decl, input.ast.data? n = some (.classDecl decl) →
    after.blocks[n]? = some { enclosing := none, owningClass := owner }
  reported : ∀ name, input.ast.IsName n name → after.unknowns name (input.ast.span n) =
    before.unknowns name (input.ast.span n) +
      if input.bindingAt r owner around n = none then 1 else 0

namespace Settled

variable {input : ResolveInput} {r : Resolution} {owner : String} {around : List Surround}
  {n : NodeId} {r₁ r₂ r₃ : Resolution} {F : Fact → Prop}

/-- It is still known after facts were altered that do not concern the node. -/
theorem after (h : Settled input r owner around n r₁ r₂) (k : r₂.Alters F r₃)
    (hF : ∀ f, input.ast.Concerns n f → ¬ F f) : Settled input r owner around n r₁ r₃ where
  binding hnone := Eq.trans (k.same (.binding n) (hF _ rfl)) (h.binding hnone)
  noted hfield hnone := Eq.trans (k.same (.noted n) (hF _ (.inl rfl))) (h.noted hfield hnone)
  notedBlock scope hopens hnone := Eq.trans
    (k.same (.noted scope.block) (hF _ (.inr ⟨scope, hopens, rfl⟩)))
      (h.notedBlock scope hopens hnone)
  scope scope hopens :=
    Eq.trans (k.same (.scope scope.block) (hF _ (.inl ⟨scope, hopens, rfl⟩))) (h.scope scope hopens)
  ofClass decl hdata :=
    Eq.trans (k.same (.scope n) (hF _ (.inr ⟨decl, hdata, rfl⟩))) (h.ofClass decl hdata)
  reported name hname :=
    Eq.trans (k.same (.unknown name _) (hF _ ⟨hname, rfl⟩)) (h.reported name hname)

theorem before (k : r₁.Alters F r₂) (hF : ∀ f, input.ast.Concerns n f → ¬ F f)
    (h : Settled input r owner around n r₂ r₃) : Settled input r owner around n r₁ r₃ where
  binding hnone := h.binding (Eq.trans (k.same (.binding n) (hF _ rfl)) hnone)
  noted hfield hnone := h.noted hfield (Eq.trans (k.same (.noted n) (hF _ (.inl rfl))) hnone)
  notedBlock scope hopens hnone := h.notedBlock scope hopens
    (Eq.trans (k.same (.noted scope.block) (hF _ (.inr ⟨scope, hopens, rfl⟩))) hnone)
  scope := h.scope
  ofClass := h.ofClass
  reported name hname := by
    have hsame : r₂.unknowns name _ = r₁.unknowns name _ :=
      k.same (.unknown name (input.ast.span n)) (hF _ ⟨hname, rfl⟩)
    rw [h.reported name hname, hsame]

/-- A construct that opens no scope and is no class. -/
theorem of_opens_none {data : NodeData} (hdata : input.ast.data? n = some data)
    (hopens : input.ast.opens? n = none) (hclass : ∀ decl, data ≠ .classDecl decl)
    (hbinding : r₁.bindings[n]? = none → r₂.bindings[n]? = input.bindingAt r owner around n)
    (hnoted : ¬ input.ast.IsFieldDecl r.classes n → r₁.nodeBlock[n]? = none →
      r₂.nodeBlock[n]? = innermost around)
    (hreported : ∀ name, input.ast.IsName n name → r₂.unknowns name (input.ast.span n) =
      r₁.unknowns name (input.ast.span n) +
        if input.bindingAt r owner around n = none then 1 else 0) :
    Settled input r owner around n r₁ r₂ where
  binding := hbinding
  noted := hnoted
  notedBlock _ h := by cases hopens.symm.trans h
  scope _ h := by cases hopens.symm.trans h
  ofClass decl h := absurd (Option.some.inj (hdata.symm.trans h)) (hclass decl)
  reported := hreported

end Settled

/-- A part of a walk settles the nodes `P`, each in code of a class and within scopes, and alters
    only the facts `F`. -/
structure Finds (input : ResolveInput) (r : Resolution)
    (P : String → List Surround → NodeId → Prop) (F : Fact → Prop) (before after : Resolution) :
    Prop where
  settled : ∀ {owner around n}, P owner around n → Settled input r owner around n before after
  alters : before.Alters F after

namespace Finds

variable {input : ResolveInput} {r : Resolution} {P Q : String → List Surround → NodeId → Prop}
  {F G : Fact → Prop} {r₁ r₂ r₃ : Resolution}

/-- Two parts of a walk that concern different facts. -/
theorem trans (h : Finds input r P F r₁ r₂) (k : Finds input r Q G r₂ r₃)
    (hP : ∀ {owner around n f}, P owner around n → input.ast.Concerns n f → ¬ G f)
    (hQ : ∀ {owner around n f}, Q owner around n → input.ast.Concerns n f → ¬ F f) :
    Finds input r (fun owner around n => P owner around n ∨ Q owner around n)
      (fun f => F f ∨ G f) r₁ r₃ where
  settled hn := by
    rcases hn with hn | hn
    · exact (h.settled hn).after k.alters fun f hf => hP hn hf
    · exact (k.settled hn).before h.alters fun f hf => hQ hn hf
  alters := (h.alters.mono fun f hf => .inl hf).trans (k.alters.mono fun f hf => .inr hf)

theorem mono (h : Finds input r P F r₁ r₂)
    (hQ : ∀ {owner around n}, Q owner around n → P owner around n) (hG : ∀ {f}, F f → G f) :
    Finds input r Q G r₁ r₂ := ⟨fun hn => h.settled (hQ hn), h.alters.mono fun _ hf => hG hf⟩

theorem none (h : r₁.Alters F r₂) : Finds input r (fun _ _ _ => False) F r₁ r₂ :=
  ⟨False.elim, h⟩

theorem quiet_after {s s' : WalkState} (h : Finds input r P F r₁ s.resolution) (k : s.Quiet s') :
    Finds input r P F r₁ s'.resolution :=
  ⟨fun hn => (h.settled hn).after k.alters fun _ _ => id, h.alters.trans (k.quiet _).alters⟩

theorem quiet_before {s s' : WalkState} (k : s.Quiet s') (h : Finds input r P F s'.resolution r₁) :
    Finds input r P F s.resolution r₁ :=
  ⟨fun hn => (h.settled hn).before k.alters fun _ _ => id, (k.quiet _).alters.trans h.alters⟩

end Finds

namespace Ast

/-- The nodes within constructs. -/
def Among (ast : Ast) (owner : String) (around : List Surround) (ns : List NodeId) :
    String → List Surround → NodeId → Prop :=
  fun owner' around' n => owner' = owner ∧ ∃ m ∈ ns, ast.Lies around m around' n

/-- The facts that a walk over constructs may alter: those of the nodes in them, and what the scope
    at hand holds. -/
def Alterable (ast : Ast) (around : List Surround) (ns : List NodeId) (f : Fact) : Prop :=
  ast.Touches around ns f ∨ ∃ block, innermost around = some block ∧ f = .scope block

variable {ast : Ast} {a b c d : ParsePoint} {ns ms : List NodeId} {around around' : List Surround}
  {owner owner' : String} {n : NodeId} {f : Fact}

theorem Among.append (h : ast.Among owner around (ns ++ ms) owner' around' n) :
    ast.Among owner around ns owner' around' n ∨ ast.Among owner around ms owner' around' n := by
  obtain ⟨howner, m, hm, hlies⟩ := h
  rcases List.mem_append.mp hm with hm | hm
  · exact .inl ⟨howner, m, hm, hlies⟩
  · exact .inr ⟨howner, m, hm, hlies⟩

theorem Among.within (h : ast.Among owner around ns owner' around' n) (hns : Laid ast a ns c)
    (hf : ast.Concerns n f) : f.Within a c := by
  obtain ⟨-, m, hm, hlies⟩ := h
  exact hf.within (hlies.laid (hns.mem hm))

theorem Alterable.append_left (h : ast.Alterable around ns f) :
    ast.Alterable around (ns ++ ms) f :=
  h.imp (fun ⟨m, hm, h⟩ => ⟨m, List.mem_append_left _ hm, h⟩) id

theorem Alterable.append_right (h : ast.Alterable around ms f) :
    ast.Alterable around (ns ++ ms) f :=
  h.imp (fun ⟨m, hm, h⟩ => ⟨m, List.mem_append_right _ hm, h⟩) id

theorem block_of_innermost {block : NodeId} (h : innermost around = some block) :
    ∃ scope ∈ around, scope.block = block := by
  cases around with
  | nil => cases h
  | cons scope outer => exact ⟨scope, List.mem_cons_self .., Option.some.inj h⟩

/-- What is altered within constructs is not about anything behind them. -/
theorem Alterable.not_behind (h : ast.Alterable around ns f) (hns : Laid ast a ns b)
    (habove : ∀ scope ∈ around, c.ids ≤ scope.block) : ¬ f.Within b c := by
  rcases h with h | ⟨block, hblock, rfl⟩
  · exact (h.within hns).disjoint
  · obtain ⟨scope, hscope, rfl⟩ := block_of_innermost hblock
    exact fun hwithin => absurd hwithin.2 (Nat.not_lt_of_le (habove scope hscope))

/-- What is altered within constructs is not about anything in front of them. -/
theorem Alterable.not_before (h : ast.Alterable around ns f) (hns : Laid ast b ns c)
    (habove : ∀ scope ∈ around, c.ids ≤ scope.block) : ¬ f.Within a b := by
  rcases h with h | ⟨block, hblock, rfl⟩
  · exact fun hwithin => hwithin.disjoint (h.within hns)
  · obtain ⟨scope, hscope, rfl⟩ := block_of_innermost hblock
    have hle := Nat.le_trans hns.precedes.ids (habove scope hscope)
    exact fun hwithin => absurd hwithin.2 (Nat.not_lt_of_le hle)

end Ast

/-- What a walk over the constructs `ns` in code of the class `owner`, within the scopes `around`,
    finds out. -/
abbrev Found (input : ResolveInput) (r : Resolution) (owner : String) (around : List Surround)
    (ns : List NodeId) : Resolution → Resolution → Prop :=
  Finds input r (input.ast.Among owner around ns) (input.ast.Alterable around ns)

/-- A walk over the constructs `ns` in code of the class `owner`, within the scopes of `env`. -/
structure Walked (input : ResolveInput) (r : Resolution) (owner : String) (env : List Standing)
    (ns : List NodeId) (s s' : WalkState) : Prop where
  stands : At input r owner (declare input.ast ns env) s'
  found : Found input r owner (env.map Standing.surround) ns s.resolution s'.resolution

section

variable {input : ResolveInput} {r : Resolution} {owner : String} {around : List Surround}
  {a b c d : ParsePoint} {ns ms : List NodeId} {m : Nat} {data : NodeData}
  {r₁ r₂ r₃ r₄ : Resolution}

/-- Constructs that are laid out one after the other concern different facts. -/
theorem Found.append (hns : Laid input.ast a ns b) (hms : Laid input.ast b ms c)
    (habove : ∀ scope ∈ around, c.ids ≤ scope.block) (h₁ : Found input r owner around ns r₁ r₂)
    (h₂ : Found input r owner around ms r₂ r₃) : Found input r owner around (ns ++ ms) r₁ r₃ := by
  refine (h₁.trans h₂ (fun hn hf halter => ?_) fun hn hf halter => ?_).mono Ast.Among.append
    fun hf => ?_
  · exact halter.not_before hms habove (hn.within hns hf)
  · exact halter.not_behind hns habove (hn.within hms hf)
  · exact hf.elim Ast.Alterable.append_left Ast.Alterable.append_right

/-- A walk over the parts of a construct finds out nothing at the construct itself. -/
theorem Found.same_own {f : Fact} (h : Found input r owner around data.parts r₁ r₂)
    (hparts : Laid input.ast b data.parts c) (hm : Allots input.ast a b c m data d)
    (hopens : input.ast.opens? m = none) (hclass : ∀ decl, data ≠ .classDecl decl)
    (hf : input.ast.Concerns m f) : f.Same r₁ r₂ := by
  refine h.alters.same f ?_
  rintro (htouches | ⟨block, -, rfl⟩)
  · obtain ⟨k, hk, -⟩ := id htouches
    exact hf.not_within hopens hm hk (htouches.within hparts)
  · rcases hf with ⟨scope, hscope, -⟩ | ⟨decl, hdata, -⟩
    · cases hopens.symm.trans hscope
    · exact hclass decl (Option.some.inj (hm.found.symm.trans hdata))

/-- A construct is bound to what it was bound to before the walk over its parts. -/
theorem Found.same_binding (h : Found input r owner around data.parts r₁ r₂)
    (hparts : Laid input.ast b data.parts c) (hm : Allots input.ast a b c m data d)
    (hopens : input.ast.opens? m = none) (hclass : ∀ decl, data ≠ .classDecl decl) :
    r₂.bindings[m]? = r₁.bindings[m]? :=
  h.same_own (f := .binding m) hparts hm hopens hclass rfl

/-- The scope that is noted for a construct is that from before the walk over its parts. -/
theorem Found.same_noted (h : Found input r owner around data.parts r₁ r₂)
    (hparts : Laid input.ast b data.parts c) (hm : Allots input.ast a b c m data d)
    (hopens : input.ast.opens? m = none) (hclass : ∀ decl, data ≠ .classDecl decl) :
    r₂.nodeBlock[m]? = r₁.nodeBlock[m]? :=
  h.same_own (f := .noted m) hparts hm hopens hclass (.inl rfl)

/-- A construct that opens no scope, from the walk over its parts. -/
theorem Found.node (hlaid : Laid input.ast a [m] c)
    (habove : ∀ scope ∈ around, c.ids ≤ scope.block) (hdata : input.ast.data? m = some data)
    (hopens : input.ast.opens? m = none) (hclass : ∀ decl, data ≠ .classDecl decl)
    (h₁ : r₁.Alters (input.ast.Concerns m) r₂) (h₂ : Found input r owner around data.parts r₂ r₃)
    (h₃ : r₃.Alters (fun f => input.ast.Concerns m f ∨
      ∃ block, innermost around = some block ∧ f = .scope block) r₄)
    (hm : Settled input r owner around m r₁ r₄) : Found input r owner around [m] r₁ r₄ := by
  obtain ⟨b, c', d, ns, hns, harranged, hallots, hd⟩ := hlaid.of_data hdata
  have hcd : c'.ids ≤ c.ids :=
    Nat.le_trans hallots.le_id (Nat.le_trans (Nat.le_of_lt hallots.id_lt) hd.ids)
  constructor
  · rintro owner' around' n ⟨rfl, m', hm', hlies⟩
    obtain rfl := List.mem_singleton.mp hm'
    rcases hlies.part_cases hdata hopens with ⟨rfl, rfl⟩ | ⟨k, hk, hlies⟩
    · exact hm
    · have hwithin : ∀ f, input.ast.Concerns n f → f.Within b c' := fun f hf =>
        hf.within (hlies.laid (hns.mem (harranged.perm.mem_iff.mpr hk)))
      have hn := (h₂.settled ⟨rfl, k, hk, hlies⟩).before h₁ fun f hf hf' =>
        hf'.not_within hopens hallots hk (hwithin f hf)
      refine hn.after h₃ fun f hf hf' => ?_
      rcases hf' with hf' | ⟨block, hblock, rfl⟩
      · exact hf'.not_within hopens hallots hk (hwithin f hf)
      · obtain ⟨scope, hscope, rfl⟩ := Ast.block_of_innermost hblock
        exact absurd (hwithin _ hf).2 (Nat.not_lt_of_le (Nat.le_trans hcd (habove scope hscope)))
  · have hhere : ∀ f, input.ast.Concerns m f → input.ast.Alterable around [m] f := fun f hf =>
      .inl ⟨m, List.mem_singleton_self m, _, m, .here _ m, hf⟩
    refine (h₁.mono hhere).trans ((h₂.alters.mono fun f hf => ?_).trans (h₃.mono fun f hf => ?_))
    · refine hf.imp (fun ⟨k, hk, around, n, hlies, hn⟩ => ?_) id
      exact ⟨m, List.mem_singleton_self m, around, n, .part hdata hopens hclass hk hlies, hn⟩
    · exact hf.elim (hhere f) .inr

end

namespace Walked

variable {input : ResolveInput} {r : Resolution} {owner : String} {env : List Standing}
  {a b c d : ParsePoint} {ns ms : List NodeId} {s s₁ s₂ s₃ : WalkState}

theorem nil (h : At input r owner env s) : Walked input r owner env [] s s := by
  refine ⟨?_, ?_, .refl _ _⟩
  · rw [declare_eq_self rfl]
    exact h
  · rintro owner' around n ⟨-, m, hm, -⟩
    cases hm

/-- The second constructs find what the first ones declared. -/
theorem append (hns : Laid input.ast a ns b) (hms : Laid input.ast b ms c)
    (habove : ∀ st ∈ env, c.ids ≤ st.surround.block) (h₁ : Walked input r owner env ns s s₁)
    (h₂ : Walked input r owner (declare input.ast ns env) ms s₁ s₂) :
    Walked input r owner env (ns ++ ms) s s₂ := by
  have hfound := h₂.found
  rw [surround_declare] at hfound
  refine ⟨?_, .append hns hms (List.forall_mem_map.mpr habove) h₁.found hfound⟩
  rw [declare_append]
  exact h₂.stands

theorem quiet_after (h : Walked input r owner env ns s s₁) (k : s₁.Quiet s₂) :
    Walked input r owner env ns s s₂ :=
  ⟨h.stands.kept k fun _ _ => id, h.found.quiet_after k⟩

theorem quiet_before (k : s.Quiet s₁) (h : Walked input r owner env ns s₁ s₂) :
    Walked input r owner env ns s s₂ := ⟨h.stands, .quiet_before k h.found⟩

theorem node {m : Nat} {data : NodeData} (hlaid : Laid input.ast a [m] c)
    (habove : ∀ st ∈ env, c.ids ≤ st.surround.block) (hdata : input.ast.data? m = some data)
    (hopens : input.ast.opens? m = none) (hclass : ∀ decl, data ≠ .classDecl decl)
    (h₁ : s.resolution.Alters (input.ast.Concerns m) s₁.resolution)
    (h₂ : Walked input r owner env data.parts s₁ s₂)
    (h₃ : s₂.resolution.Alters (fun f => input.ast.Concerns m f ∨
      ∃ block, innermost (env.map Standing.surround) = some block ∧ f = .scope block)
      s₃.resolution)
    (hstands : At input r owner (declare input.ast [m] env) s₃)
    (hm : Settled input r owner (env.map Standing.surround) m s.resolution s₃.resolution) :
    Walked input r owner env [m] s s₃ :=
  ⟨hstands, .node hlaid (List.forall_mem_map.mpr habove) hdata hopens hclass h₁ h₂.found h₃ hm⟩

end Walked

/-! ### Walks one after the other -/

namespace Walk

variable {input : ResolveInput} {r : Resolution} {ns ms : List NodeId} {x y : Walk Unit}

/-- A walk over constructs, wherever they are laid out. -/
def Covers (input : ResolveInput) (r : Resolution) (x : Walk Unit) (ns : List NodeId) : Prop :=
  ∀ ⦃owner env a c s⦄, Laid input.ast a ns c → Sited input.ast a c ns env →
    At input r owner env s → x.Leads s fun _ s' => Walked input r owner env ns s s'

theorem covers_nil : Covers input r (pure ()) [] := fun _ _ _ _ _ _ _ hs => .nil hs

theorem covers_append (hx : Covers input r x ns) (hy : Covers input r y ms) :
    Covers input r (x >>= fun _ => y) (ns ++ ms) := by
  intro owner env a c s hlaid hsited hs
  obtain ⟨b, hns, hms⟩ := hlaid.split
  obtain ⟨hsited₁, hsited₂⟩ := hsited.split hns hms
  refine leads_bind.mpr ((hx hns hsited₁ hs).mono fun _ s₁ hs₁ => ?_)
  exact (hy hms hsited₂ hs₁.stands).mono fun _ s₂ hs₂ => .append hns hms hsited.above hs₁ hs₂

/-- Checks that change nothing may follow. -/
theorem covers_quiet (hx : Covers input r x ns)
    (hy : ∀ s, y.Leads s fun _ s' => s.Quiet s') : Covers input r (x >>= fun _ => y) ns := by
  intro owner env a c s hlaid hsited hs
  refine leads_bind.mpr ((hx hlaid hsited hs).mono fun _ s₁ hs₁ => ?_)
  exact (hy s₁).mono fun _ s₂ hs₂ => hs₁.quiet_after hs₂

end Walk

end ScriptAnalysis
