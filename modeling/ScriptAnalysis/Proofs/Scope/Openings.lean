import Mathlib.Data.List.Nodup
import ScriptAnalysis.Proofs.Scope.Scripts

/-!
# The scopes that a walk opens

`Ast.Opens` lists the scopes that a walk over constructs opens, `Ast.OpensClasses` those that a walk
over classes opens.  They are the scopes of the nodes that the walk comes to, and no two of them are
of one block, since constructs that stand beside each other were allotted apart.
-/

namespace ScriptAnalysis

namespace Ast

/-- `ast.Opens ns scopes`: a walk over the constructs `ns` opens `scopes`. -/
inductive Opens (ast : Ast) : List NodeId → List Surround → Prop
  | nil : Opens ast [] []
  | cons {n : NodeId} {ns : List NodeId} {scopes scopes' : List Surround} :
      Opens ast [n] scopes → Opens ast ns scopes' → Opens ast (n :: ns) (scopes ++ scopes')
  | scope {n : NodeId} {scope : Surround} {inner inner' : List Surround} :
      ast.opens? n = some scope → Opens ast scope.params inner → Opens ast scope.stmts inner' →
      Opens ast [n] (scope :: (inner ++ inner'))
  | part {n : NodeId} {data : NodeData} {scopes : List Surround} :
      ast.data? n = some data → ast.opens? n = none → (∀ c, data ≠ .classDecl c) →
      Opens ast data.parts scopes → Opens ast [n] scopes

/-- `ast.OpensClasses classes ms scopes`: a walk over the classes `ms` opens `scopes`, apart from
    those of the classes themselves.  Only the `classes` are known, and others are not entered. -/
inductive OpensClasses (ast : Ast) (classes : List ClassSummary) :
    List NodeId → List Surround → Prop
  | nil : OpensClasses ast classes [] []
  | cons {m : NodeId} {ms : List NodeId} {scopes scopes' : List Surround} :
      OpensClasses ast classes [m] scopes → OpensClasses ast classes ms scopes' →
      OpensClasses ast classes (m :: ms) (scopes ++ scopes')
  | known {m : NodeId} {decl : ClassDecl} {c : ClassSummary} {scopes scopes' : List Surround} :
      ast.data? m = some (.classDecl decl) → classes.find? (·.decl == m) = some c →
      Opens ast (decl.fields ++ decl.methods) scopes →
      OpensClasses ast classes decl.inner scopes' →
      OpensClasses ast classes [m] (scopes ++ scopes')
  | unknown {m : NodeId} {decl : ClassDecl} :
      ast.data? m = some (.classDecl decl) → classes.find? (·.decl == m) = none →
      OpensClasses ast classes [m] []

/-- A scope is opened within a construct that stands in the scopes `around`. -/
def OpenIn (ast : Ast) (around : List Surround) (m : NodeId) (scope : Surround) : Prop :=
  ∃ around' n, ast.Lies around m around' n ∧ ast.opens? n = some scope

variable {ast : Ast} {a b c : ParsePoint} {m n : NodeId} {ns ms : List NodeId} {scope : Surround}
  {scopes scopes' : List Surround} {classes : List ClassSummary} {around around' : List Surround}
  {owner : String}

/-! ### Constructs -/

theorem Opens.append (h : ast.Opens ns scopes) (k : ast.Opens ms scopes') :
    ast.Opens (ns ++ ms) (scopes ++ scopes') := by
  induction h with
  | nil => exact k
  | cons h₁ _ _ ih =>
    rw [List.cons_append, List.append_assoc]
    exact .cons h₁ ih
  | scope hopens hparams hstmts => exact .cons (.scope hopens hparams hstmts) k
  | part hdata hopens hclass hparts => exact .cons (.part hdata hopens hclass hparts) k

/-- The scopes that are opened are those of the nodes in the constructs. -/
theorem Opens.mem_iff (h : ast.Opens ns scopes) (around : List Surround) :
    scope ∈ scopes ↔ ∃ m ∈ ns, ast.OpenIn around m scope := by
  induction h generalizing around with
  | nil => simp
  | cons _ _ ih₁ ih₂ =>
    rw [List.mem_append, ih₁ around, ih₂ around, List.exists_mem_cons_iff]
    simp
  | @scope n own _ _ hopens _ _ ih₁ ih₂ =>
    rw [List.mem_cons, List.mem_append, ih₁ ({ own with inParams := true } :: around),
      ih₂ (own :: around)]
    constructor
    · rintro (rfl | ⟨k, hk, around', l, hlies, hl⟩ | ⟨k, hk, around', l, hlies, hl⟩)
      · exact ⟨n, List.mem_singleton_self n, around, n, .here around n, hopens⟩
      · exact ⟨n, List.mem_singleton_self n, around', l, .param hopens hk hlies, hl⟩
      · exact ⟨n, List.mem_singleton_self n, around', l, .stmt hopens hk hlies, hl⟩
    · rintro ⟨m, hm, around', l, hlies, hl⟩
      obtain rfl := List.mem_singleton.mp hm
      rcases hlies.scope_cases hopens with ⟨rfl, rfl⟩ | ⟨k, hk, hlies⟩ | ⟨k, hk, hlies⟩
      · exact .inl (Option.some.inj (hl.symm.trans hopens))
      · exact .inr (.inl ⟨k, hk, around', l, hlies, hl⟩)
      · exact .inr (.inr ⟨k, hk, around', l, hlies, hl⟩)
  | @part n data _ hdata hopens hclass _ ih =>
    rw [ih around]
    constructor
    · rintro ⟨k, hk, around', l, hlies, hl⟩
      exact ⟨n, List.mem_singleton_self n, around', l, .part hdata hopens hclass hk hlies, hl⟩
    · rintro ⟨m, hm, around', l, hlies, hl⟩
      obtain rfl := List.mem_singleton.mp hm
      rcases hlies.part_cases hdata hopens with ⟨rfl, rfl⟩ | ⟨k, hk, hlies⟩
      · cases hopens.symm.trans hl
      · exact ⟨k, hk, around', l, hlies, hl⟩

theorem concerns_of_opens (hopens : ast.opens? n = some scope) :
    ast.Concerns n (.scope scope.block) := .inl ⟨scope, hopens, rfl⟩

theorem OpenIn.of (h : ast.OpenIn around m scope) : (Fact.scope scope.block).Of ast m := by
  obtain ⟨around', n, hlies, hopens⟩ := h
  exact fun hlaid => (concerns_of_opens hopens).within (hlies.laid hlaid)

theorem Opens.of (h : ast.Opens [m] scopes) (hscope : scope ∈ scopes) :
    (Fact.scope scope.block).Of ast m := by
  obtain ⟨k, hk, hopen⟩ := (h.mem_iff []).mp hscope
  obtain rfl := List.mem_singleton.mp hk
  exact hopen.of

theorem Opens.within (h : ast.Opens ns scopes) (hlaid : Laid ast a ns c) (hscope : scope ∈ scopes) :
    (Fact.scope scope.block).Within a c := by
  obtain ⟨m, hm, hopen⟩ := (h.mem_iff []).mp hscope
  exact hopen.of (hlaid.mem hm)

theorem nodup_blocks_append (h : (scopes.map Surround.block).Nodup)
    (k : (scopes'.map Surround.block).Nodup)
    (hne : ∀ scope ∈ scopes, ∀ scope' ∈ scopes', scope.block ≠ scope'.block) :
    ((scopes ++ scopes').map Surround.block).Nodup := by
  rw [List.map_append]
  refine List.nodup_append.mpr ⟨h, k, fun block hblock block' hblock' => ?_⟩
  obtain ⟨scope, hscope, rfl⟩ := List.mem_map.mp hblock
  obtain ⟨scope', hscope', rfl⟩ := List.mem_map.mp hblock'
  exact hne scope hscope scope' hscope'

/-- Constructs that stand beside each other open scopes of different blocks. -/
theorem block_ne {scope' : Surround} (hlaid : Laid ast a ns c) (hm : m ∈ ns) (hn : n ∈ ns)
    (hne : m ≠ n) (h : (Fact.scope scope.block).Of ast m) (k : (Fact.scope scope'.block).Of ast n) :
    scope.block ≠ scope'.block := fun heq => hne (h.unique hlaid hm hn (heq ▸ k))

/-- No two scopes that are opened are of one block. -/
theorem Opens.nodup (h : ast.Opens ns scopes) (hlaid : Laid ast a ms c) (hsub : ∀ n ∈ ns, n ∈ ms)
    (hnodup : ns.Nodup) : (scopes.map Surround.block).Nodup := by
  induction h generalizing a c ms with
  | nil => exact List.nodup_nil
  | @cons n ns _ _ h₁ h₂ ih₁ ih₂ =>
    have hone : ∀ k ∈ [n], k ∈ ms := fun k hk => hsub k (by simp [List.mem_singleton.mp hk])
    have hrest : ∀ k ∈ ns, k ∈ ms := fun k hk => hsub k (List.mem_cons_of_mem _ hk)
    refine nodup_blocks_append (ih₁ hlaid hone (List.nodup_singleton n))
      (ih₂ hlaid hrest (List.nodup_cons.mp hnodup).2) fun scope hscope scope' hscope' => ?_
    obtain ⟨k, hk, hopen⟩ := (h₂.mem_iff []).mp hscope'
    exact block_ne hlaid (hsub n (List.mem_cons_self ..)) (hrest k hk)
      (fun heq => (List.nodup_cons.mp hnodup).1 (heq ▸ hk)) (h₁.of hscope) hopen.of
  | @scope n own _ _ hopens h₁ h₂ ih₁ ih₂ =>
    obtain ⟨b, d, ho⟩ := opened (hlaid.mem (hsub n (List.mem_singleton_self n))) hopens
    have hwithin₁ {scope : Surround} (hscope) : (Fact.scope scope.block).Within a b :=
      h₁.within ho.params hscope
    have hwithin₂ {scope : Surround} (hscope) : (Fact.scope scope.block).Within b d :=
      h₂.within ho.stmts hscope
    have hown : ¬ (Fact.scope own.block).Within a d := fun hwithin =>
      absurd hwithin.2 (Nat.not_lt_of_le ho.le_block)
    rw [List.map_cons]
    refine List.nodup_cons.mpr ⟨fun hblock => ?_, nodup_blocks_append
      (ih₁ ho.params (fun _ => id) ho.params.nodup) (ih₂ ho.stmts (fun _ => id) ho.stmts.nodup)
      fun scope hscope scope' hscope' heq => (hwithin₁ hscope).disjoint (heq ▸ hwithin₂ hscope')⟩
    obtain ⟨scope, hscope, heq⟩ := List.mem_map.mp hblock
    rcases List.mem_append.mp hscope with hscope | hscope
    · exact hown (heq ▸ (hwithin₁ hscope).mono (.refl a) ho.stmts.precedes)
    · exact hown (heq ▸ (hwithin₂ hscope).mono ho.params.precedes (.refl d))
  | @part n data _ hdata hopens hclass _ ih =>
    obtain ⟨b, d, hparts, -⟩ :=
      Walk.laid_parts (hlaid.mem (hsub n (List.mem_singleton_self n))) hdata
      hclass
    exact ih hparts (fun _ => id) hparts.nodup

/-! ### Classes -/

/-- A scope is opened within a class that is known, or within one in it. -/
def OpenInClass (ast : Ast) (classes : List ClassSummary) (m : NodeId) (scope : Surround) : Prop :=
  ∃ owner around n, Enters ast classes m owner around n ∧ ast.opens? n = some scope

theorem OpenInClass.of (h : ast.OpenInClass classes m scope) :
    (Fact.scope scope.block).Of ast m := by
  obtain ⟨owner, around, n, henters, hopens⟩ := h
  exact henters.of (concerns_of_opens hopens)

theorem OpensClasses.mem_iff (h : ast.OpensClasses classes ms scopes) :
    scope ∈ scopes ↔ ∃ m ∈ ms, ast.OpenInClass classes m scope := by
  induction h with
  | nil => simp
  | cons _ _ ih₁ ih₂ =>
    rw [List.mem_append, ih₁, ih₂, List.exists_mem_cons_iff]
    simp
  | @known m decl cl _ _ hdata hknown hmembers _ ih =>
    rw [List.mem_append, hmembers.mem_iff [classScope m], ih]
    constructor
    · rintro (⟨k, hk, around, n, hlies, hn⟩ | ⟨i, hi, owner, around, n, henters, hn⟩)
      · exact ⟨m, List.mem_singleton_self m, _, around, n, .member hdata hknown hk hlies, hn⟩
      · exact ⟨m, List.mem_singleton_self m, owner, around, n, .inner hdata hknown hi henters, hn⟩
    · rintro ⟨m', hm', owner, around, n, henters, hn⟩
      obtain rfl := List.mem_singleton.mp hm'
      cases henters with
      | here => simp [opens?, hdata] at hn
      | member hdata' _ hk hlies =>
        cases hdata.symm.trans hdata'
        exact .inl ⟨_, hk, around, n, hlies, hn⟩
      | inner hdata' _ hi henters =>
        cases hdata.symm.trans hdata'
        exact .inr ⟨_, hi, owner, around, n, henters, hn⟩
  | @unknown m decl hdata hknown =>
    refine iff_of_false List.not_mem_nil ?_
    rintro ⟨m', hm', owner, around, n, henters, -⟩
    obtain rfl := List.mem_singleton.mp hm'
    cases henters with
    | here _ h => cases hknown.symm.trans h
    | member _ h => cases hknown.symm.trans h
    | inner _ h => cases hknown.symm.trans h

theorem OpensClasses.of (h : ast.OpensClasses classes [m] scopes) (hscope : scope ∈ scopes) :
    (Fact.scope scope.block).Of ast m := by
  obtain ⟨k, hk, hopen⟩ := h.mem_iff.mp hscope
  obtain rfl := List.mem_singleton.mp hk
  exact hopen.of

theorem OpensClasses.nodup (h : ast.OpensClasses classes ns scopes) (hlaid : Laid ast a ms c)
    (hsub : ∀ n ∈ ns, n ∈ ms) (hnodup : ns.Nodup) : (scopes.map Surround.block).Nodup := by
  induction h generalizing a c ms with
  | nil => exact List.nodup_nil
  | @cons n ns _ _ h₁ h₂ ih₁ ih₂ =>
    have hone : ∀ k ∈ [n], k ∈ ms := fun k hk => hsub k (by simp [List.mem_singleton.mp hk])
    have hrest : ∀ k ∈ ns, k ∈ ms := fun k hk => hsub k (List.mem_cons_of_mem _ hk)
    refine nodup_blocks_append (ih₁ hlaid hone (List.nodup_singleton n))
      (ih₂ hlaid hrest (List.nodup_cons.mp hnodup).2) fun scope hscope scope' hscope' => ?_
    obtain ⟨k, hk, hopen⟩ := h₂.mem_iff.mp hscope'
    exact block_ne hlaid (hsub n (List.mem_cons_self ..)) (hrest k hk)
      (fun heq => (List.nodup_cons.mp hnodup).1 (heq ▸ hk)) (h₁.of hscope) hopen.of
  | @known m decl cl _ _ hdata hknown hmembers hinner ih =>
    obtain ⟨b, d, e, parts, hparts, hperm, hm, -⟩ :=
      (hlaid.mem (hsub m (List.mem_singleton_self m))).of_data
      hdata
    obtain ⟨-, -, -, -, himports, hbody⟩ := hm.formed
    have hperm : parts.Perm (decl.fields ++ decl.methods ++ decl.inner) := by
      simpa [NodeData.Arranged, NodeData.parts, himports, hbody] using hperm
    have hall := hperm.nodup hparts.nodup
    have hmembersIn : ∀ k ∈ decl.fields ++ decl.methods, k ∈ parts := fun k hk =>
      hperm.mem_iff.mpr (List.mem_append_left _ hk)
    have hinnerIn : ∀ k ∈ decl.inner, k ∈ parts := fun k hk =>
      hperm.mem_iff.mpr (List.mem_append_right _ hk)
    obtain ⟨hnodup₁, hnodup₂, happart⟩ := List.nodup_append.mp hall
    refine nodup_blocks_append (hmembers.nodup hparts hmembersIn hnodup₁)
      (ih hparts hinnerIn hnodup₂) fun scope hscope scope' hscope' => ?_
    obtain ⟨k, hk, hopen⟩ := (hmembers.mem_iff []).mp hscope
    obtain ⟨i, hi, hopen'⟩ := hinner.mem_iff.mp hscope'
    exact block_ne hparts (hmembersIn k hk) (hinnerIn i hi) (happart k hk i hi) hopen.of
      hopen'.of
  | unknown => exact List.nodup_nil

end Ast

/-! ### Scripts -/

section

variable {input : ResolveInput} {r : Resolution} {mk : MarkerId → Marker} {events : List Event}
  {parts : ScriptParts} {scopes scopes' : List Surround} {scope : Surround}

/-- The scopes that are opened in a script are those of the nodes that are walked. -/
theorem mem_opened_iff (hbody : input.ast.Opens [parts.body] scopes)
    (hinner : input.ast.OpensClasses r.classes parts.decl.inner scopes') :
    scope ∈ scopes ++ scopes' ↔
      ∃ owner around n, Visited input r parts owner around n ∧ input.ast.opens? n = some scope := by
  rw [List.mem_append, hbody.mem_iff [], hinner.mem_iff]
  constructor
  · rintro (⟨m, hm, around, n, hlies, hn⟩ | ⟨i, hi, owner, around, n, henters, hn⟩)
    · exact ⟨_, around, n, .inl ⟨rfl, m, hm, hlies⟩, hn⟩
    · exact ⟨owner, around, n, .inr ⟨i, hi, henters⟩, hn⟩
  · rintro ⟨owner, around, n, ⟨-, m, hm, hlies⟩ | ⟨i, hi, henters⟩, hn⟩
    · exact .inl ⟨m, hm, around, n, hlies, hn⟩
    · exact .inr ⟨i, hi, owner, around, n, henters, hn⟩

theorem nodup_opened (h : ScriptRecorded input.ast mk events input.root parts)
    (hbody : input.ast.Opens [parts.body] scopes)
    (hinner : input.ast.OpensClasses r.classes parts.decl.inner scopes') :
    ((scopes ++ scopes').map Surround.block).Nodup := by
  have hclasses : parts.decl.inner.Nodup :=
    (List.nodup_append.mp (List.nodup_append.mp (h.perm.nodup h.laid.nodup)).1).2.1
  refine Ast.nodup_blocks_append
    (hbody.nodup h.laid_body (fun _ => id) (List.nodup_singleton _))
    (hinner.nodup h.laid (fun i hi => h.perm.mem_iff.mpr (by simp [hi])) hclasses)
    fun scope hscope scope' hscope' heq => ?_
  obtain ⟨m, hm, around, n, hlies, hn⟩ := (hbody.mem_iff []).mp hscope
  obtain ⟨i, hi, hopen⟩ := hinner.mem_iff.mp hscope'
  exact h.not_of_class hi ⟨m, hm, around, n, hlies, Ast.concerns_of_opens hn⟩ (heq ▸ hopen.of)

end

end ScriptAnalysis
