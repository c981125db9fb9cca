import ScriptAnalysis.Proofs.Scope.Enclosing
import ScriptAnalysis.Proofs.Scope.Lexical
import ScriptAnalysis.Proofs.Scope.Paired

/-!
# Globals fill gaps

The same script with more globals has the same scopes and classes.  A name changes its meaning only
in code of the class of the script, and only if it referred to nothing or to a class: then it refers
to the global.  A class is told from the script by its full name alone, so a class that goes by the
full name of the script sees the globals as well.
-/

namespace ScriptAnalysis

/-- There are more globals, and those there were have the same types. -/
def Globals.ExtendedBy (g g' : Globals) : Prop :=
  ∀ name type, g.type? name = some type → g'.type? name = some type

namespace Globals

variable {g g' : Globals} {name : String}

theorem contains_eq_isSome (g : Globals) (name : String) :
    g.contains name = (g.type? name).isSome := Std.TreeMap.contains_eq_isSome_getElem?

theorem ExtendedBy.contains (h : g.ExtendedBy g') (hname : g.contains name = true) :
    g'.contains name = true := by
  rw [contains_eq_isSome] at hname ⊢
  obtain ⟨type, htype⟩ := Option.isSome_iff_exists.mp hname
  rw [h name type htype]
  rfl

end Globals

/-- The same script with other globals. -/
def ResolveInput.under (input : ResolveInput) (globals : Globals) : ResolveInput :=
  { input with globals }

/-! ### Scopes do not depend on globals -/

/-- Walks at the same place, with the same scopes and the same classes. -/
structure WalkState.SameScopes (s t : WalkState) : Prop where
  header : s.resolution.header = t.resolution.header
  blocks : s.resolution.blocks = t.resolution.blocks
  nodeBlock : s.resolution.nodeBlock = t.resolution.nodeBlock
  block : s.block = t.block
  owner : s.owner = t.owner

namespace WalkState.SameScopes

variable {s t u : WalkState}

theorem symm (h : s.SameScopes t) : t.SameScopes s :=
  ⟨h.header.symm, h.blocks.symm, h.nodeBlock.symm, h.block.symm, h.owner.symm⟩

theorem trans (h : s.SameScopes t) (k : t.SameScopes u) : s.SameScopes u :=
  ⟨h.header.trans k.header, h.blocks.trans k.blocks, h.nodeBlock.trans k.nodeBlock,
    h.block.trans k.block, h.owner.trans k.owner⟩

end WalkState.SameScopes

namespace Walk

/-- Whatever a name is bound to, no scope changes. -/
theorem leads_bindName_scopes (input : ResolveInput) (node : NodeId) (name : String)
    (s : WalkState) : (bindName input node name).Leads s fun _ s' => s.SameScopes s' := by
  have hconsult {α : Type} (x : Consulted α) (s : WalkState) :
      (consult x).Leads s fun _ s' => s.SameScopes s' := ⟨rfl, rfl, rfl, rfl, rfl⟩
  have hlookup : (lookup input name).Leads s fun _ s' => s.SameScopes s' := by
    unfold lookup resolveClass
    simp only [leads_bind, leads_get]
    split
    · exact ⟨rfl, rfl, rfl, rfl, rfl⟩
    · refine leads_bind.mpr ((hconsult _ s).mono fun chain s₁ hs₁ => ?_)
      split
      · exact hs₁
      · split
        · exact hs₁
        · simp only [leads_bind, leads_get, leads_pure]
          exact (hconsult _ s₁).mono fun _ s₂ hs₂ => hs₁.trans hs₂
  refine leads_bind.mpr (hlookup.mono fun found s' hs => ?_)
  cases found with
  | none => exact hs.trans ⟨rfl, rfl, rfl, rfl, rfl⟩
  | some binding => exact hs.trans ⟨rfl, rfl, rfl, rfl, rfl⟩

/-- Walks over one script with different globals go side by side. -/
theorem parallel_under (input : ResolveInput) (g g' : Globals) :
    Parallel (input.under g) (input.under g') WalkState.SameScopes where
  ast := ⟨rfl, fun _ => rfl⟩
  others := rfl
  header hst := hst.header
  blocks hst := hst.blocks
  block hst := hst.block
  owner hst := hst.owner
  atBlock hst _ := { hst with block := rfl }
  ofOwner hst _ := { hst with owner := rfl }
  scopes hst f := { hst with blocks := congrArg f hst.blocks }
  noted hst f := { hst with nodeBlock := congrArg f hst.nodeBlock }
  consult _ _ _ hst := ⟨rfl, { hst with }⟩
  report _ _ _ _ _ hst := ⟨rfl, { hst with }⟩
  bindTo _ _ _ _ hst := ⟨rfl, { hst with }⟩
  bindName node name s t hst := ⟨rfl, (leads_bindName_scopes _ node name s).symm.trans
    (hst.trans (leads_bindName_scopes _ node name t))⟩
  evident hst _ := .inr fun _ _ => { hst with }

end Walk

namespace ResolveInput

/-- With whatever globals, a script has the same scopes and the same classes. -/
theorem scopes_under (input : ResolveInput) (g g' : Globals) :
    (input.under g).resolve.value.header = (input.under g').resolve.value.header ∧
      (input.under g).resolve.value.blocks = (input.under g').resolve.value.blocks ∧
      (input.under g).resolve.value.nodeBlock = (input.under g').resolve.value.nodeBlock := by
  cases hscript : input.ast.classDecl? input.root with
  | none =>
    have hnone (g : Globals) : (input.under g).resolve.value = {} := by
      unfold resolve
      rw [show (input.under g).ast.classDecl? (input.under g).root = none from hscript]
      rfl
    rw [hnone g, hnone g']
    exact ⟨rfl, rfl, rfl⟩
  | some script =>
    have hparallel := Walk.parallel_under input g g'
    have hwalk := (Walk.paired_walkScript hparallel
      (Walk.paired_visitors hparallel input.ast.size) script ((input.under g).start script)
      ((input.under g').start script) ⟨rfl, rfl, rfl, rfl, rfl⟩).2
    have hvalue (g : Globals) := resolve_value_of_script
      (show (input.under g).ast.classDecl? (input.under g).root = some script from hscript)
    rw [hvalue g, hvalue g']
    exact ⟨hwalk.header, hwalk.blocks, hwalk.nodeBlock⟩

/-! ### What names refer to -/

theorem meaning_congr (input : ResolveInput) {r r' : Resolution} (h : r.header = r'.header)
    (owner : String) (around : List Surround) (name : String) (offset : Nat) :
    input.meaning r owner (r.classChain input.others owner).value around name offset =
      input.meaning r' owner (r'.classChain input.others owner).value around name offset := by
  have hscript : r.scriptClass = r'.scriptClass := congrArg Resolution.Header.scriptClass h
  unfold meaning
  rw [Resolution.classChain_congr _ h, Resolution.resolveClass_congr _ h, hscript]

theorem bindingAt_congr (input : ResolveInput) {r r' : Resolution} (h : r.header = r'.header)
    (owner : String) (around : List Surround) (n : NodeId) :
    input.bindingAt r owner around n = input.bindingAt r' owner around n := by
  unfold bindingAt
  simp only [meaning_congr input h, Resolution.resolveClass_congr _ h]

end ResolveInput

/-- A global may be meant instead: nothing is, or a class. -/
def Binding.Yields (found : Option Binding) : Prop :=
  found = none ∨ ∃ fullName, found = some (.toClass fullName)

theorem Binding.not_yields_member {c : ClassSummary} {name : String} {binding : Binding}
    (h : c.memberBinding? name = some binding) : ¬ Binding.Yields (some binding) := by
  rintro (hnone | ⟨fullName, hclass⟩)
  · cases hnone
  · cases hclass
    unfold ClassSummary.memberBinding? at h
    split at h
    · cases h
    · split at h <;> cases h

namespace ResolveInput

variable {input : ResolveInput} {g g' : Globals} {r : Resolution} {owner name : String}
  {chain : List ClassSummary} {around : List Surround} {offset : Nat} {n : NodeId}

theorem meaning_under (g : Globals) :
    (input.under g).meaning r owner chain around name offset =
      match around.findSome? fun scope => scope.find? input.ast name offset with
      | some decl => some (.localDecl decl)
      | none =>
        match chain.findSome? fun c => c.memberBinding? name with
        | some binding => some binding
        | none =>
          if owner = r.scriptClass && g.contains name then some (.global name)
          else (r.resolveClass input.others name owner).value.map fun c => .toClass c.fullName :=
            rfl

/-- In code of the script's class, what may be a global is one if there is a global of the name. -/
theorem meaning_of_global (howner : owner = r.scriptClass) (hname : g'.contains name = true)
    (h : Binding.Yields ((input.under g).meaning r owner chain around name offset)) :
    (input.under g').meaning r owner chain around name offset = some (.global name) := by
  rw [meaning_under] at h ⊢
  split at h
  · rcases h with hnone | ⟨fullName, hclass⟩
    · cases hnone
    · cases hclass
  · cases hmember : chain.findSome? fun c => c.memberBinding? name with
    | some binding =>
      rw [hmember] at h
      obtain ⟨c, -, hc⟩ := List.exists_of_findSome?_eq_some hmember
      exact absurd h (Binding.not_yields_member hc)
    | none => simp [howner, hname]

/-- With more globals a name means the same, unless it is the name of a new one in code of the
    script's class, and meant nothing or a class. -/
theorem meaning_extended (h : g.ExtendedBy g')
    (hne : (input.under g).meaning r owner chain around name offset ≠
      (input.under g').meaning r owner chain around name offset) :
    owner = r.scriptClass ∧ g'.contains name = true ∧ g.contains name = false ∧
      Binding.Yields ((input.under g).meaning r owner chain around name offset) := by
  have hgap : owner = r.scriptClass ∧ g'.contains name = true ∧ g.contains name = false := by
    by_contra hnot
    refine hne ?_
    have hsame : (decide (owner = r.scriptClass) && g.contains name) =
        (decide (owner = r.scriptClass) && g'.contains name) := by
      by_cases howner : owner = r.scriptClass
      · have hcontains : g.contains name = true → g'.contains name = true := h.contains
        revert hcontains hnot
        cases g.contains name <;> cases g'.contains name <;> simp [howner]
      · simp [howner]
    rw [meaning_under, meaning_under, hsame]
  obtain ⟨rfl, hnew, hold⟩ := hgap
  refine ⟨rfl, hnew, hold, ?_⟩
  rw [meaning_under, meaning_under] at hne
  rw [meaning_under]
  split at hne
  · exact absurd rfl hne
  · split at hne
    · exact absurd rfl hne
    · rw [hold, Bool.and_false, if_neg Bool.false_ne_true]
      cases (r.resolveClass input.others name r.scriptClass).value with
      | none => exact .inl rfl
      | some c => exact .inr ⟨c.fullName, rfl⟩

end ResolveInput

/-! ### The class to which code belongs -/

section

variable {input : ResolveInput} {r r₁ r₂ : Resolution} {mk : MarkerId → Marker}
  {events : List Event}
  {parts : ScriptParts} {owner name : String} {around around' : List Surround} {m n : NodeId}

/-- The scopes around a place belong to the class. -/
def Resolution.Owned (r : Resolution) (owner : String) (around : List Surround) : Prop :=
  ∀ scope ∈ around, (r.blocks[scope.block]?).map BlockScope.owningClass = some owner

theorem Ast.Lies.ne_nil {ast : Ast} (h : ast.Lies around m around' n) (hne : around ≠ []) :
    around' ≠ [] := by
  induction h with
  | here => exact hne
  | part _ _ _ _ _ ih => exact ih hne
  | param _ _ _ ih => exact ih (List.cons_ne_nil _ _)
  | stmt _ _ _ ih => exact ih (List.cons_ne_nil _ _)

/-- If a construct is settled in code of a class, the scopes in it belong to that class. -/
theorem Ast.Lies.owned (hlies : input.ast.Lies around m around' n)
    (hsettled : ∀ {around' n}, input.ast.Lies around m around' n →
      Settled input r owner around' n r₁ r₂)
    (h : r₂.Owned owner around) : r₂.Owned owner around' := by
  induction hlies with
  | here => exact h
  | part hdata hopens hclass hk _ ih =>
    exact ih (fun hlies => hsettled (.part hdata hopens hclass hk hlies)) h
  | param hopens hk _ ih =>
    have hscope := (hsettled (.here _ _)).scope _ hopens
    refine ih (fun hlies => hsettled (.param hopens hk hlies)) (List.forall_mem_cons.mpr ⟨?_, h⟩)
    exact congrArg (Option.map BlockScope.owningClass) hscope
  | stmt hopens hk _ ih =>
    have hscope := (hsettled (.here _ _)).scope _ hopens
    refine ih (fun hlies => hsettled (.stmt hopens hk hlies)) (List.forall_mem_cons.mpr ⟨?_, h⟩)
    exact congrArg (Option.map BlockScope.owningClass) hscope

theorem Enters.owned (h : Enters input.ast r.classes m owner around n)
    (hsettled : ∀ {owner around n}, Enters input.ast r.classes m owner around n →
      Settled input r owner around n r₁ r₂) : r₂.Owned owner around := by
  have hclass {m : NodeId} {decl : ClassDecl} {owner : String}
      (hdata : input.ast.data? m = some (.classDecl decl))
      (hm : Settled input r owner [classScope m] m r₁ r₂) : r₂.Owned owner [classScope m] := by
    intro scope hscope
    obtain rfl := List.mem_singleton.mp hscope
    exact congrArg (Option.map BlockScope.owningClass) (hm.ofClass decl hdata)
  induction h with
  | here hdata hknown => exact hclass hdata (hsettled (.here hdata hknown))
  | member hdata hknown hk hlies =>
    exact hlies.owned (fun hlies => hsettled (.member hdata hknown hk hlies))
      (hclass hdata (hsettled (.here hdata hknown)))
  | inner hdata hknown hi _ ih => exact ih fun h => hsettled (.inner hdata hknown hi h)

theorem Enters.ne_nil {ast : Ast} {classes : List ClassSummary}
    (h : Enters ast classes m owner around n) : around ≠ [] := by
  induction h with
  | here => exact List.cons_ne_nil _ _
  | member _ _ _ hlies => exact hlies.ne_nil (List.cons_ne_nil _ _)
  | inner _ _ _ _ ih => exact ih

/-- The scope of a construct is that of a block. -/
theorem Ast.isBlock_of_opens {ast : Ast} {a c : ParsePoint} {scope : Surround}
    (hlaid : Laid ast a [m] c) (hopens : ast.opens? m = some scope) : ast.IsBlock scope.block := by
  obtain ⟨_, _, _, data, _, -, -, hallots, -⟩ := Laid.single_iff.mp hlaid
  have hdata := hallots.found
  have hformed := hallots.formed
  unfold opens? at hopens
  rw [hdata] at hopens
  split at hopens
  · next heq =>
    cases heq
    cases hopens
    exact hformed.2
  · next heq =>
    cases heq
    cases hopens
    exact hformed.2
  · next stmts heq =>
    cases heq
    cases hopens
    exact ⟨stmts, hdata⟩
  · cases hopens

namespace Visited

theorem owned (h : ScriptRecorded input.ast mk events input.root parts)
    (hn : Visited input input.resolve.value parts owner around n) :
    input.resolve.value.Owned owner around := by
  have hfinds := ResolveInput.resolve_finds h
  rcases hn with ⟨rfl, k, hk, hlies⟩ | ⟨i, hi, henters⟩
  · exact hlies.owned (fun hlies => hfinds.settled (.inl ⟨rfl, k, hk, hlies⟩))
      (by simp [Resolution.Owned])
  · exact henters.owned fun henters => hfinds.settled (.inr ⟨i, hi, henters⟩)

theorem laid (h : ScriptRecorded input.ast mk events input.root parts)
    (hn : Visited input r parts owner around n) : ∃ c, Laid input.ast ⟨0, 0⟩ [n] c := by
  rcases hn with ⟨-, k, hk, hlies⟩ | ⟨i, hi, henters⟩
  · obtain rfl := List.mem_singleton.mp hk
    exact ⟨_, hlies.laid h.laid_body⟩
  · exact ⟨_, henters.laid (h.laid_class hi)⟩

/-- Every name that is walked lies in a scope. -/
theorem ne_nil_of_isName (h : ScriptRecorded input.ast mk events input.root parts)
    (hn : Visited input r parts owner around n) (hname : input.ast.IsName n name) :
    around ≠ [] := by
  rcases hn with ⟨-, k, hk, hlies⟩ | ⟨i, hi, henters⟩
  · obtain rfl := List.mem_singleton.mp hk
    rcases hlies.scope_cases h.opens?_body with ⟨-, rfl⟩ | ⟨k, -, hlies⟩ | ⟨k, -, hlies⟩
    · rcases hname with hname | ⟨value, hname⟩
      · cases h.data_body.symm.trans hname
      · cases h.data_body.symm.trans hname
    · exact hlies.ne_nil (List.cons_ne_nil _ _)
    · exact hlies.ne_nil (List.cons_ne_nil _ _)
  · exact henters.ne_nil

/-- The innermost scope is noted for every name that is walked. -/
theorem noted (h : ScriptRecorded input.ast mk events input.root parts)
    (hn : Visited input input.resolve.value parts owner around n)
    (hname : input.ast.IsName n name) :
    input.resolve.value.nodeBlock[n]? = innermost around := by
  refine ((ResolveInput.resolve_finds h).settled hn).noted (fun hfield => ?_)
    Std.TreeMap.getElem?_emptyc
  obtain ⟨owner, m, decl, field, hm, hdecl, hmem, hdata⟩ :=
    ResolveInput.isFieldDecl_of_known h hfield
  obtain ⟨hfields, -⟩ := (ResolveInput.Nests.ofClass hm).formed h (Ast.classDecl?_eq_some.mp hdecl)
  obtain ⟨d, v, hd, hv⟩ := hfields field hmem
  cases hdata.symm.trans hd
  rcases hname with hname | ⟨value, hname⟩
  · cases hv.symm.trans hname
  · cases hv.symm.trans hname

/-- A name that is walked has a scope, which belongs to the class of the code. -/
theorem scopeOf (h : ScriptRecorded input.ast mk events input.root parts)
    (hn : Visited input input.resolve.value parts owner around n)
    (hname : input.ast.IsName n name) :
    (input.resolve.value.scopeOf? n).map BlockScope.owningClass = some owner := by
  have hnoted := hn.noted h hname
  obtain ⟨scope, outer, rfl⟩ := List.exists_cons_of_ne_nil (hn.ne_nil_of_isName h hname)
  have howned := hn.owned h scope (List.mem_cons_self ..)
  unfold Resolution.scopeOf?
  rw [hnoted]
  exact howned

end Visited

/-- A name that has a scope was walked. -/
theorem ResolveInput.visited_of_scope (h : ScriptRecorded input.ast mk events input.root parts)
    (hname : input.ast.IsName n name) {block : NodeId}
    (hblock : input.resolve.value.nodeBlock[n]? = some block) :
    ∃ owner around, Visited input input.resolve.value parts owner around n := by
  have haltered : Altered input input.resolve.value parts (.noted n) := by
    by_contra hnot
    have hsame : input.resolve.value.nodeBlock[n]? =
        (input.start parts.decl).resolution.nodeBlock[n]? := (resolve_finds h).alters.same _ hnot
    rw [hsame] at hblock
    cases Std.TreeMap.getElem?_emptyc.symm.trans hblock
  obtain ⟨owner, around, k, hvisited, rfl | ⟨scope, hopens, rfl⟩⟩ := Visited.of_altered haltered
  · exact ⟨owner, around, hvisited⟩
  · obtain ⟨c, hlaid⟩ := hvisited.laid h
    obtain ⟨stmts, hstmts⟩ := Ast.isBlock_of_opens hlaid hopens
    rcases hname with hname | ⟨value, hname⟩
    · cases hstmts.symm.trans hname
    · cases hstmts.symm.trans hname

end

/-! ### Scripts -/

/-- What is bound under more globals: the scopes and the classes are the same, and a binding differs
    only at a name of a new global, in code of the script's class, that was not bound or to a
    class. -/
structure FillsGaps (ast : Ast) (g g' : Globals) (r r' : Resolution) : Prop where
  blocks : r.blocks = r'.blocks
  nodeBlock : r.nodeBlock = r'.nodeBlock
  classes : r.classes = r'.classes
  imports : r.imports = r'.imports
  differs : ∀ n, r.bindings[n]? ≠ r'.bindings[n]? → ∃ name, ast.IsName n name ∧
    (r.scopeOf? n).map BlockScope.owningClass = some r.scriptClass ∧
    g'.contains name = true ∧ g.contains name = false ∧ Binding.Yields r.bindings[n]? ∧
    r'.bindings[n]? = some (.global name)
  /-- Every such name is filled. -/
  fills : ∀ n name, ast.IsName n name →
    (r.scopeOf? n).map BlockScope.owningClass = some r.scriptClass →
    g'.contains name = true → Binding.Yields r.bindings[n]? →
    r'.bindings[n]? = some (.global name)
  /-- Variables, functions, members and globals stay what they are. -/
  kept : ∀ (n : NodeId) (binding : Binding), r.bindings[n]? = some binding →
    (∀ c, binding ≠ .toClass c) → r'.bindings[n]? = some binding
  /-- Nothing changes in code of a class with another full name. -/
  ofClass : ∀ n, (r.scopeOf? n).map BlockScope.owningClass ≠ some r.scriptClass →
    r.bindings[n]? = r'.bindings[n]?

namespace ResolveInput

variable {input : ResolveInput} {mk : MarkerId → Marker} {events : List Event} {parts : ScriptParts}
  {owner name : String} {around : List Surround} {n : NodeId}

/-- Only what a name is bound to depends on the globals. -/
theorem bindingAt_under (g g' : Globals) (r : Resolution)
    (hname : ∀ name, ¬ input.ast.IsName n name) :
    (input.under g).bindingAt r owner around n = (input.under g').bindingAt r owner around n := by
  unfold bindingAt
  dsimp only [under]
  split
  · next hdata => exact absurd (.inl hdata) (hname _)
  · next hdata => exact absurd (.inr ⟨_, hdata⟩) (hname _)
  · rfl
  · rfl

/-- Walks with other globals come to the same nodes. -/
theorem visited_under (g g' : Globals) : Visited input (input.under g').resolve.value parts =
    Visited input (input.under g).resolve.value parts := by
  obtain ⟨hheader, -, -⟩ := input.scopes_under g g'
  have hclasses : (input.under g).resolve.value.classes = (input.under g').resolve.value.classes :=
    congrArg Resolution.Header.classes hheader
  have hscript : (input.under g).resolve.value.scriptClass =
      (input.under g').resolve.value.scriptClass := congrArg Resolution.Header.scriptClass hheader
  unfold Visited
  rw [hclasses, hscript]

/-- A node is bound to what it means under the globals at hand, wherever other globals place it. -/
theorem bindings_under (h : ScriptRecorded input.ast mk events input.root parts) (g g' : Globals)
    (hn : Visited input (input.under g).resolve.value parts owner around n) :
    (input.under g').resolve.value.bindings[n]? =
      (input.under g').bindingAt (input.under g).resolve.value owner around n := by
  have h : ScriptRecorded (input.under g').ast mk events (input.under g').root parts := h
  rw [← visited_under g g'] at hn
  rw [bindingAt_congr (input.under g') (input.scopes_under g g').1]
  exact bindings_resolve h hn

theorem visited_of_differs (h : ScriptRecorded input.ast mk events input.root parts)
    {g g' : Globals} (hne : (input.under g).resolve.value.bindings[n]? ≠
      (input.under g').resolve.value.bindings[n]?) :
    ∃ owner around, Visited input (input.under g).resolve.value parts owner around n := by
  have hbound (g : Globals) {binding : Binding}
      (hb : (input.under g).resolve.value.bindings[n]? = some binding) :
      ∃ owner around, Visited input (input.under g).resolve.value parts owner around n := by
    have h : ScriptRecorded (input.under g).ast mk events (input.under g).root parts := h
    exact visited_of_binding h hb
  cases hb : (input.under g).resolve.value.bindings[n]? with
  | some binding => exact hbound g hb
  | none =>
    rw [hb] at hne
    obtain ⟨binding, hb'⟩ := Option.ne_none_iff_exists'.mp hne.symm
    rw [← visited_under g g']
    exact hbound g' hb'

/-- Code belongs to the class that the scope around it tells. -/
theorem owner_under (h : ScriptRecorded input.ast mk events input.root parts) (g : Globals)
    (hn : Visited input (input.under g).resolve.value parts owner around n)
    (hname : input.ast.IsName n name) :
    ((input.under g).resolve.value.scopeOf? n).map BlockScope.owningClass = some owner := by
  have h : ScriptRecorded (input.under g).ast mk events (input.under g).root parts := h
  exact hn.scopeOf h hname

/-- Only names of new globals in code of the script's class are bound to something else. -/
theorem differs_under (h : ScriptRecorded input.ast mk events input.root parts) {g g' : Globals}
    (hext : g.ExtendedBy g')
    (hne : (input.under g).resolve.value.bindings[n]? ≠
      (input.under g').resolve.value.bindings[n]?) :
    ∃ name, input.ast.IsName n name ∧
      ((input.under g).resolve.value.scopeOf? n).map BlockScope.owningClass =
        some (input.under g).resolve.value.scriptClass ∧
      g'.contains name = true ∧ g.contains name = false ∧
      Binding.Yields (input.under g).resolve.value.bindings[n]? ∧
      (input.under g').resolve.value.bindings[n]? = some (.global name) := by
  obtain ⟨owner, around, hn⟩ := visited_of_differs h hne
  rw [bindings_under h g g hn, bindings_under h g g' hn] at hne ⊢
  by_cases hname : ∃ name, input.ast.IsName n name
  · obtain ⟨name, hname⟩ := hname
    have howner := owner_under h g hn hname
    rw [bindingAt_of_isName (input.under g) hname,
      bindingAt_of_isName (input.under g') hname] at hne ⊢
    obtain ⟨rfl, hnew, hold, hyields⟩ := meaning_extended hext hne
    exact ⟨name, hname, howner, hnew, hold, hyields, meaning_of_global rfl hnew hyields⟩
  · exact absurd (bindingAt_under g g' _ fun name h => hname ⟨name, h⟩) hne

theorem fillsGaps (h : ScriptRecorded input.ast mk events input.root parts) {g g' : Globals}
    (hext : g.ExtendedBy g') :
    FillsGaps input.ast g g' (input.under g).resolve.value (input.under g').resolve.value := by
  obtain ⟨hheader, hblocks, hnodeBlock⟩ := input.scopes_under g g'
  refine ⟨hblocks, hnodeBlock, congrArg Resolution.Header.classes hheader,
    congrArg Resolution.Header.imports hheader, fun n => differs_under h hext, ?_, ?_, ?_⟩
  · intro n name hname howner hnew hyields
    obtain ⟨scope, hscope, -⟩ := Option.map_eq_some_iff.mp howner
    obtain ⟨block, hblock, -⟩ := Option.bind_eq_some_iff.mp hscope
    obtain ⟨owner, around, hn⟩ : ∃ owner around,
        Visited input (input.under g).resolve.value parts owner around n := by
      have h : ScriptRecorded (input.under g).ast mk events (input.under g).root parts := h
      exact visited_of_scope h hname hblock
    obtain rfl := Option.some.inj ((owner_under h g hn hname).symm.trans howner)
    rw [bindings_under h g g hn, bindingAt_of_isName (input.under g) hname] at hyields
    rw [bindings_under h g g' hn, bindingAt_of_isName (input.under g') hname]
    exact meaning_of_global rfl hnew hyields
  · intro n binding hbinding hclass
    by_contra hne
    obtain ⟨-, -, -, -, -, hyields, -⟩ := differs_under h hext fun heq => hne (heq ▸ hbinding)
    rw [hbinding] at hyields
    rcases hyields with hnone | ⟨c, hc⟩
    · cases hnone
    · exact hclass c (Option.some.inj hc)
  · intro n howner
    by_contra hne
    obtain ⟨-, -, hscoped, -⟩ := differs_under h hext hne
    exact howner hscoped

/-- In every text, more globals fill gaps in code of the script's class, and change nothing else. -/
theorem globals_fill_gaps (text scriptName : String) (file : FileId) (others : ClassLookup)
    {g g' : Globals} (hext : g.ExtendedBy g') : ∃ p, parseScript text = .ok p ∧
      FillsGaps p.ast g g' (ResolveInput.mk file scriptName p.ast p.root g others).resolve.value
        (ResolveInput.mk file scriptName p.ast p.root g' others).resolve.value := by
  obtain ⟨p, -, -, -, hp, -⟩ := parseWith_script text (scan_endsWithEof text)
  obtain ⟨parts, hparts⟩ := ScriptRecorded.of_parse hp
  have h : ScriptRecorded (ResolveInput.mk file scriptName p.ast p.root g others).ast _ _
      (ResolveInput.mk file scriptName p.ast p.root g others).root parts := hparts
  exact ⟨p, hp, fillsGaps h hext⟩

/-- A name that is a gap without globals, and filled with them. -/
theorem new_global_fills_gap : Globals.empty.ExtendedBy (.ofList [("x", "Object")]) ∧
    ∃ p, parseScript "x" = .ok p ∧
      FillsGaps p.ast .empty (.ofList [("x", "Object")])
        (ResolveInput.mk 0 "S" p.ast p.root .empty .none).resolve.value
        (ResolveInput.mk 0 "S" p.ast p.root (.ofList [("x", "Object")]) .none).resolve.value ∧
      (ResolveInput.mk 0 "S" p.ast p.root .empty .none).resolve.value.bindings[0]? = none ∧
      (ResolveInput.mk 0 "S" p.ast p.root (.ofList [("x", "Object")])
        .none).resolve.value.bindings[0]? =
        some (.global "x") := by
  have hext : Globals.empty.ExtendedBy (.ofList [("x", "Object")]) := by
    intro name type htype
    cases Std.TreeMap.getElem?_emptyc.symm.trans htype
  obtain ⟨p, hp, hfills⟩ := globals_fill_gaps "x" "S" 0 .none hext
  obtain ⟨hname, hscope, hnone⟩ := of_parse hp
    (P := fun p => p.ast.data? 0 = some (.identifier "x") ∧
    ((ResolveInput.mk 0 "S" p.ast p.root .empty .none).resolve.value.scopeOf? 0).map
      BlockScope.owningClass =
        some (ResolveInput.mk 0 "S" p.ast p.root .empty .none).resolve.value.scriptClass ∧
    (ResolveInput.mk 0 "S" p.ast p.root .empty .none).resolve.value.bindings[0]? = none)
    (by decide +kernel)
  exact ⟨hext, p, hp, hfills, hnone,
    hfills.fills 0 "x" (.inl hname) hscope (by decide +kernel) (.inl hnone)⟩

/-- A class that bears the name of the script sees the globals: in its method a name that meant
    nothing is a global. -/
theorem globals_reach_class_of_script_name : Globals.empty.ExtendedBy (.ofList [("x", "Object")]) ∧
    ∃ p, parseScript "class S\x7bA f()\x7bx\x7d\x7d" = .ok p ∧
      let r := (ResolveInput.mk 0 "S" p.ast p.root .empty .none).resolve.value
      let r' := (ResolveInput.mk 0 "S" p.ast p.root (.ofList [("x", "Object")]) .none).resolve.value
      ∃ m n : NodeId, (ResolveInput.mk 0 "S" p.ast p.root .empty .none).Declares "S" m ∧
        m ≠ p.root ∧ p.ast.Reaches m n ∧
        r.bindings[n]? = none ∧ r'.bindings[n]? = some (.global "x") := by
  have hext : Globals.empty.ExtendedBy (.ofList [("x", "Object")]) := by
    intro name type htype
    cases Std.TreeMap.getElem?_emptyc.symm.trans htype
  obtain ⟨p, -, -, -, hp, -⟩ := parseWith_script "class S\x7bA f()\x7bx\x7d\x7d"
    (scan_endsWithEof _)
  obtain ⟨hroot, hclass, hfun, hdecl, hbody, hstmt, hbound⟩ := of_parse hp (P := fun p =>
      p.ast.data? p.root = some (.classDecl { inner := [8], body := some 9, isScript := true }) ∧
      p.ast.data? 8 = some (.classDecl { name := "S", methods := [7] }) ∧
      p.ast.data? 7 = some (.funDecl 6) ∧
      p.ast.data? 6 = some (.funDeclExpr ⟨"f", 10, .named "A", [], 5, true⟩) ∧
      p.ast.data? 5 = some (.block [4]) ∧ p.ast.data? 4 = some (.exprStmt 3) ∧
      p.root ≠ 8 ∧
      (ResolveInput.mk 0 "S" p.ast p.root .empty .none).resolve.value.bindings[3]? = none ∧
      (ResolveInput.mk 0 "S" p.ast p.root (.ofList [("x", "Object")])
        .none).resolve.value.bindings[3]? =
        some (.global "x")) (by decide +kernel)
  obtain ⟨hne, hbefore, hafter⟩ := hbound
  have hscript : (ResolveInput.mk 0 "S" p.ast p.root .empty .none).ast.classDecl? p.root =
      some { inner := [8], body := some 9, isScript := true } := Ast.classDecl?_eq_some.mpr hroot
  have hnamed : (ResolveInput.mk 0 "S" p.ast p.root .empty .none).ast.classDecl? 8 =
      some { name := "S", methods := [7] } := Ast.classDecl?_eq_some.mpr hclass
  refine ⟨hext, p, hp, 8, 3, ?_, hne.symm, ?_, hbefore, hafter⟩
  · exact Declares.top hscript (List.mem_singleton_self _) hnamed (by decide)
  · exact .part hclass rfl (by decide) (.part hfun rfl (by decide) (.part hdecl rfl (by decide)
      (.part hbody rfl (by decide) (.part hstmt rfl (by decide) (.here 3)))))

end ResolveInput

end ScriptAnalysis
