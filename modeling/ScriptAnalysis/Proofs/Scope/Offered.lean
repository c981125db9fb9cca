import Mathlib.Data.List.Find
import ScriptAnalysis.Proofs.Scope.Gaps
import ScriptAnalysis.Proofs.Scope.Redeclared
import ScriptAnalysis.Proofs.Scope.Usable
import ScriptAnalysis.Scope.Visible

/-!
# What a list of visible declarations shows first

An editor that lists what may be used at a place shows of every name the nearest declaration only.
It reads the finished scopes: a scope then has all its functions, also for its parameters, and of a
chain of classes it shows all fields in front of all methods.  `offeredBinding` is a lookup of a
name in this order; `OffersMeaning` tells where it does not differ from the lookup of a place.
-/

namespace ScriptAnalysis

/-! ### The first of a list -/

section

variable {α : Type} {as : List α}

/-- Two searches have one result if they agree up to where the second one finds something. -/
theorem findSome?_congr_until {β : Type} {f g : α → Option β}
    (h : ∀ before a after, as = before ++ a :: after → (∀ b ∈ before, g b = none) → f a = g a) :
    as.findSome? f = as.findSome? g := by
  induction as with
  | nil => rfl
  | cons a as ih =>
    rw [List.findSome?_cons, List.findSome?_cons, h [] a as rfl (by simp)]
    cases hg : g a with
    | some b => rfl
    | none =>
      refine ih fun before b after heq hnone => ?_
      exact h (a :: before) b after (by rw [heq]; rfl) (List.forall_mem_cons.mpr ⟨hg, hnone⟩)

theorem findSome?_congr {β : Type} {f g : α → Option β} (h : ∀ a ∈ as, f a = g a) :
    as.findSome? f = as.findSome? g :=
  findSome?_congr_until fun before a after heq _ => h a (by simp [heq])

/-- A search that finds less has the same result if it finds something where the other one does
    first. -/
theorem findSome?_eq_of_first {β : Type} {f g : α → Option β}
    (hless : ∀ a b, g a = some b → f a = some b)
    (hfirst : ∀ a, (as.find? fun a => (f a).isSome) = some a → (g a).isSome) :
    as.findSome? f = as.findSome? g := by
  induction as with
  | nil => rfl
  | cons a as ih =>
    rw [List.findSome?_cons, List.findSome?_cons]
    cases hg : g a with
    | some b => rw [hless a b hg]
    | none =>
      cases hf : f a with
      | none => exact ih fun c hc => hfirst c (by rw [List.find?_cons, hf]; exact hc)
      | some b =>
        have hfound := hfirst a (by rw [List.find?_cons, hf]; rfl)
        rw [hg] at hfound
        cases hfound

theorem findSome?_filterMap {β γ : Type} (f : α → Option β) (g : β → Option γ) :
    (as.filterMap f).findSome? g = as.findSome? fun a => (f a).bind g := by
  induction as with
  | nil => rfl
  | cons a as ih =>
    rw [List.filterMap_cons, List.findSome?_cons, ← ih]
    cases f a <;> rfl

/-- What is hidden has another name than what is looked for, or is not the first with it. -/
theorem find?_keepFirst (key : α → String) (k : String) :
    (keepFirst key as).find? (fun a => key a == k) = as.find? fun a => key a == k := by
  induction as with
  | nil => rfl
  | cons a as ih =>
    unfold keepFirst
    rw [List.find?_cons, List.find?_cons, List.find?_filter, ← ih]
    cases hk : key a == k with
    | true => rfl
    | false =>
      refine List.find?_congr fun b _ => ?_
      by_cases hb : key b = k
      · have hne : ¬ key b = key a := fun heq => by simp [← hb, heq] at hk
        simp [hb, hb ▸ hne]
      · simp [hb]

/-- If the first one that has one of two things has the first thing, unless nobody has it, the first
    thing may be looked for in all before the second one. -/
theorem findSome?_or_of_first {β : Type} {f g : α → Option β}
    (h : ∀ a, (as.find? fun a => ((f a).or (g a)).isSome) = some a →
      (∃ b ∈ as, (f b).isSome) → (f a).isSome) :
    (as.findSome? fun a => (f a).or (g a)) = (as.findSome? f).or (as.findSome? g) := by
  induction as with
  | nil => rfl
  | cons a as ih =>
    rw [List.findSome?_cons, List.findSome?_cons, List.findSome?_cons]
    cases hf : f a with
    | some b => rfl
    | none =>
      cases hg : g a with
      | none =>
        refine ih fun c hc hany => h c ?_ ?_
        · rw [List.find?_cons, hf, hg]
          exact hc
        · obtain ⟨b, hb, hsome⟩ := hany
          exact ⟨b, List.mem_cons_of_mem _ hb, hsome⟩
      | some b =>
        have hnone : as.findSome? f = none := by
          rw [List.findSome?_eq_none_iff]
          intro c hc
          by_contra hsome
          have hfound := h a (by rw [List.find?_cons, hf, hg]; rfl)
            ⟨c, List.mem_cons_of_mem _ hc, Option.isSome_iff_ne_none.mpr hsome⟩
          rw [hf] at hfound
          cases hfound
        rw [hnone]
        rfl

/-- Of the declarations that are kept, those with a name are looked through as if there was one. -/
theorem find?_keepNew_filter (name? : NodeId → Option String) (ds : List NodeId) (name : String)
    (keep : NodeId → Bool) : (keepNew name? ds).find? (fun d => name? d == some name && keep d) =
      (ds.find? fun d => name? d == some name).filter keep := by
  induction ds using List.reverseRecOn with
  | nil => rfl
  | append_singleton ds d ih =>
    rw [keepNew_concat, any_keepNew, List.find?_append]
    by_cases hd : name? d = some name
    · cases hfound : ds.find? fun d => name? d == some name with
      | some k =>
        have hknown : (ds.any fun k => name? k == name? d) = true := by
          refine List.any_eq_true.mpr ⟨k, List.mem_of_find?_eq_some hfound, ?_⟩
          simpa [hd] using List.find?_some hfound
        rw [if_pos hknown, ih, hfound]
        rfl
      | none =>
        have hnew : ¬ (ds.any fun k => name? k == name? d) = true := by
          rw [List.any_eq_true]
          rintro ⟨k, hk, hsame⟩
          exact List.find?_eq_none.mp hfound k hk (hd ▸ hsame)
        rw [if_neg hnew, List.find?_append, ih, hfound]
        simp [List.find?_cons, hd, Option.filter]
        cases keep d <;> rfl
    · have hskip : ([d].find? fun d => name? d == some name) = none := by simp [hd]
      have hskip' : ([d].find? fun d => name? d == some name && keep d) = none := by simp [hd]
      rw [hskip, Option.or_none]
      split
      · exact ih
      · rw [List.find?_append, hskip', Option.or_none, ih]

end

/-! ### Lookups in the order of the list -/

/-- What an entry of the list leads to. -/
def Declaration.binding : Declaration → Binding
  | .variable _ _ decl | .function _ decl => .localDecl decl
  | .field name _ ofClass => .field ofClass name
  | .method name ofClass => .method ofClass name

/-- Whether something in a script or its classes is meant that the list may show. -/
def Binding.isDeclaration : Binding → Bool
  | .localDecl _ | .field _ _ | .method _ _ => true
  | .global _ | .toClass _ => false

namespace ClassSummary

def fieldBinding? (c : ClassSummary) (name : String) : Option Binding :=
  (c.field? name).map fun _ => .field c.fullName name

def methodBinding? (c : ClassSummary) (name : String) : Option Binding :=
  (c.method? name).map fun _ => .method c.fullName name

theorem memberBinding?_eq (c : ClassSummary) (name : String) :
    c.memberBinding? name = (c.fieldBinding? name).or (c.methodBinding? name) := by
  unfold memberBinding? fieldBinding? methodBinding?
  cases c.field? name with
  | some f => rfl
  | none => cases c.method? name <;> rfl

end ClassSummary

/-- A scope as it is once all its statements are known. -/
def Surround.whole (s : Surround) : Surround := { s with inParams := false }

/-- What the list shows first under a name: a declaration in the scopes around the place, then a
    field of one of the classes of the chain, then a method of one. -/
def offeredBinding (ast : Ast) (chain : List ClassSummary) (around : List Surround) (name : String)
    (offset : Nat) : Option Binding :=
  ((around.findSome? fun s => s.whole.find? ast name offset).map .localDecl).or
    ((chain.findSome? fun c => c.fieldBinding? name).or
      (chain.findSome? fun c => c.methodBinding? name))

/-- The list has no order of its own for a name: the innermost scope that has the name, with all its
    functions, has it at the place already, and if no scope has it, the first class of the chain
    that has a member of the name has a field, unless no class has one. -/
structure OffersMeaning (ast : Ast) (chain : List ClassSummary) (around : List Surround)
    (name : String) (offset : Nat) : Prop where
  functions : ∀ s, (around.find? fun s => (s.whole.find? ast name offset).isSome) = some s →
    (s.find? ast name offset).isSome
  fields : (∀ s ∈ around, s.whole.find? ast name offset = none) →
    ∀ c, (chain.find? fun c => (c.memberBinding? name).isSome) = some c →
      (∃ c' ∈ chain, (c'.field? name).isSome) → (c.field? name).isSome

/-- What a scope has at a place it has in the end. -/
theorem Surround.find?_whole {s : Surround} {ast : Ast} {name : String} {offset : Nat}
    {d : NodeId} (h : s.find? ast name offset = some d) :
    s.whole.find? ast name offset = some d := by
  cases hparams : s.inParams with
  | false =>
    have hwhole : s.whole = s := by
      cases s
      cases hparams
      rfl
    rw [hwhole, h]
  | true =>
    have hfuns : s.funs ast = [] := by
      unfold Surround.funs
      rw [hparams]
      rfl
    unfold Surround.find? at h ⊢
    rw [hfuns, List.find?_nil, Option.or_none] at h
    rw [show (s.whole.vars ast) = s.vars ast from rfl, h]
    rfl

/-- Where the list has no order of its own, what it shows first is what the place means, if that is
    declared in the script or in a class of the chain. -/
theorem OffersMeaning.offeredBinding_eq {input : ResolveInput} {r : Resolution}
    {owner name : String} {chain : List ClassSummary} {around : List Surround} {offset : Nat}
    (h : OffersMeaning input.ast chain around name offset) :
    offeredBinding input.ast chain around name offset =
      (input.meaning r owner chain around name offset).filter Binding.isDeclaration := by
  have hscopes : (around.findSome? fun s => s.whole.find? input.ast name offset) =
      around.findSome? fun s => s.find? input.ast name offset :=
    findSome?_eq_of_first (fun s d hd => Surround.find?_whole hd) h.functions
  unfold offeredBinding ResolveInput.meaning
  cases hfound : around.findSome? fun s => s.whole.find? input.ast name offset with
  | some decl =>
    rw [← hscopes, hfound]
    rfl
  | none =>
    have hmembers : (chain.findSome? fun c => c.memberBinding? name) =
        (chain.findSome? fun c => c.fieldBinding? name).or
          (chain.findSome? fun c => c.methodBinding? name) := by
      simp only [ClassSummary.memberBinding?_eq]
      refine findSome?_or_of_first fun c hc => ?_
      simp only [← ClassSummary.memberBinding?_eq] at hc
      have hfields := h.fields (List.findSome?_eq_none_iff.mp hfound) c hc
      simpa [ClassSummary.fieldBinding?] using hfields
    rw [← hscopes, hfound, ← hmembers]
    cases hmember : chain.findSome? fun c => c.memberBinding? name with
    | some binding =>
      obtain ⟨c, -, hc⟩ := List.exists_of_findSome?_eq_some hmember
      unfold ClassSummary.memberBinding? at hc
      split at hc
      · cases hc
        rfl
      · split at hc
        · cases hc
          rfl
        · cases hc
    | none =>
      dsimp only
      split
      · rfl
      · cases (r.resolveClass input.others name owner).value <;> rfl

/-! ### What the scopes hold in the end -/

namespace Resolution

/-- Each of the scopes holds what it declares in the text. -/
def Keeps (r : Resolution) (ast : Ast) (owner : String) (around : List Surround) : Prop :=
  ∀ s ∈ around, ∃ enclosing, r.blocks[s.block]? =
    some ((Standing.mk s.whole (s.vars ast)).scope ast enclosing owner)

end Resolution

theorem Ast.whole_of_opens {ast : Ast} {m : NodeId} {scope : Surround}
    (h : ast.opens? m = some scope) : scope.whole = scope := by
  unfold opens? at h
  split at h
  · obtain rfl := Option.some.inj h
    rfl
  · obtain rfl := Option.some.inj h
    rfl
  · obtain rfl := Option.some.inj h
    rfl
  · cases h

section

variable {input : ResolveInput} {r r₁ r₂ : Resolution} {mk : MarkerId → Marker}
  {events : List Event}
  {parts : ScriptParts} {owner : String} {around around' : List Surround} {m n : NodeId}

/-- If a construct is settled, the scopes in it hold what they declare. -/
theorem Ast.Lies.keeps (hlies : input.ast.Lies around m around' n)
    (hsettled : ∀ {around' n}, input.ast.Lies around m around' n →
      Settled input r owner around' n r₁ r₂)
    (h : r₂.Keeps input.ast owner around) : r₂.Keeps input.ast owner around' := by
  induction hlies with
  | here => exact h
  | part hdata hopens hclass hk _ ih =>
    exact ih (fun hlies => hsettled (.part hdata hopens hclass hk hlies)) h
  | @param around _ m k _ scope hopens hk _ ih =>
    refine ih (fun hlies => hsettled (.param hopens hk hlies)) (List.forall_mem_cons.mpr ⟨?_, h⟩)
    refine ⟨innermost around, ((hsettled (.here _ _)).scope _ hopens).trans ?_⟩
    rw [show ({ scope with inParams := true } : Surround).whole = scope.whole from rfl,
      Ast.whole_of_opens hopens]
    rfl
  | @stmt around _ m k _ scope hopens hk _ ih =>
    refine ih (fun hlies => hsettled (.stmt hopens hk hlies)) (List.forall_mem_cons.mpr ⟨?_, h⟩)
    refine ⟨innermost around, ((hsettled (.here _ _)).scope _ hopens).trans ?_⟩
    rw [Ast.whole_of_opens hopens]

theorem Enters.keeps (h : Enters input.ast r.classes m owner around n)
    (hsettled : ∀ {owner around n}, Enters input.ast r.classes m owner around n →
      Settled input r owner around n r₁ r₂) : r₂.Keeps input.ast owner around := by
  -- The scope of a class declares nothing.
  have hclass {m : NodeId} {decl : ClassDecl} {owner : String}
      (hdata : input.ast.data? m = some (.classDecl decl))
      (hm : Settled input r owner [classScope m] m r₁ r₂) :
      r₂.Keeps input.ast owner [classScope m] := by
    intro scope hscope
    obtain rfl := List.mem_singleton.mp hscope
    exact ⟨none, hm.ofClass decl hdata⟩
  induction h with
  | here hdata hknown => exact hclass hdata (hsettled (.here hdata hknown))
  | member hdata hknown hk hlies =>
    exact hlies.keeps (fun hlies => hsettled (.member hdata hknown hk hlies))
      (hclass hdata (hsettled (.here hdata hknown)))
  | inner hdata hknown hi _ ih => exact ih fun h => hsettled (.inner hdata hknown hi h)

namespace Visited

theorem keeps (h : ScriptRecorded input.ast mk events input.root parts)
    (hn : Visited input input.resolve.value parts owner around n) :
    input.resolve.value.Keeps input.ast owner around := by
  have hfinds := ResolveInput.resolve_finds h
  rcases hn with ⟨rfl, k, hk, hlies⟩ | ⟨i, hi, henters⟩
  · exact hlies.keeps (fun hlies => hfinds.settled (.inl ⟨rfl, k, hk, hlies⟩))
      (by simp [Resolution.Keeps])
  · exact henters.keeps fun henters => hfinds.settled (.inr ⟨i, hi, henters⟩)

end Visited

end

/-! ### The list of what is visible -/

section

variable {ast : Ast} {name : String}

/-- Declarations with a name among those that nodes stand for. -/
theorem find?_declarations {ds : List NodeId} {entry : NodeId → Option Declaration}
    {p : NodeId → Bool} (hname : ∀ d, (entry d).any (·.name == name) = p d)
    (hbinding : ∀ d decl, entry d = some decl → decl.binding = .localDecl d) :
    ((ds.filterMap entry).find? (·.name == name)).map Declaration.binding =
      (ds.find? p).map .localDecl := by
  rw [List.find?_filterMap, show (fun d => (entry d).any (·.name == name)) = p from funext hname]
  cases hfind : ds.find? p with
  | none => rfl
  | some d =>
    have hp := List.find?_some hfind
    rw [← hname, Option.any_eq_true] at hp
    obtain ⟨decl, hentry, -⟩ := hp
    rw [Option.bind_some, hentry, Option.map_some, hbinding d decl hentry]
    rfl

namespace Resolution

/-- What a scope that holds its declarations shows of a name. -/
theorem find?_declaredIn (s : Surround) (enclosing : Option NodeId) (owner : String)
    (location : Nat) : ((declaredIn ast location
        ((Standing.mk s.whole (s.vars ast)).scope ast enclosing owner)).find?
          (·.name == name)).map Declaration.binding =
      ((((s.vars ast).find? fun d => ast.varName? d == some name).filter
          fun d => decide ((ast.span d).start < location)).or
        ((s.whole.funs ast).find? fun d => ast.funName? d == some name)).map .localDecl := by
  unfold declaredIn Standing.scope
  dsimp only
  rw [List.find?_append, Option.map_or, Option.map_or, ← find?_keepNew_filter, ← find?_keepNew]
  congr 1
  · refine find?_declarations (fun d => ?_) fun d decl hentry => ?_
    · unfold Ast.varName?
      cases ast.varDecl? d with
      | none => rfl
      | some v =>
        by_cases hlt : (ast.span d).start < location
        · simp [hlt, Declaration.name]
        · simp [hlt]
    · split at hentry
      · split at hentry
        · cases hentry
          rfl
        · cases hentry
      · cases hentry
  · refine find?_declarations (fun d => ?_) fun d decl hentry => ?_
    · unfold Ast.funName?
      cases ast.funDecl? d with
      | none => rfl
      | some f => simp [Declaration.name]
    · obtain ⟨f, -, rfl⟩ := Option.map_eq_some_iff.mp hentry
      rfl

/-- The list of a place with a scope. -/
theorem visibleDeclarations_value {r : Resolution} {others : ClassLookup} {node : NodeId}
    {location : Nat} {scope : BlockScope}
    (h : (r.scopesAround r.nodeBlock[node]?).head? = some scope) :
    (r.visibleDeclarations ast others node location).value = keepFirst Declaration.name
      ((r.scopesAround r.nodeBlock[node]?).flatMap (declaredIn ast location) ++
        (r.classChain others scope.owningClass).value.flatMap fieldsOf ++
        (r.classChain others scope.owningClass).value.flatMap methodsOf) := by
  unfold visibleDeclarations
  dsimp only
  rw [h]
  rfl

theorem find?_fieldsOf (chain : List ClassSummary) :
    ((chain.flatMap fieldsOf).find? (·.name == name)).map Declaration.binding =
      chain.findSome? fun c => c.fieldBinding? name := by
  rw [List.find?_flatMap, List.map_findSome?]
  refine findSome?_congr fun c _ => ?_
  unfold fieldsOf ClassSummary.fieldBinding? ClassSummary.field?
  rw [Function.comp_apply, List.find?_map]
  cases hfind : c.fields.find? ((fun d : Declaration => d.name == name) ∘ fun f =>
      .field f.name f.type c.fullName) with
  | none =>
    rw [show (c.fields.find? fun f => f.name == name) = none from hfind]
    rfl
  | some f =>
    rw [show (c.fields.find? fun f => f.name == name) = some f from hfind]
    obtain rfl : f.name = name := by simpa [Declaration.name] using List.find?_some hfind
    rfl

theorem find?_methodsOf (chain : List ClassSummary) :
    ((chain.flatMap methodsOf).find? (·.name == name)).map Declaration.binding =
      chain.findSome? fun c => c.methodBinding? name := by
  rw [List.find?_flatMap, List.map_findSome?]
  refine findSome?_congr fun c _ => ?_
  unfold methodsOf ClassSummary.methodBinding? ClassSummary.method?
  rw [Function.comp_apply, List.find?_map]
  cases hfind : c.methods.find? ((fun d : Declaration => d.name == name) ∘ fun m =>
      .method m.name c.fullName) with
  | none =>
    rw [show (c.methods.find? fun m => m.name == name) = none from hfind]
    rfl
  | some m =>
    rw [show (c.methods.find? fun m => m.name == name) = some m from hfind]
    obtain rfl : m.name = name := by simpa [Declaration.name] using List.find?_some hfind
    rfl

end Resolution

end

/-- What is listed for a name in a script is what its place offers, if the location tells the
    variables of its scopes that end before the place from the others. -/
theorem ResolveInput.Stands.find?_visible {input : ResolveInput} {mk : MarkerId → Marker}
    {events : List Event} {parts : ScriptParts} {owner name : String} {around : List Surround}
    {n : NodeId} {location : Nat} (h : ScriptRecorded input.ast mk events input.root parts)
    (hn : input.Stands owner around n) (hname : input.ast.IsName n name)
    (hlocation : ∀ inner s outer, around = inner ++ s :: outer →
      (∀ t ∈ inner, t.whole.find? input.ast name (input.ast.span n).start = none) →
      ∀ v, ((s.vars input.ast).find? fun d => input.ast.varName? d == some name) = some v →
      ((input.ast.span v).start < location ↔
        (input.ast.span v).stop ≤ (input.ast.span n).start)) :
    ((input.resolve.value.visibleDeclarations input.ast input.others n location).value.find?
        (·.name == name)).map Declaration.binding =
      offeredBinding input.ast (input.resolve.value.classChain input.others owner).value around name
        (input.ast.span n).start := by
  have hvisited := hn.visited h
  have hkeeps := hvisited.keeps h
  have hscopes : input.resolve.value.scopesAround input.resolve.value.nodeBlock[n]? =
      around.filterMap fun s => input.resolve.value.blocks[s.block]? := by
    rw [hvisited.noted h hname, (hvisited.climbs h).scopesAround_eq, List.filterMap_map]
    rfl
  have hdeclared : (((around.filterMap fun s => input.resolve.value.blocks[s.block]?).flatMap
      (Resolution.declaredIn input.ast location)).find? (·.name == name)).map
        Declaration.binding =
      (around.findSome? fun s => s.whole.find? input.ast name (input.ast.span n).start).map
        .localDecl := by
    rw [List.find?_flatMap, findSome?_filterMap, List.map_findSome?, List.map_findSome?]
    refine findSome?_congr_until fun inner s outer heq hinner => ?_
    obtain ⟨enclosing, hblock⟩ := hkeeps s (by simp [heq])
    rw [Function.comp_apply, Function.comp_apply, hblock, Option.bind_some,
      Resolution.find?_declaredIn]
    unfold Surround.find?
    have hinner' : ∀ t ∈ inner, t.whole.find? input.ast name (input.ast.span n).start = none :=
      fun t ht => by simpa using hinner t ht
    -- Both lookups take the first variable of the name, or none.
    cases hfound : (s.vars input.ast).find? fun d => input.ast.varName? d == some name with
    | none =>
      rw [show (s.whole.vars input.ast).find? _ = none from hfound]
      rfl
    | some v =>
      rw [show (s.whole.vars input.ast).find? _ = some v from hfound, Option.filter_some,
        Option.filter_some, decide_eq_decide.mpr (hlocation inner s outer heq hinner' v hfound)]
  obtain ⟨s, outer, rfl⟩ := List.exists_cons_of_ne_nil (hvisited.ne_nil_of_isName h hname)
  obtain ⟨enclosing, hblock⟩ := hkeeps s (List.mem_cons_self ..)
  have hhead : (input.resolve.value.scopesAround input.resolve.value.nodeBlock[n]?).head? =
      some ((Standing.mk s.whole (s.vars input.ast)).scope input.ast enclosing owner) := by
    rw [hscopes, List.filterMap_cons, hblock, List.head?_cons]
  rw [Resolution.visibleDeclarations_value hhead, find?_keepFirst, hscopes, List.append_assoc,
    List.find?_append, List.find?_append, Option.map_or, Option.map_or, hdeclared]
  unfold offeredBinding
  rw [← Resolution.find?_fieldsOf, ← Resolution.find?_methodsOf]
  rfl

end ScriptAnalysis
