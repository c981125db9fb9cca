import ScriptAnalysis.Proofs.Scope.FullNames

/-!
# The scopes of a script form a tree

`ResolveInput.Nests` tells from the text alone in which scopes a node lies.  Scopes are blocks and
classes with a name: the parameters of a function or a closure lie in the block of its body, a block
in the scope around it, and a class in its own scope.  Resolving the names of a script notes the
innermost one for every node, and links each scope to the next one outwards
(`ResolveInput.ScopeTree`), so that going outwards comes to an end.
-/

namespace ScriptAnalysis

/-! ### Going outwards -/

namespace Resolution

/-- Going outwards from a scope leads through `scopes`, and ends. -/
inductive Climbs (r : Resolution) : Option NodeId → List NodeId → Prop
  | outside : Climbs r none []
  | step {block : NodeId} {scope : BlockScope} {scopes : List NodeId} :
      r.blocks[block]? = some scope → Climbs r scope.enclosing scopes →
      Climbs r (some block) (block :: scopes)

namespace Climbs

variable {r : Resolution} {start : Option NodeId} {scopes scopes' front : List NodeId}

theorem head (h : r.Climbs start scopes) : scopes.head? = start := by
  cases h <;> rfl

theorem unique (h : r.Climbs start scopes) (h' : r.Climbs start scopes') : scopes = scopes' := by
  induction h generalizing scopes' with
  | outside =>
    cases h'
    rfl
  | step hscope _ ih =>
    cases h' with
    | step hscope' hrest =>
      obtain rfl := Option.some.inj (hscope.symm.trans hscope')
      rw [ih hrest]

theorem suffix (h : r.Climbs start (front ++ scopes)) : r.Climbs scopes.head? scopes := by
  induction front generalizing start with
  | nil => exact h.head ▸ h
  | cons block front ih =>
    cases h with
    | step _ hrest => exact ih hrest

theorem mem (h : r.Climbs start scopes) {block : NodeId} (hblock : block ∈ scopes) :
    block ∈ r.blocks := by
  induction h with
  | outside => cases hblock
  | step hscope _ ih =>
    rcases List.mem_cons.mp hblock with rfl | hblock
    · exact Std.TreeMap.mem_iff_isSome_getElem?.mpr (by rw [hscope]; rfl)
    · exact ih hblock

/-- What comes to an end does not come back to where it was. -/
theorem nodup (h : r.Climbs start scopes) : scopes.Nodup := by
  induction h with
  | outside => exact List.nodup_nil
  | @step block scope scopes hscope hrest ih =>
    refine List.nodup_cons.mpr ⟨fun hmem => ?_, ih⟩
    obtain ⟨front, rest, rfl⟩ := List.append_of_mem hmem
    have hlength := congrArg List.length ((Climbs.step hscope hrest).unique hrest.suffix)
    simp only [List.length_cons, List.length_append] at hlength
    omega

theorem scopesFrom_eq (h : r.Climbs start scopes) {steps : Nat} (hsteps : scopes.length ≤ steps) :
    r.scopesFrom steps start = scopes.filterMap fun block => r.blocks[block]? := by
  induction h generalizing steps with
  | outside => cases steps <;> rfl
  | step hscope _ ih =>
    obtain ⟨steps, rfl⟩ := Nat.exists_eq_succ_of_ne_zero (Nat.ne_of_gt (Nat.lt_of_lt_of_le
      (Nat.succ_pos _) hsteps))
    rw [Resolution.scopesFrom, hscope, List.filterMap_cons_some hscope,
      ← ih (Nat.le_of_succ_le_succ hsteps)]

/-- There are as many steps as are needed to go outwards to the end. -/
theorem scopesAround_eq (h : r.Climbs start scopes) :
    r.scopesAround start = scopes.filterMap fun block => r.blocks[block]? := by
  have hkeys : scopes ⊆ r.blocks.keys := fun block hblock => Std.TreeMap.mem_keys.mpr (h.mem hblock)
  exact h.scopesFrom_eq (by simpa using (List.subperm_of_subset h.nodup hkeys).length_le)

end Climbs

end Resolution

/-! ### The scopes around a node -/

/-- The scope that the node `m` opens around one of its parts. -/
def NodeData.scopeFor (m k : NodeId) : NodeData → Option NodeId
  | .block _ => some m
  | .closure params body _ => if k ∈ params then some body else none
  | .funDeclExpr f => if k ∈ f.params then some f.body else none
  | _ => none

/-- What leads to a node that is no class without a name is none itself. -/
theorem Ast.Reaches.named {ast : Ast} {m n : NodeId} {data data' : NodeData} (h : ast.Reaches m n)
    (hn : ast.data? n = some data) (hnamed : data.isNameless = false)
    (hm : ast.data? m = some data') : data'.isNameless = false := by
  cases h with
  | here =>
    obtain rfl := Option.some.inj (hm.symm.trans hn)
    exact hnamed
  | part hdata hname _ _ =>
    obtain rfl := Option.some.inj (hm.symm.trans hdata)
    exact hname

namespace ResolveInput

/-- `input.Nests owner scopes n`: the node `n` lies in code of the class `owner`, within the scopes
    `scopes`, the innermost one first. -/
inductive Nests (input : ResolveInput) : String → List NodeId → NodeId → Prop
  | body {script : ClassDecl} {body : NodeId} :
      input.ast.classDecl? input.root = some script → script.body = some body →
      Nests input (qualify script.package input.scriptName) [] body
  | ofClass {owner : String} {m : NodeId} : input.Declares owner m → Nests input owner [m] m
  | member {owner : String} {m k : NodeId} {decl : ClassDecl} :
      input.Declares owner m → input.ast.classDecl? m = some decl →
      k ∈ decl.fields ++ decl.methods → Nests input owner [m] k
  | part {owner : String} {scopes : List NodeId} {m k : NodeId} {data : NodeData} :
      Nests input owner scopes m → input.ast.data? m = some data → (∀ c, data ≠ .classDecl c) →
      k ∈ data.parts → Nests input owner ((data.scopeFor m k).toList ++ scopes) k

/-- The declaration in a field of a class. -/
def IsFieldDecl (input : ResolveInput) (n : NodeId) : Prop :=
  ∃ owner m decl field, input.Declares owner m ∧ input.ast.classDecl? m = some decl ∧
    field ∈ decl.fields ∧ input.ast.data? field = some (.varDecl n)

/-- The scopes that are found while names are resolved are those of the text. -/
structure ScopeTree (input : ResolveInput) : Prop where
  /-- Whatever is reached, but the class of the script, its imports and classes without a name, lies
      somewhere. -/
  nests : ∀ n data, input.ast.Reaches input.root n → n ≠ input.root → ¬ input.ast.IsImport n →
    input.ast.data? n = some data → data.isNameless = false →
    ∃ owner scopes, input.Nests owner scopes n
  /-- Only the block of the statements of the script lies in no scope. -/
  outermost : ∀ owner n script, input.Nests owner [] n →
    input.ast.classDecl? input.root = some script → script.body = some n
  /-- The innermost scope is noted for every node, except for the declarations in fields. -/
  noted : ∀ owner scopes n, input.Nests owner scopes n → ¬ input.IsFieldDecl n →
    input.resolve.value.nodeBlock[n]? = scopes.head?
  /-- A block is linked to the next scope outwards, and to the class to which its code belongs. -/
  ofBlock : ∀ owner scopes n, input.Nests owner scopes n → input.ast.IsBlock n →
    ∃ scope, input.resolve.value.blocks[n]? = some scope ∧ scope.enclosing = scopes.head? ∧
      scope.owningClass = owner
  /-- The scope of a class has none around it. -/
  ofClass : ∀ owner m, input.Declares owner m →
    ∃ scope, input.resolve.value.blocks[m]? = some scope ∧ scope.enclosing = none ∧
      scope.owningClass = owner
  /-- Going outwards from a node leads through all the scopes around it. -/
  climbs : ∀ owner scopes n, input.Nests owner scopes n →
    input.resolve.value.Climbs scopes.head? scopes
  /-- Going outwards from any scope comes to an end, and lookups go there. -/
  ends : ∀ block ∈ input.resolve.value.blocks, ∃ scopes,
    input.resolve.value.Climbs (some block) scopes ∧
      input.resolve.value.scopesAround (some block) =
        scopes.filterMap fun block => input.resolve.value.blocks[block]?

variable {input : ResolveInput} {mk : MarkerId → Marker} {events : List Event} {parts : ScriptParts}
  {owner : String} {scopes : List NodeId} {around around' : List Surround} {m n k : NodeId}

/-! ### Where nodes lie -/

/-- Whatever lies in a scope is laid out somewhere. -/
theorem Nests.laid (h : ScriptRecorded input.ast mk events input.root parts)
    (hn : input.Nests owner scopes n) : ∃ a c, Laid input.ast a [n] c := by
  induction hn with
  | body hscript hbody =>
    obtain rfl := Option.some.inj (h.classDecl?_root.symm.trans hscript)
    obtain rfl := Option.some.inj (h.script.body.symm.trans hbody)
    exact ⟨_, _, h.laid_body⟩
  | ofClass hm => exact ⟨_, _, (hm.isClass h).2⟩
  | member hm hdecl hk =>
    refine ⟨_, _, ((hm.isClass h).2.part (Ast.classDecl?_eq_some.mp hdecl) ?_).1⟩
    simpa [NodeData.parts, or_assoc] using Or.inl hk
  | part _ hdata _ hk ih =>
    obtain ⟨a, c, hlaid⟩ := ih
    exact ⟨a, c, (hlaid.part hdata hk).1⟩

theorem Nests.formed (h : ScriptRecorded input.ast mk events input.root parts)
    (hn : input.Nests owner scopes n) {data : NodeData} (hdata : input.ast.data? n = some data) :
    data.Formed input.ast := by
  obtain ⟨a, c, hlaid⟩ := hn.laid h
  obtain ⟨_, _, _, _, -, -, hallots, -⟩ := hlaid.of_data hdata
  exact hallots.formed

/-- A class that lies in a scope is declared under a name, and lies in its own scope. -/
theorem Nests.declares (h : ScriptRecorded input.ast mk events input.root parts)
    (hn : input.Nests owner scopes n) {c : ClassDecl}
    (hdata : input.ast.data? n = some (.classDecl c)) :
    input.Declares owner n := by
  cases hn with
  | body hscript hbody =>
    obtain rfl := Option.some.inj (h.classDecl?_root.symm.trans hscript)
    obtain rfl := Option.some.inj (h.script.body.symm.trans hbody)
    cases h.data_body.symm.trans hdata
  | ofClass hm => exact hm
  | member hm hdecl hk =>
    obtain ⟨hfields, hmethods, -⟩ := (Nests.ofClass hm).formed h (Ast.classDecl?_eq_some.mp hdecl)
    rcases List.mem_append.mp hk with hk | hk
    · obtain ⟨d, v, hd, -⟩ := hfields _ hk
      cases hd.symm.trans hdata
    · obtain ⟨d, f, hd, -⟩ := hmethods _ hk
      cases hd.symm.trans hdata
  | part hm hm' hclass hk =>
    exact absurd hdata (Ast.not_class_of_part (hm.formed h hm') hclass hk c)

/-- Whatever is reached from a node that lies somewhere lies somewhere. -/
theorem Nests.of_reaches (h : ScriptRecorded input.ast mk events input.root parts)
    (hm : input.Nests owner scopes m) (hreach : input.ast.Reaches m n) {data : NodeData}
    (hdata : input.ast.data? n = some data) (hnamed : data.isNameless = false) :
    ∃ owner scopes, input.Nests owner scopes n := by
  induction hreach generalizing owner scopes with
  | here => exact ⟨_, _, hm⟩
  | @part m k n data' hdata' _ hk hreach ih =>
    by_cases hclass : ∃ c, data' = .classDecl c
    · obtain ⟨c, rfl⟩ := hclass
      have hdecl := hm.declares h hdata'
      obtain ⟨-, -, hinner, -, himports, hbody⟩ := hm.formed h hdata'
      simp only [NodeData.parts, himports, hbody, List.append_nil, Option.toList_none] at hk
      rcases List.mem_append.mp hk with hk | hk
      · exact ih (.member hdecl (Ast.classDecl?_eq_some.mpr hdata') hk) hdata
      · obtain ⟨inner, hinner, hscript⟩ := hinner k hk
        have hname := hreach.named hdata hnamed hinner
        refine ih (.ofClass (.inner hdecl (Ast.classDecl?_eq_some.mpr hdata') hk
          (Ast.classDecl?_eq_some.mpr hinner) ?_)) hdata
        simpa [NodeData.isNameless, hscript] using hname
    · exact ih (.part hm hdata' (fun c hc => hclass ⟨c, hc⟩) hk) hdata

/-- Whatever is reached lies somewhere, but for the class of the script, its imports and classes
    without a name. -/
theorem nests_of_reaches (h : ScriptRecorded input.ast mk events input.root parts)
    (hreach : input.ast.Reaches input.root n) (hroot : n ≠ input.root)
    (himport : ¬ input.ast.IsImport n) {data : NodeData} (hdata : input.ast.data? n = some data)
    (hnamed : data.isNameless = false) : ∃ owner scopes, input.Nests owner scopes n := by
  generalize heq : input.root = root at hreach
  cases hreach with
  | here => exact absurd heq.symm hroot
  | @part _ k _ data' hdata' _ hk hreach =>
    subst heq
    obtain rfl := Option.some.inj (h.data_root.symm.trans hdata')
    simp only [NodeData.parts, h.script.fields, h.script.methods, h.script.body, List.nil_append,
      Option.toList_some, List.mem_append, List.mem_singleton] at hk
    rcases hk with (hinner | himported) | rfl
    · obtain ⟨c, hc, hscript⟩ := h.classes k hinner
      have hname := hreach.named hdata hnamed hc
      refine Nests.of_reaches h (.ofClass (.top h.classDecl?_root hinner
        (Ast.classDecl?_eq_some.mpr hc) ?_)) hreach hdata hnamed
      simpa [NodeData.isNameless, hscript] using hname
    · obtain ⟨path, rename, hdecl⟩ := h.imports k himported
      cases hreach with
      | here => exact absurd ⟨path, rename, hdecl⟩ himport
      | part hdata'' _ hl _ =>
        obtain rfl := Option.some.inj (hdecl.symm.trans hdata'')
        cases hl
    · exact Nests.of_reaches h (.body h.classDecl?_root h.script.body) hreach hdata hnamed

/-- Only the block of the statements lies in no scope. -/
theorem Nests.outermost (h : ScriptRecorded input.ast mk events input.root parts)
    (hn : input.Nests owner [] n) : n = parts.body := by
  generalize hscopes : ([] : List NodeId) = scopes at hn
  induction hn with
  | body hscript hbody =>
    obtain rfl := Option.some.inj (h.classDecl?_root.symm.trans hscript)
    exact Option.some.inj (hbody.symm.trans h.script.body)
  | ofClass => cases hscopes
  | member => cases hscopes
  | @part owner scopes m k data _ hdata _ _ ih =>
    obtain ⟨hnone, rfl⟩ := List.append_eq_nil_iff.mp hscopes.symm
    obtain rfl := ih rfl
    obtain rfl := Option.some.inj (h.data_body.symm.trans hdata)
    cases hnone

/-! ### Where the walk stands -/

theorem Stands.lies (hm : input.Stands owner around m) (hlies : input.ast.Lies around m around' n) :
    input.Stands owner around' n := by
  cases hm with
  | script hscript hbody hm => exact .script hscript hbody (hm.trans hlies)
  | member hdecl hm hk hm' => exact .member hdecl hm hk (hm'.trans hlies)

/-- How the walk comes to a node: as a construct, as the block of one, or as a class. -/
inductive Seat (input : ResolveInput) : String → List NodeId → NodeId → Prop
  | construct {owner : String} {around : List Surround} {n : NodeId} :
      input.Stands owner around n → Seat input owner (around.map Surround.block) n
  | block {owner : String} {around : List Surround} {m n : NodeId} {params : List NodeId} :
      input.Stands owner around m →
      input.ast.opens? m = some ⟨n, params, Walk.blockStatements input.ast n, false⟩ →
      input.ast.IsBlock n → Seat input owner (around.map Surround.block) n
  | ofClass {owner : String} {m : NodeId} : input.Declares owner m → Seat input owner [m] m

/-- The parameters of a construct are walked in its scope, and its block opens that scope. -/
theorem Seat.of_body {params : List NodeId} {body : NodeId} (hm : input.Stands owner around m)
    (hopens : input.ast.opens? m =
      some ⟨body, params, Walk.blockStatements input.ast body, false⟩)
    (hbody : input.ast.IsBlock body) (hk : k ∈ params ++ [body]) :
    input.Seat owner ((if k ∈ params then some body else none).toList ++ around.map Surround.block)
      k := by
  by_cases hparam : k ∈ params
  · rw [if_pos hparam]
    exact .construct (hm.lies (.param hopens hparam (.here _ k)))
  · rw [if_neg hparam]
    obtain rfl : k = body := by simpa [hparam] using hk
    exact .block hm hopens hbody

/-- A part of a construct is walked in the scopes in which it lies. -/
theorem Seat.of_part (hm : input.Stands owner around m) {data : NodeData}
    (hdata : input.ast.data? m = some data) (hformed : data.Formed input.ast)
    (hclass : ∀ c, data ≠ .classDecl c) (hk : k ∈ data.parts) :
    input.Seat owner ((data.scopeFor m k).toList ++ around.map Surround.block) k := by
  have hpart (hopens : input.ast.opens? m = none) :
      input.Seat owner (around.map Surround.block) k :=
    .construct (hm.lies (.part hdata hopens hclass hk (.here around k)))
  cases data with
  | block stmts =>
    have hopens : input.ast.opens? m = some ⟨m, [], stmts, false⟩ := by simp [Ast.opens?, hdata]
    exact .construct (hm.lies (.stmt hopens hk (.here _ k)))
  | closure params body isBlock =>
    exact .of_body hm (by simp [Ast.opens?, hdata]) hformed.2 hk
  | funDeclExpr f => exact .of_body hm (by simp [Ast.opens?, hdata]) hformed.2 hk
  | _ => exact hpart (by simp [Ast.opens?, hdata])

theorem Nests.seat (h : ScriptRecorded input.ast mk events input.root parts)
    (hn : input.Nests owner scopes n) : input.Seat owner scopes n := by
  induction hn with
  | body hscript hbody => exact .construct (.script hscript hbody (.here [] _))
  | ofClass hm => exact .ofClass hm
  | member hm hdecl hk => exact .construct (.member hm hdecl hk (.here _ _))
  | @part owner scopes m k data hm hdata hclass hk ih =>
    have hformed := hm.formed h hdata
    cases ih with
    | construct hstands => exact .of_part hstands hdata hformed hclass hk
    | block hstands hopens hblock =>
      obtain ⟨stmts, hstmts⟩ := hblock
      obtain rfl := Option.some.inj (hstmts.symm.trans hdata)
      rw [Ast.blockStatements_of_data hstmts] at hopens
      exact .construct (hstands.lies (.stmt hopens hk (.here _ k)))
    | ofClass hdecl =>
      obtain ⟨⟨c, hc, -⟩, -⟩ := hdecl.isClass h
      exact absurd (Option.some.inj (hdata.symm.trans hc)) (hclass c)

/-! ### What the walk finds out -/

/-- A declared class is walked in its own scope. -/
theorem Declares.visited_self (h : ScriptRecorded input.ast mk events input.root parts)
    (hm : input.Declares owner m) :
    Visited input input.resolve.value parts owner [classScope m] m := by
  obtain ⟨⟨decl, hdata, -⟩, -⟩ := hm.isClass h
  obtain ⟨c, hknown, rfl⟩ := hm.known h
  exact hm.visited h (.here hdata hknown)

theorem Declares.scope (h : ScriptRecorded input.ast mk events input.root parts)
    (hm : input.Declares owner m) : input.resolve.value.blocks[m]? =
      some { enclosing := none, owningClass := owner } := by
  obtain ⟨⟨decl, hdata, -⟩, -⟩ := hm.isClass h
  exact ((resolve_finds h).settled (hm.visited_self h)).ofClass decl hdata

/-- A class that the resolution knows is declared, unless it is that of the script. -/
theorem declares_of_known (h : ScriptRecorded input.ast mk events input.root parts)
    (hknown : (input.resolve.value.classes.find? (·.decl == m)).isSome = true) :
    m = input.root ∨ ∃ owner, input.Declares owner m := by
  obtain ⟨c, hc⟩ := Option.isSome_iff_exists.mp hknown
  have hdecl : c.decl = m := by simpa using List.find?_some hc
  have hmem := List.mem_of_find?_eq_some hc
  rw [classes_resolve h, described] at hmem
  obtain ⟨c', hc', rfl⟩ := List.mem_map.mp hmem
  rcases site_of_mem h hc' with rfl | ⟨site, decl, hsite, -, rfl⟩
  · exact .inl hdecl.symm
  · exact .inr ⟨site.fullName, hdecl ▸ hsite.declares⟩

theorem isFieldDecl_of_known (h : ScriptRecorded input.ast mk events input.root parts)
    (hn : input.ast.IsFieldDecl input.resolve.value.classes n) : input.IsFieldDecl n := by
  obtain ⟨m, decl, field, hdata, hknown, hfield, hdecl⟩ := hn
  rcases declares_of_known h hknown with rfl | ⟨owner, hm⟩
  · obtain rfl : decl = parts.decl := by
      cases hdata.symm.trans h.data_root
      rfl
    rw [h.script.fields] at hfield
    cases hfield
  · exact ⟨owner, m, decl, field, hm, Ast.classDecl?_eq_some.mpr hdata, hfield, hdecl⟩

/-- The innermost scope is noted for a node. -/
theorem Seat.noted (h : ScriptRecorded input.ast mk events input.root parts)
    (hn : input.Seat owner scopes n) (hfield : ¬ input.IsFieldDecl n) :
    input.resolve.value.nodeBlock[n]? = scopes.head? := by
  have hnone : (input.start parts.decl).resolution.nodeBlock[n]? = none :=
    Std.TreeMap.getElem?_emptyc
  have hfield := mt (isFieldDecl_of_known h) hfield
  cases hn with
  | construct hn =>
    rw [List.head?_map]
    exact ((resolve_finds h).settled (hn.visited h)).noted hfield hnone
  | block hm hopens _ =>
    rw [List.head?_map]
    exact ((resolve_finds h).settled (hm.visited h)).notedBlock _ hopens hnone
  | ofClass hm => exact ((resolve_finds h).settled (hm.visited_self h)).noted hfield hnone

/-- A block is linked to the scope around it. -/
theorem Seat.scope (h : ScriptRecorded input.ast mk events input.root parts)
    (hn : input.Seat owner scopes n) (hblock : input.ast.IsBlock n) :
    ∃ scope, input.resolve.value.blocks[n]? = some scope ∧ scope.enclosing = scopes.head? ∧
      scope.owningClass = owner := by
  obtain ⟨stmts, hstmts⟩ := hblock
  cases hn with
  | construct hn =>
    have hopens : input.ast.opens? n = some ⟨n, [], stmts, false⟩ := by simp [Ast.opens?, hstmts]
    exact ⟨_, ((resolve_finds h).settled (hn.visited h)).scope _ hopens, List.head?_map.symm, rfl⟩
  | block hm hopens _ =>
    exact ⟨_, ((resolve_finds h).settled (hm.visited h)).scope _ hopens, List.head?_map.symm, rfl⟩
  | ofClass hm =>
    obtain ⟨⟨c, hc, -⟩, -⟩ := hm.isClass h
    cases hstmts.symm.trans hc

end ResolveInput

/-! ### Going outwards from where the walk stands -/

section Climbing

variable {input : ResolveInput} {r r₁ r₂ : Resolution} {mk : MarkerId → Marker}
  {events : List Event}
  {parts : ScriptParts} {owner : String} {around around' : List Surround} {m n : NodeId}

/-- If what opens a scope links it to the scope around, one can go outwards from everything in a
    construct from which one can go outwards. -/
theorem Ast.Lies.climbs (hlies : input.ast.Lies around m around' n)
    (hsettled : ∀ {around' n}, input.ast.Lies around m around' n →
      Settled input r owner around' n r₁ r₂)
    (h : r₂.Climbs (innermost around) (around.map Surround.block)) :
    r₂.Climbs (innermost around') (around'.map Surround.block) := by
  induction hlies with
  | here => exact h
  | part hdata hopens hclass hk _ ih =>
    exact ih (fun hlies => hsettled (.part hdata hopens hclass hk hlies)) h
  | param hopens hk _ ih =>
    have hscope := (hsettled (.here _ _)).scope _ hopens
    exact ih (fun hlies => hsettled (.param hopens hk hlies)) (.step hscope h)
  | stmt hopens hk _ ih =>
    have hscope := (hsettled (.here _ _)).scope _ hopens
    exact ih (fun hlies => hsettled (.stmt hopens hk hlies)) (.step hscope h)

theorem Enters.climbs (h : Enters input.ast r.classes m owner around n)
    (hsettled : ∀ {owner around n}, Enters input.ast r.classes m owner around n →
      Settled input r owner around n r₁ r₂) :
    r₂.Climbs (innermost around) (around.map Surround.block) := by
  induction h with
  | here hdata hknown => exact .step ((hsettled (.here hdata hknown)).ofClass _ hdata) .outside
  | member hdata hknown hk hlies =>
    exact hlies.climbs (fun hlies => hsettled (.member hdata hknown hk hlies))
      (.step ((hsettled (.here hdata hknown)).ofClass _ hdata) .outside)
  | inner hdata hknown hi _ ih => exact ih fun h => hsettled (.inner hdata hknown hi h)

theorem Visited.climbs (h : ScriptRecorded input.ast mk events input.root parts)
    (hn : Visited input input.resolve.value parts owner around n) :
    input.resolve.value.Climbs (innermost around) (around.map Surround.block) := by
  have hfinds := ResolveInput.resolve_finds h
  rcases hn with ⟨rfl, k, hk, hlies⟩ | ⟨i, hi, henters⟩
  · exact hlies.climbs (fun hlies => hfinds.settled (.inl ⟨rfl, k, hk, hlies⟩)) .outside
  · exact henters.climbs fun henters => hfinds.settled (.inr ⟨i, hi, henters⟩)

end Climbing

namespace ResolveInput

variable {input : ResolveInput} {mk : MarkerId → Marker} {events : List Event} {parts : ScriptParts}
  {owner : String} {scopes : List NodeId} {n block : NodeId}

theorem Seat.climbs (h : ScriptRecorded input.ast mk events input.root parts)
    (hn : input.Seat owner scopes n) : input.resolve.value.Climbs scopes.head? scopes := by
  cases hn with
  | construct hn =>
    rw [List.head?_map]
    exact (hn.visited h).climbs h
  | block hm _ _ =>
    rw [List.head?_map]
    exact (hm.visited h).climbs h
  | ofClass hm => exact (hm.visited_self h).climbs h

/-- Every scope was opened where one can go outwards. -/
theorem exists_climbs (h : ScriptRecorded input.ast mk events input.root parts)
    (hblock : block ∈ input.resolve.value.blocks) :
    ∃ scopes, input.resolve.value.Climbs (some block) scopes := by
  obtain ⟨owner, around, n, hn, ⟨scope, hopens, rfl⟩ | ⟨decl, hdata, rfl⟩⟩ :=
    visited_of_block h hblock
  · exact ⟨_, .step (((resolve_finds h).settled hn).scope scope hopens) (hn.climbs h)⟩
  · exact ⟨_, .step (((resolve_finds h).settled hn).ofClass decl hdata) .outside⟩

/-- The scopes of every script form a tree. -/
theorem scopes_form_tree (text scriptName : String) (file : FileId) (globals : Globals)
    (others : ClassLookup) : ∃ p, parseScript text = .ok p ∧
      (ResolveInput.mk file scriptName p.ast p.root globals others).ScopeTree := by
  obtain ⟨p, -, -, -, hp, -⟩ := parseWith_script text (scan_endsWithEof text)
  obtain ⟨parts, hparts⟩ := ScriptRecorded.of_parse hp
  have h : ScriptRecorded (ResolveInput.mk file scriptName p.ast p.root globals others).ast _ _
      (ResolveInput.mk file scriptName p.ast p.root globals others).root parts := hparts
  refine ⟨p, hp, ?_, ?_, ?_, ?_, ?_, ?_, ?_⟩
  · exact fun n data hreach hroot himport hdata hnamed =>
      nests_of_reaches h hreach hroot himport hdata hnamed
  · intro owner n script hn hscript
    obtain rfl := Option.some.inj (h.classDecl?_root.symm.trans hscript)
    rw [hn.outermost h]
    exact h.script.body
  · exact fun owner scopes n hn hfield => (hn.seat h).noted h hfield
  · exact fun owner scopes n hn hblock => (hn.seat h).scope h hblock
  · exact fun owner m hm => ⟨_, hm.scope h, rfl, rfl⟩
  · exact fun owner scopes n hn => (hn.seat h).climbs h
  · intro block hblock
    obtain ⟨scopes, hscopes⟩ := exists_climbs h hblock
    exact ⟨scopes, hscopes, hscopes.scopesAround_eq⟩

end ResolveInput

end ScriptAnalysis
