import ScriptAnalysis.Proofs.Grammar.Scripts
import ScriptAnalysis.Proofs.Scope.Owners

/-!
# Names are resolved lexically

However a script is written, every name in it is either bound to what it means at its place or
reported once.  The lookup of a place knows the text alone: the scopes around it and what they
declare, the chain of base classes, the globals and the classes.
-/

namespace ScriptAnalysis

/-! ### Chains of base classes -/

/-- `BaseChain find seen name chain`: from the class `name` the chain of base classes is `chain`.
    It ends at a class that is not known, and where a name is among those `seen` before. -/
inductive BaseChain (find : String → Option ClassSummary) :
    List String → String → List ClassSummary → Prop
  | seen {seen : List String} {name : String} : name ∈ seen → BaseChain find seen name []
  | unknown {seen : List String} {name : String} :
      name ∉ seen → find name = none → BaseChain find seen name []
  | last {seen : List String} {name : String} {c : ClassSummary} :
      name ∉ seen → find name = some c → c.base = none → BaseChain find seen name [c]
  | more {seen : List String} {name base : String} {c : ClassSummary} {cs : List ClassSummary} :
      name ∉ seen → find name = some c → c.base = some base →
      BaseChain find (name :: seen) base cs → BaseChain find seen name (c :: cs)

/-- There are no more classes in other files than the lookup tells. -/
def ClassLookup.IsFinite (others : ClassLookup) : Prop :=
  ∃ names : List String, names.length ≤ others.limit ∧
    ∀ name, (others.named name).isSome → name ∈ names

namespace Resolution

variable {r : Resolution} {others : ClassLookup}

/-- The known names are among finitely many. -/
theorem known_names (h : others.IsFinite) : ∃ names : List String,
    names.length < r.chainLimit others ∧
      ∀ name, (r.findClass others name).value ≠ none → name ∈ names := by
  obtain ⟨names, hlength, hnames⟩ := h
  refine ⟨r.classes.map ClassSummary.fullName ++ names, ?_, fun name hname => ?_⟩
  · unfold chainLimit
    rw [List.length_append, List.length_map]
    omega
  · unfold findClass localClass? at hname
    cases hlocal : r.classes.find? (·.fullName == name) with
    | some c =>
      have hc := List.find?_some hlocal
      refine List.mem_append_left _ (List.mem_map.mpr ⟨c, List.mem_of_find?_eq_some hlocal, ?_⟩)
      simpa using hc
    | none =>
      rw [hlocal] at hname
      exact List.mem_append_right _ (hnames name (Option.isSome_iff_ne_none.mpr hname))

/-- Among finitely many names are all the known ones and those `seen`, and there are more steps than
    names not yet seen. -/
structure Enough (r : Resolution) (others : ClassLookup) (names seen : List String)
    (steps : Nat) : Prop where
  known : ∀ name, (r.findClass others name).value ≠ none → name ∈ names
  nodup : seen.Nodup
  among : ∀ name ∈ seen, name ∈ names
  enough : names.length < steps + seen.length

theorem Enough.start (h : others.IsFinite) : ∃ names, ∀ steps, r.chainLimit others ≤ steps →
    r.Enough others names [] steps := by
  obtain ⟨names, hlength, hnames⟩ := known_names (r := r) h
  exact ⟨names, fun steps hle => ⟨hnames, List.nodup_nil, by simp, Nat.lt_of_lt_of_le hlength hle⟩⟩

namespace Enough

variable {names seen : List String} {steps : Nat} {name : String}

theorem pos (h : r.Enough others names seen steps) : 0 < steps := by
  have hle := (List.subperm_of_subset h.nodup h.among).length_le
  have henough := h.enough
  omega

/-- A step to a known name that was not seen before. -/
theorem step (h : r.Enough others names seen (steps + 1)) (hnew : name ∉ seen)
    (hknown : (r.findClass others name).value ≠ none) :
    r.Enough others names (name :: seen) steps where
  known := h.known
  nodup := List.nodup_cons.mpr ⟨hnew, h.nodup⟩
  among := List.forall_mem_cons.mpr ⟨h.known name hknown, h.among⟩
  enough := by
    have henough := h.enough
    rw [List.length_cons]
    omega

end Enough

/-- With more steps than there are known names a chain is followed to its end. -/
theorem basesFrom_isChain {names seen : List String} {steps : Nat}
    (h : r.Enough others names seen steps) (name : String) :
    BaseChain (fun name => (r.findClass others name).value) seen name
      (r.basesFrom others steps seen name).value := by
  induction steps generalizing seen name with
  | zero => exact absurd h.pos (Nat.lt_irrefl 0)
  | succ steps ih =>
    unfold basesFrom
    split
    · next hseen => exact .seen hseen
    · next hseen =>
      rw [Consulted.value_bind]
      cases hfound : (r.findClass others name).value with
      | none => exact .unknown hseen hfound
      | some c =>
        dsimp only
        cases hbase : c.base with
        | none => exact .last hseen hfound hbase
        | some base =>
          exact .more hseen hfound hbase (ih (h.step hseen (by rw [hfound]; simp)) base)

/-- The chain of a class is the one that following its base classes gives. -/
theorem classChain_isChain (h : others.IsFinite) (name : String) :
    BaseChain (fun name => (r.findClass others name).value) [] name
      (r.classChain others name).value := by
  obtain ⟨names, henough⟩ := Enough.start (r := r) h
  exact basesFrom_isChain (henough _ (Nat.le_refl _)) name

end Resolution

/-! ### Names -/

namespace ResolveInput

/-- The one outcome of a name at a node: the node is bound to what the name means, and if that is
    nothing, the name is reported once. -/
structure HasOutcome (input : ResolveInput) (n : NodeId) (name : String)
    (meaning : Option Binding) : Prop where
  binding : input.resolve.value.bindings[n]? = meaning
  reported : input.resolve.value.unknowns name (input.ast.span n) =
    if meaning = none then 1 else 0

theorem Stands.outcome {input : ResolveInput} {mk : MarkerId → Marker} {events : List Event}
    {parts : ScriptParts} {owner name : String} {around : List Surround} {n : NodeId}
    (h : ScriptRecorded input.ast mk events input.root parts) (hn : input.Stands owner around n)
    (hname : input.ast.IsName n name) : input.HasOutcome n name (input.meaning input.resolve.value
      owner (input.resolve.value.classChain input.others owner).value around name
      (input.ast.span n).start) := by
  have hsettled := (resolve_finds h).settled (hn.visited h)
  rw [← input.bindingAt_of_isName hname]
  refine ⟨hsettled.binding Std.TreeMap.getElem?_emptyc, ?_⟩
  rw [hsettled.reported name hname]
  exact Nat.zero_add _

/-- In every text, each name outside classes without a name stands in code of a class, and has the
    outcome that a lookup along the scopes around it, the base classes of that class, the globals
    and the classes gives. -/
theorem names_resolve_lexically (text scriptName : String) (file : FileId) (globals : Globals)
    {others : ClassLookup} (hothers : others.IsFinite) :
    ∃ p, parseScript text = .ok p ∧ ∀ input : ResolveInput,
      input = ⟨file, scriptName, p.ast, p.root, globals, others⟩ → ∀ n name,
      p.ast.Reaches p.root n → p.ast.IsName n name →
      (∃ owner around, input.Stands owner around n) ∧
      ∀ owner around, input.Stands owner around n → ∃ chain,
        BaseChain (fun c => (input.resolve.value.findClass others c).value) [] owner chain ∧
        input.HasOutcome n name (input.meaning input.resolve.value owner chain around name
          (p.ast.span n).start) := by
  obtain ⟨p, -, -, -, hp, -⟩ := parseWith_script text (scan_endsWithEof text)
  obtain ⟨parts, hparts⟩ := ScriptRecorded.of_parse hp
  refine ⟨p, hp, ?_⟩
  rintro input rfl n name hreach hname
  refine ⟨stands_of_reaches hparts hreach hname, fun owner around hn => ?_⟩
  exact ⟨_, Resolution.classChain_isChain hothers owner, hn.outcome hparts hname⟩

theorem meaning_of_scopes (input : ResolveInput) {r : Resolution} {owner name : String}
    {chain : List ClassSummary} {around : List Surround} {offset : Nat} {decl : NodeId}
    (h : around.findSome? (fun scope => scope.find? input.ast name offset) = some decl) :
    input.meaning r owner chain around name offset = some (.localDecl decl) := by
  unfold meaning
  rw [h]

/-- A variable that is used behind its declaration. -/
theorem used_variable_resolves : ClassLookup.none.IsFinite ∧
    ∃ p, parseScript "A a a" = .ok p ∧ p.ast.Reaches p.root 4 ∧ p.ast.IsName 4 "a" ∧
      ∀ input : ResolveInput, input = ⟨0, "S", p.ast, p.root, .empty, .none⟩ →
        input.Stands "S" [⟨6, [], [3, 5], false⟩] 4 ∧
        input.HasOutcome 4 "a" (some (.localDecl 2)) := by
  have hfinite : ClassLookup.none.IsFinite := ⟨[], by simp, by simp [ClassLookup.none]⟩
  obtain ⟨p, hp, hlexical⟩ := names_resolve_lexically "A a a" "S" 0 .empty hfinite
  obtain ⟨root, ast, transcript⟩ := p
  dsimp only at hlexical ⊢
  obtain ⟨rfl, hscript, hblock, hstmt, hname, hscopes⟩ := of_parse hp (P := fun p =>
    p.root = 7 ∧ p.ast.data? 7 = some (.classDecl { body := some 6, isScript := true }) ∧
    p.ast.data? 6 = some (.block [3, 5]) ∧ p.ast.data? 5 = some (.exprStmt 4) ∧
    p.ast.data? 4 = some (.identifier "a") ∧
    [Surround.mk 6 [] [3, 5] false].findSome?
      (fun scope => scope.find? p.ast "a" (p.ast.span 4).start) = some 2) (by decide +kernel)
  dsimp only at hscript hblock hstmt hname hscopes
  have hreach : ast.Reaches 7 4 := .part hscript rfl (by decide) (.part hblock rfl (by decide)
    (.part hstmt rfl (by decide) (.here 4)))
  have hopens : ast.opens? 6 = some ⟨6, [], [3, 5], false⟩ := by
    rw [Ast.opens?, hblock]
  have hlies : ast.Lies [] 6 [⟨6, [], [3, 5], false⟩] 4 := by
    refine .stmt hopens (k := 5) (by decide) ?_
    exact .part hstmt (by rw [Ast.opens?, hstmt]) (by simp) (by decide) (.here _ 4)
  have hclass : (ResolveInput.mk 0 "S" ast 7 .empty .none).ast.classDecl? 7 =
      some { body := some 6, isScript := true } := Ast.classDecl?_eq_some.mpr hscript
  have hstands := Stands.script hclass rfl hlies
  refine ⟨hfinite, _, hp, hreach, .inl hname, ?_⟩
  rintro input rfl
  obtain ⟨chain, -, houtcome⟩ := (hlexical _ rfl 4 "a" hreach (.inl hname)).2 _ _ hstands
  rw [meaning_of_scopes (ResolveInput.mk 0 "S" ast 7 .empty .none) hscopes] at houtcome
  exact ⟨hstands, houtcome⟩

/-- What a name would refer to if parameters saw the functions of the block behind them. -/
def meaningInBlocks (input : ResolveInput) (r : Resolution) (owner : String)
    (chain : List ClassSummary) (around : List Surround) (name : String) (offset : Nat) :
    Option Binding :=
  input.meaning r owner chain (around.map fun scope => { scope with inParams := false }) name offset

/-- The initial value of a parameter does not see a function of the body: the name is reported
    although the block that the parameter belongs to declares it. -/
theorem parameter_does_not_see_function {p : Parse}
    (hp : parseScript "A f(a=g)\x7bA g()\x7b\x7d\x7d" = .ok p) {input : ResolveInput}
    (hinput : input = ⟨0, "S", p.ast, p.root, .empty, .none⟩) :
    p.ast.Reaches p.root 3 ∧ p.ast.IsName 3 "g" ∧ ∃ around, input.Stands "S" around 3 ∧
      (∀ chain, input.meaningInBlocks input.resolve.value "S" chain around "g"
        (p.ast.span 3).start = some (.localDecl 9)) ∧
      input.resolve.value.bindings[3]? = none := by
  obtain ⟨root, ast, transcript⟩ := p
  obtain ⟨rfl, hscript, hbody, hfun, hdecl, hparam, hvar, hname⟩ := of_parse hp (P := fun p =>
    p.root = 15 ∧ p.ast.data? 15 = some (.classDecl { body := some 14, isScript := true }) ∧
    p.ast.data? 14 = some (.block [13]) ∧ p.ast.data? 13 = some (.funDecl 12) ∧
    p.ast.data? 12 = some (.funDeclExpr ⟨"f", 2, .named "A", [5], 11, false⟩) ∧
    p.ast.data? 5 = some (.varDecl 4) ∧
    p.ast.data? 4 = some (.varDeclExpr ⟨"a", 4, .any, some 3, .parameter⟩) ∧
    p.ast.data? 3 = some (.identifier "g")) (by decide +kernel)
  obtain ⟨hinner, hfound, hbinding⟩ := of_parse hp (P := fun p =>
    p.ast.opens? 12 = some ⟨11, [5], [10], false⟩ ∧
    [Surround.mk 11 [5] [10] false, ⟨14, [], [13], false⟩].findSome?
      (fun scope => scope.find? p.ast "g" (p.ast.span 3).start) = some 9 ∧
    (ResolveInput.mk 0 "S" p.ast p.root .empty .none).resolve.value.bindings[3]? = none)
    (by decide +kernel)
  dsimp only at *
  subst hinput
  have hreach : ast.Reaches 15 3 :=
    .part hscript rfl (by decide) (.part hbody rfl (by decide) (.part hfun rfl (by decide)
      (.part hdecl rfl (by decide) (.part hparam rfl (by decide)
        (.part hvar rfl (by decide) (.here 3))))))
  have hopens : ast.opens? 14 = some ⟨14, [], [13], false⟩ := by
    rw [Ast.opens?, hbody]
  have hvalue : ast.Lies [⟨11, [5], [10], true⟩, ⟨14, [], [13], false⟩] 5
      [⟨11, [5], [10], true⟩, ⟨14, [], [13], false⟩] 3 :=
    .part hparam (by rw [Ast.opens?, hparam]) (by simp) (by decide)
      (.part hvar (by rw [Ast.opens?, hvar]) (by simp) (by decide) (.here _ 3))
  have hlies : ast.Lies [] 14 [⟨11, [5], [10], true⟩, ⟨14, [], [13], false⟩] 3 :=
    .stmt hopens (k := 13) (by decide) (.part hfun (by rw [Ast.opens?, hfun]) (by simp) (by decide)
      (.param hinner (by decide) hvalue))
  have hclass : (ResolveInput.mk 0 "S" ast 15 .empty .none).ast.classDecl? 15 =
      some { body := some 14, isScript := true } := Ast.classDecl?_eq_some.mpr hscript
  exact ⟨hreach, .inl hname, _, Stands.script hclass rfl hlies,
    fun chain => meaning_of_scopes _ hfound, hbinding⟩

/-- Of two classes with one full name the members of the second one are not seen in its methods. -/
theorem second_class_not_seen {p : Parse}
    (hp : parseScript "class A\x7b\x7dclass A\x7bA m A f()\x7bm\x7d\x7d" = .ok p)
    {input : ResolveInput} (hinput : input = ⟨0, "S", p.ast, p.root, .empty, .none⟩) :
    p.ast.Reaches p.root 9 ∧ p.ast.IsName 9 "m" ∧ ∃ decl around,
      p.ast.classDecl? 14 = some decl ∧ decl.fields.map p.ast.varName? = [some "m"] ∧
      13 ∈ decl.methods ∧ p.ast.Lies [classScope 14] 13 around 9 ∧
      input.resolve.value.bindings[9]? = none := by
  obtain ⟨root, ast, transcript⟩ := p
  obtain ⟨rfl, hscript, hclass, hfun, hdecl, hstmt, hname⟩ := of_parse hp (P := fun p =>
    p.root = 16 ∧
    p.ast.data? 16 = some (.classDecl { inner := [1, 14], body := some 15, isScript := true }) ∧
    p.ast.data? 14 = some (.classDecl { name := "A", fields := [6], methods := [13] }) ∧
    p.ast.data? 13 = some (.funDecl 12) ∧
    p.ast.data? 12 = some (.funDeclExpr ⟨"f", 23, .named "A", [], 11, true⟩) ∧
    p.ast.data? 10 = some (.exprStmt 9) ∧ p.ast.data? 9 = some (.identifier "m"))
      (by decide +kernel)
  obtain ⟨hbody, hopens, hfield, hbinding⟩ := of_parse hp (P := fun p =>
    p.ast.data? 11 = some (.block [10]) ∧ p.ast.opens? 12 = some ⟨11, [], [10], false⟩ ∧
    p.ast.varName? 6 = some "m" ∧
    (ResolveInput.mk 0 "S" p.ast p.root .empty .none).resolve.value.bindings[9]? = none)
    (by decide +kernel)
  dsimp only at *
  subst hinput
  have hreach : ast.Reaches 16 9 :=
    .part hscript rfl (by decide) (.part hclass rfl (by decide) (.part hfun rfl (by decide)
      (.part hdecl rfl (by decide) (.part hbody rfl (by decide)
        (.part hstmt rfl (by decide) (.here 9))))))
  have hlies : ast.Lies [classScope 14] 13 [⟨11, [], [10], false⟩, classScope 14] 9 :=
    .part hfun (by rw [Ast.opens?, hfun]) (by simp) (by decide) (.stmt hopens (k := 10) (by decide)
      (.part hstmt (by rw [Ast.opens?, hstmt]) (by simp) (by decide) (.here _ 9)))
  exact ⟨hreach, .inl hname, _, _, Ast.classDecl?_eq_some.mpr hclass, by simp [hfield], by decide,
    hlies, hbinding⟩

/-- The blocks around a name and the class around it do not tell what it refers to: parameters do
    not see the functions behind them, and a class goes by its full name. -/
theorem names_not_told_by_blocks :
    (∃ p, parseScript "A f(a=g)\x7bA g()\x7b\x7d\x7d" = .ok p ∧
      ∀ input : ResolveInput, input = ⟨0, "S", p.ast, p.root, .empty, .none⟩ →
        p.ast.Reaches p.root 3 ∧ p.ast.IsName 3 "g" ∧ ∃ around, input.Stands "S" around 3 ∧
          (∀ chain, input.meaningInBlocks input.resolve.value "S" chain around "g"
            (p.ast.span 3).start = some (.localDecl 9)) ∧
          input.resolve.value.bindings[3]? = none) ∧
    ∃ p, parseScript "class A\x7b\x7dclass A\x7bA m A f()\x7bm\x7d\x7d" = .ok p ∧
      ∀ input : ResolveInput, input = ⟨0, "S", p.ast, p.root, .empty, .none⟩ →
        p.ast.Reaches p.root 9 ∧ p.ast.IsName 9 "m" ∧ ∃ decl around,
          p.ast.classDecl? 14 = some decl ∧ decl.fields.map p.ast.varName? = [some "m"] ∧
          13 ∈ decl.methods ∧ p.ast.Lies [classScope 14] 13 around 9 ∧
          input.resolve.value.bindings[9]? = none := by
  constructor
  · obtain ⟨p, -, -, -, hp, -⟩ := parseWith_script _ (scan_endsWithEof _)
    exact ⟨p, hp, fun _ hinput => parameter_does_not_see_function hp hinput⟩
  · obtain ⟨p, -, -, -, hp, -⟩ := parseWith_script _ (scan_endsWithEof _)
    exact ⟨p, hp, fun _ hinput => second_class_not_seen hp hinput⟩

end ResolveInput

end ScriptAnalysis
