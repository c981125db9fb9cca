import ScriptAnalysis.Proofs.Recording.Marked
import ScriptAnalysis.Proofs.Scope.Owners

/-!
# Where the declarations of a script stand

Whatever a name of a script is bound to is declared in the script, unless it is a global or a class
of another file.  `Resolution.Declares` tells by which statement or by which class.
-/

namespace ScriptAnalysis

/-! ### Statements that declare something -/

namespace Ast

variable {ast : Ast} {around around' : List Surround} {m n k d : NodeId} {scope : Surround}

/-- A variable that a statement declares in the scope around it has a statement of its own in it. -/
theorem stmt_of_varsWithin {depth : Nat} (h : d ∈ ast.varsWithin depth n) :
    ∃ stmt, ast.Contains n stmt ∧ ast.data? stmt = some (.varDecl d) ∧
      isNamed (ast.varName? d) = true := by
  induction depth generalizing n with
  | zero => cases h
  | succ depth ih =>
    rw [varsWithin] at h
    split at h
    · next decl hdata =>
      split at h
      · next hnamed =>
        obtain rfl := List.mem_singleton.mp h
        exact ⟨n, .here n, hdata, hnamed⟩
      · cases h
    · next cond thenBranch elseBranch hdata =>
      obtain ⟨branch, hbranch, hd⟩ := List.mem_flatMap.mp h
      obtain ⟨stmt, hstmt, hdecl⟩ := ih hd
      exact ⟨stmt, .part hdata (List.mem_cons_of_mem _ hbranch) hstmt, hdecl⟩
    · next cond body hdata =>
      obtain ⟨stmt, hstmt, hdecl⟩ := ih h
      exact ⟨stmt, .part hdata (by simp [NodeData.parts]) hstmt, hdecl⟩
    · cases h

theorem stmt_of_directFun? (h : ast.directFun? n = some d) :
    ast.data? n = some (.funDecl d) ∧ isNamed (ast.funName? d) = true := by
  unfold directFun? at h
  split at h
  · next decl hdata =>
    split at h
    · next hnamed =>
      obtain rfl := Option.some.inj h
      exact ⟨hdata, hnamed⟩
    · cases h
  · cases h

/-- The parameters and the statements of a scope are in what opens it. -/
theorem contains_of_opens (hopens : ast.opens? m = some scope)
    (hk : k ∈ scope.params ++ scope.stmts) :
    ast.Contains m k := by
  have hbody : ∀ {body : NodeId}, k ∈ Walk.blockStatements ast body → ast.Contains body k := by
    intro body hk
    unfold Walk.blockStatements at hk
    split at hk
    · next stmts hdata => exact .part hdata hk (.here k)
    · cases hk
  unfold opens? at hopens
  split at hopens
  · next params body isBlock hdata =>
    obtain rfl := Option.some.inj hopens
    rcases List.mem_append.mp hk with hk | hk
    · exact .part hdata (List.mem_append_left _ hk) (.here k)
    · exact .part hdata (List.mem_append_right _ (List.mem_singleton_self _)) (hbody hk)
  · next f hdata =>
    obtain rfl := Option.some.inj hopens
    rcases List.mem_append.mp hk with hk | hk
    · exact .part hdata (List.mem_append_left _ hk) (.here k)
    · exact .part hdata (List.mem_append_right _ (List.mem_singleton_self _)) (hbody hk)
  · next stmts hdata =>
    obtain rfl := Option.some.inj hopens
    exact .part hdata hk (.here k)
  · cases hopens

/-- What a scope declares has a statement in the node `m`. -/
def Holds (ast : Ast) (m : NodeId) (scope : Surround) : Prop :=
  ∀ k ∈ scope.params ++ scope.stmts, ast.Contains m k

theorem Holds.part (h : ast.Holds k scope) (hk : ast.Contains m k) : ast.Holds m scope :=
  fun l hl => hk.trans (h l hl)

/-- The scopes around a node were there before, or hold what is in the construct. -/
theorem Lies.holds (h : ast.Lies around m around' n) (hscope : scope ∈ around') :
    scope ∈ around ∨ ast.Holds m scope := by
  induction h with
  | here => exact .inl hscope
  | part hdata _ _ hk _ ih =>
    exact (ih hscope).imp_right fun hholds => hholds.part (.part hdata hk (.here _))
  | @param _ _ m k _ opened hopens hk _ ih =>
    have hcontains := contains_of_opens hopens (List.mem_append_left _ hk)
    rcases ih hscope with hmem | hholds
    · rcases List.mem_cons.mp hmem with rfl | hmem
      · exact .inr fun l hl => contains_of_opens hopens hl
      · exact .inl hmem
    · exact .inr (hholds.part hcontains)
  | @stmt _ _ m k _ opened hopens hk _ ih =>
    have hcontains := contains_of_opens hopens (List.mem_append_right _ hk)
    rcases ih hscope with hmem | hholds
    · rcases List.mem_cons.mp hmem with rfl | hmem
      · exact .inr fun l hl => contains_of_opens hopens hl
      · exact .inl hmem
    · exact .inr (hholds.part hcontains)

/-- A variable of a scope has a name, and a statement that declares it. -/
theorem Holds.stmt_of_mem_vars (h : ast.Holds m scope) (hd : d ∈ scope.vars ast) :
    ∃ stmt, ast.Contains m stmt ∧ ast.data? stmt = some (.varDecl d) ∧
      isNamed (ast.varName? d) = true := by
  obtain ⟨k, hk, hd⟩ := List.mem_flatMap.mp hd
  obtain ⟨stmt, hstmt, hdata⟩ := stmt_of_varsWithin hd
  exact ⟨stmt, (h k hk).trans hstmt, hdata⟩

/-- A declaration that is found in a scope has a statement. -/
theorem Holds.stmt_of_find? {name : String} {offset : Nat} (h : ast.Holds m scope)
    (hfind : scope.find? ast name offset = some d) :
    ∃ stmt, ast.Contains m stmt ∧ (ast.data? stmt = some (.varDecl d) ∨
      ast.data? stmt = some (.funDecl d) ∧ isNamed (ast.funName? d) = true) := by
  unfold Surround.find? at hfind
  rcases Option.or_eq_some_iff.mp hfind with hvar | ⟨-, hfun⟩
  · have hmem := List.mem_of_find?_eq_some (Option.filter_eq_some_iff.mp hvar).1
    obtain ⟨stmt, hstmt, hdata, -⟩ := h.stmt_of_mem_vars hmem
    exact ⟨stmt, hstmt, .inl hdata⟩
  · have hmem := List.mem_of_find?_eq_some hfun
    unfold Surround.funs at hmem
    split at hmem
    · cases hmem
    · obtain ⟨k, hk, hd⟩ := List.mem_filterMap.mp hmem
      exact ⟨k, h k (List.mem_append_right _ hk), .inr (stmt_of_directFun? hd)⟩

end Ast

/-- The scopes around a node that is walked hold what is in the script. -/
theorem Enters.holds {ast : Ast} {classes : List ClassSummary} {m n : NodeId} {owner : String}
    {around : List Surround} {scope : Surround} (h : Enters ast classes m owner around n)
    (hscope : scope ∈ around) : ast.Holds m scope := by
  induction h with
  | here =>
    obtain rfl := List.mem_singleton.mp hscope
    exact fun l hl => by simp [classScope] at hl
  | @member m k n decl c around hdata _ hk hlies =>
    have hpart : ast.Contains m k := by
      refine .part hdata ?_ (.here k)
      unfold NodeData.parts
      simp only [List.mem_append] at hk ⊢
      exact .inl (.inl (.inl hk))
    rcases hlies.holds hscope with hmem | hholds
    · obtain rfl := List.mem_singleton.mp hmem
      exact fun l hl => by simp [classScope] at hl
    · exact hholds.part hpart
  | inner hdata _ hi _ ih =>
    refine (ih hscope).part (.part hdata ?_ (.here _))
    unfold NodeData.parts
    simp [hi]

namespace ScriptRecorded

variable {ast : Ast} {mk : MarkerId → Marker} {events : List Event} {root : Nat}
  {parts : ScriptParts} {k : NodeId}

theorem contains_body (h : ScriptRecorded ast mk events root parts) :
    ast.Contains root parts.body := by
  refine .part h.data_root ?_ (.here _)
  simp [NodeData.parts, h.script.body]

theorem contains_inner (h : ScriptRecorded ast mk events root parts) (hk : k ∈ parts.decl.inner) :
    ast.Contains root k := by
  refine .part h.data_root ?_ (.here _)
  simp [NodeData.parts, hk]

end ScriptRecorded

theorem Visited.holds {input : ResolveInput} {r : Resolution} {mk : MarkerId → Marker}
    {events : List Event} {parts : ScriptParts} {owner : String}
    {around : List Surround} {n : NodeId}
    {scope : Surround} (h : ScriptRecorded input.ast mk events input.root parts)
    (hn : Visited input r parts owner around n) (hscope : scope ∈ around) :
    input.ast.Holds input.root scope := by
  rcases hn with ⟨-, m, hm, hlies⟩ | ⟨i, hi, henters⟩
  · obtain rfl := List.mem_singleton.mp hm
    rcases hlies.holds hscope with hmem | hholds
    · cases hmem
    · exact hholds.part h.contains_body
  · exact (henters.holds hscope).part (h.contains_inner hi)

/-! ### Classes that are found -/

/-- There are no classes in other files. -/
def ClassLookup.IsSilent (others : ClassLookup) : Prop := ∀ name, others.named name = .none

namespace Resolution

variable {r : Resolution} {others : ClassLookup} {c : ClassSummary} {name : String}

theorem localClass?_self (h : r.localClass? name = some c) : r.localClass? c.fullName = some c := by
  have hname : c.fullName = name := by simpa using List.find?_some h
  rw [hname]
  exact h

theorem findClass_local (hothers : others.IsSilent) (h : (r.findClass others name).value = some c) :
    r.localClass? c.fullName = some c := by
  unfold findClass at h
  split at h
  · next found hfound =>
    obtain rfl := Option.some.inj h
    exact localClass?_self hfound
  · rw [ClassLookup.ask, hothers] at h
    cases h

theorem findFirst_local (hothers : others.IsSilent) {names : List String}
    (h : (r.findFirst others names).value = some c) : r.localClass? c.fullName = some c := by
  induction names with
  | nil => cases h
  | cons name names ih =>
    unfold findFirst at h
    rw [Consulted.value_bind] at h
    split at h
    · next found hfound =>
      obtain rfl := Option.some.inj h
      exact findClass_local hothers hfound
    · exact ih h

theorem resolveClass_local (hothers : others.IsSilent) {around : String}
    (h : (r.resolveClass others name around).value = some c) : r.localClass? c.fullName = some c :=
  findFirst_local hothers h

theorem basesFrom_local (hothers : others.IsSilent) {steps : Nat} {seen : List String}
    (h : c ∈ (r.basesFrom others steps seen name).value) : r.localClass? c.fullName = some c := by
  induction steps generalizing seen name with
  | zero => cases h
  | succ steps ih =>
    unfold basesFrom at h
    split at h
    · cases h
    · rw [Consulted.value_bind] at h
      split at h
      · cases h
      · next found hfound =>
        have hlocal := findClass_local hothers hfound
        split at h
        · obtain rfl := List.mem_singleton.mp h
          exact hlocal
        · rw [Consulted.value_bind] at h
          rcases List.mem_cons.mp h with rfl | hmem
          · exact hlocal
          · exact ih hmem

end Resolution

/-! ### Bindings -/

/-- What a binding of a script without other files leads to: a statement in the script, a member of
    a class of the script, or such a class. -/
inductive Binding.LeadsTo (r : Resolution) (ast : Ast) (root : NodeId) : Binding → Prop
  | ofVariable {stmt decl : NodeId} :
    ast.Contains root stmt → ast.data? stmt = some (.varDecl decl) →
      LeadsTo r ast root (.localDecl decl)
  | ofFunction {stmt decl : NodeId} :
    ast.Contains root stmt → ast.data? stmt = some (.funDecl decl) →
      Ast.isNamed (ast.funName? decl) = true → LeadsTo r ast root (.localDecl decl)
  | ofField {c : ClassSummary} {name : String} : r.localClass? c.fullName = some c →
      (c.field? name).isSome = true → LeadsTo r ast root (.field c.fullName name)
  | ofMethod {c : ClassSummary} {name : String} : r.localClass? c.fullName = some c →
      c.field? name = none → (c.method? name).isSome = true →
      LeadsTo r ast root (.method c.fullName name)
  | ofClass {c : ClassSummary} : r.localClass? c.fullName = some c →
      LeadsTo r ast root (.toClass c.fullName)
  | ofGlobal {name : String} : LeadsTo r ast root (.global name)

namespace ResolveInput

variable {input : ResolveInput} {r : Resolution} {mk : MarkerId → Marker} {events : List Event}
  {parts : ScriptParts} {owner name : String} {around : List Surround} {n : NodeId} {b : Binding}

theorem leadsTo_of_member {c : ClassSummary} (hc : r.localClass? c.fullName = some c)
    (h : c.memberBinding? name = some b) : b.LeadsTo r input.ast input.root := by
  unfold ClassSummary.memberBinding? at h
  split at h
  · next hfield =>
    obtain rfl := Option.some.inj h
    exact .ofField hc hfield
  · next hfield =>
    split at h
    · next hmethod =>
      obtain rfl := Option.some.inj h
      exact .ofMethod hc (by simpa using hfield) hmethod
    · cases h

theorem leadsTo_of_class (hothers : input.others.IsSilent)
    (h : (r.resolveClass input.others name owner).value.map (fun c => Binding.toClass c.fullName) =
      some b) : b.LeadsTo r input.ast input.root := by
  obtain ⟨c, hc, rfl⟩ := Option.map_eq_some_iff.mp h
  exact .ofClass (Resolution.resolveClass_local hothers hc)

theorem leadsTo_of_meaning (hothers : input.others.IsSilent)
    (hholds : ∀ scope ∈ around, input.ast.Holds input.root scope) {offset : Nat}
    (h : input.meaning r owner (r.classChain input.others owner).value around name offset =
      some b) :
    b.LeadsTo r input.ast input.root := by
  unfold meaning at h
  split at h
  · next decl hfound =>
    obtain rfl := Option.some.inj h
    obtain ⟨scope, hscope, hfind⟩ := List.exists_of_findSome?_eq_some hfound
    obtain ⟨stmt, hstmt, hvar | ⟨hfun, hnamed⟩⟩ := (hholds scope hscope).stmt_of_find? hfind
    · exact .ofVariable hstmt hvar
    · exact .ofFunction hstmt hfun hnamed
  · split at h
    · next binding hmember =>
      obtain rfl := Option.some.inj h
      obtain ⟨c, hc, hbinding⟩ := List.exists_of_findSome?_eq_some hmember
      exact leadsTo_of_member (Resolution.basesFrom_local hothers hc) hbinding
    · split at h
      · obtain rfl := Option.some.inj h
        exact .ofGlobal
      · exact leadsTo_of_class hothers h

/-- In a script without other files every name is bound to something in the script or to a
    global. -/
theorem leadsTo_of_binding (h : ScriptRecorded input.ast mk events input.root parts)
    (hothers : input.others.IsSilent) (hb : input.resolve.value.bindings[n]? = some b) :
    b.LeadsTo input.resolve.value input.ast input.root := by
  obtain ⟨owner, around, hn⟩ := visited_of_binding h hb
  rw [bindings_resolve h hn] at hb
  unfold bindingAt at hb
  split at hb
  · exact leadsTo_of_meaning hothers (fun _ => hn.holds h) hb
  · exact leadsTo_of_meaning hothers (fun _ => hn.holds h) hb
  · exact leadsTo_of_class hothers hb
  · cases hb

end ResolveInput

/-! ### Summaries -/

/-- The summary tells of a class in another one.  It is that class itself, or has a name. -/
structure ClassSummary.Describes (c : ClassSummary) (ast : Ast) (site : ClassSite)
    (decl : ClassDecl) : Prop where
  data : ast.data? c.decl = some (.classDecl decl)
  contains : ast.Contains site.decl c.decl
  fields : c.fields = fieldSummaries ast decl
  methods : c.methods = methodSummaries ast decl
  isScript : c.isScript = decl.isScript
  name : (c.decl = site.decl ∧ c.name = site.name) ∨ (decl.name ≠ "" ∧ c.name = decl.name)

theorem describes_of_mem_summaries {file : FileId} {ast : Ast} {depth : Nat} {site : ClassSite}
    {c : ClassSummary} (h : c ∈ summariesBelow file ast depth site) :
    ∃ decl, c.Describes ast site decl := by
  induction depth generalizing site with
  | zero => cases h
  | succ depth ih =>
    unfold summariesBelow at h
    split at h
    · cases h
    · next decl hdecl =>
      have hdata := Ast.classDecl?_eq_some.mp hdecl
      rcases List.mem_cons.mp h with rfl | hmem
      · exact ⟨decl, hdata, .here _, rfl, rfl, rfl, .inl ⟨rfl, rfl⟩⟩
      · obtain ⟨inner, hinner, hc⟩ := List.mem_flatMap.mp hmem
        obtain ⟨decl', hdescribes⟩ := ih hc
        obtain ⟨i, innerDecl, hi, hinnerDecl, hnamed, rfl⟩ := exists_of_mem_innerSites hinner
        have hpart : ast.Contains site.decl i := by
          refine .part hdata ?_ (.here i)
          unfold NodeData.parts
          simp [hi]
        refine ⟨decl', hdescribes.data, hpart.trans hdescribes.contains, hdescribes.fields,
          hdescribes.methods, hdescribes.isScript, .inr ?_⟩
        rcases hdescribes.name with ⟨hself, hname⟩ | hname
        · have hsame := hdescribes.data
          rw [hself, Ast.classDecl?_eq_some.mp hinnerDecl] at hsame
          obtain rfl := NodeData.classDecl.inj (Option.some.inj hsame)
          exact ⟨by simpa using hnamed, hname⟩
        · exact hname

/-- The classes that a resolution knows are in the script. -/
theorem ResolveInput.describes_of_local {input : ResolveInput} {name : String} {c : ClassSummary}
    (h : input.resolve.value.localClass? name = some c) :
    ∃ site decl, c.Describes input.ast site decl ∧
      site.decl = input.root := by
  have hmem := List.mem_of_find?_eq_some h
  rw [input.resolve_classes] at hmem
  unfold describeClasses at hmem
  split at hmem
  · cases hmem
  · next script hscript =>
    obtain ⟨c₀, hc₀, rfl⟩ := List.mem_map.mp hmem
    obtain ⟨decl, hdescribes⟩ := describes_of_mem_summaries hc₀
    exact ⟨_, decl, ⟨hdescribes.data, hdescribes.contains, hdescribes.fields, hdescribes.methods,
      hdescribes.isScript, hdescribes.name⟩, rfl⟩

end ScriptAnalysis
