import ScriptAnalysis.Class.Describe
import ScriptAnalysis.Proofs.Respaced.Production

/-!
# Declarations in texts that differ in trivia

Arenas that are alike declare the same variables and functions, up to the offsets of their names,
and the same classes.  What is described of the classes of a file tells no offset, so it is the same
for both.
-/

namespace ScriptAnalysis.Ast.Respaced

variable {ast ast' : Ast}

/-! ### Declarations -/

theorem classDecl? (h : ast.Respaced ast') (id : NodeId) :
    ast.classDecl? id = ast'.classDecl? id := by
  unfold Ast.classDecl?
  rcases h.cases id with ⟨hd, hd'⟩ | ⟨data, data', hd, hd', hsame⟩
  · rw [hd, hd']
  · rw [hd, hd']
    cases hsame <;> rfl

/-- The variables that a node declares in both arenas. -/
theorem varDecl? (h : ast.Respaced ast') (id : NodeId) :
    (ast.varDecl? id = none ∧ ast'.varDecl? id = none) ∨
      ∃ decl offset, ast.varDecl? id = some decl ∧
        ast'.varDecl? id = some { decl with nameOffset := offset } := by
  unfold Ast.varDecl?
  rw [← h.size]
  generalize ast.size = depth
  induction depth generalizing id with
  | zero => exact .inl ⟨rfl, rfl⟩
  | succ depth ih =>
    unfold Ast.varDeclWithin
    rcases h.cases id with ⟨hd, hd'⟩ | ⟨data, data', hd, hd', hsame⟩
    · rw [hd, hd']
      exact .inl ⟨rfl, rfl⟩
    · rw [hd, hd']
      cases hsame with
      | same data =>
        cases data with
        | varDeclExpr decl => exact .inr ⟨decl, decl.nameOffset, rfl, rfl⟩
        | varDecl decl => exact ih decl
        | _ => exact .inl ⟨rfl, rfl⟩
      | varDecl offset heq => exact .inr ⟨_, offset, rfl, congrArg some heq⟩
      | funDecl offset heq => exact .inl ⟨rfl, rfl⟩

/-- The functions that a node declares in both arenas. -/
theorem funDecl? (h : ast.Respaced ast') (id : NodeId) :
    (ast.funDecl? id = none ∧ ast'.funDecl? id = none) ∨
      ∃ decl offset, ast.funDecl? id = some decl ∧
        ast'.funDecl? id = some { decl with nameOffset := offset } := by
  unfold Ast.funDecl?
  rw [← h.size]
  generalize ast.size = depth
  induction depth generalizing id with
  | zero => exact .inl ⟨rfl, rfl⟩
  | succ depth ih =>
    unfold Ast.funDeclWithin
    rcases h.cases id with ⟨hd, hd'⟩ | ⟨data, data', hd, hd', hsame⟩
    · rw [hd, hd']
      exact .inl ⟨rfl, rfl⟩
    · rw [hd, hd']
      cases hsame with
      | same data =>
        cases data with
        | funDeclExpr decl => exact .inr ⟨decl, decl.nameOffset, rfl, rfl⟩
        | funDecl decl => exact ih decl
        | _ => exact .inl ⟨rfl, rfl⟩
      | varDecl offset heq => exact .inl ⟨rfl, rfl⟩
      | funDecl offset heq => exact .inr ⟨_, offset, rfl, congrArg some heq⟩

/-- A variable has the same name in both. -/
theorem any_varDecl?_name (h : ast.Respaced ast') (name : String) (id : NodeId) :
    (ast.varDecl? id).any (·.name == name) = (ast'.varDecl? id).any (·.name == name) := by
  rcases h.varDecl? id with ⟨hd, hd'⟩ | ⟨decl, offset, hd, hd'⟩
  · rw [hd, hd']
  · rw [hd, hd', Option.any_some, Option.any_some]

/-- A function has the same name in both. -/
theorem any_funDecl?_name (h : ast.Respaced ast') (name : String) (id : NodeId) :
    (ast.funDecl? id).any (·.name == name) = (ast'.funDecl? id).any (·.name == name) := by
  rcases h.funDecl? id with ⟨hd, hd'⟩ | ⟨decl, offset, hd, hd'⟩
  · rw [hd, hd']
  · rw [hd, hd', Option.any_some, Option.any_some]

/-! ### Classes -/

theorem importsOf (h : ast.Respaced ast') (root : NodeId) :
    ScriptAnalysis.importsOf ast root = ScriptAnalysis.importsOf ast' root := by
  unfold ScriptAnalysis.importsOf
  rw [h.classDecl?]
  split
  · rfl
  · next script _ =>
    refine congrArg (script.imports.filterMap ·) (funext fun node => ?_)
    rcases h.cases node with ⟨hd, hd'⟩ | ⟨data, data', hd, hd', hsame⟩
    · rw [hd, hd']
    · rw [hd, hd']
      cases hsame <;> rfl

theorem innerSites (h : ast.Respaced ast') (site : ClassSite) (decl : ClassDecl) :
    ScriptAnalysis.innerSites ast site decl = ScriptAnalysis.innerSites ast' site decl := by
  unfold ScriptAnalysis.innerSites
  simp only [h.classDecl?]

theorem fieldSummaries (h : ast.Respaced ast') (decl : ClassDecl) :
    ScriptAnalysis.fieldSummaries ast decl = ScriptAnalysis.fieldSummaries ast' decl := by
  unfold ScriptAnalysis.fieldSummaries
  rw [List.filter_filterMap, List.filter_filterMap, List.map_filterMap, List.map_filterMap]
  refine congrArg (decl.fields.filterMap ·) (funext fun field => ?_)
  rcases h.varDecl? field with ⟨hd, hd'⟩ | ⟨v, offset, hd, hd'⟩
  · rw [hd, hd']
  · rw [hd, hd', Option.filter_some, Option.filter_some]
    dsimp only
    split <;> rfl

theorem methodSummaries (h : ast.Respaced ast') (decl : ClassDecl) :
    ScriptAnalysis.methodSummaries ast decl = ScriptAnalysis.methodSummaries ast' decl := by
  unfold ScriptAnalysis.methodSummaries
  rw [List.filter_filterMap, List.filter_filterMap, List.map_filterMap, List.map_filterMap]
  refine congrArg (decl.methods.filterMap ·) (funext fun method => ?_)
  rcases h.funDecl? method with ⟨hd, hd'⟩ | ⟨f, offset, hd, hd'⟩
  · rw [hd, hd']
  · rw [hd, hd', Option.filter_some, Option.filter_some]
    dsimp only
    split <;> rfl

theorem summarise (h : ast.Respaced ast') (file : FileId) (site : ClassSite) (decl : ClassDecl) :
    ScriptAnalysis.summarise file ast site decl = ScriptAnalysis.summarise file ast' site decl := by
  unfold ScriptAnalysis.summarise
  rw [h.fieldSummaries, h.methodSummaries, h.innerSites]

theorem summariesBelow (h : ast.Respaced ast') (file : FileId) (depth : Nat) (site : ClassSite) :
    ScriptAnalysis.summariesBelow file ast depth site =
      ScriptAnalysis.summariesBelow file ast' depth site := by
  induction depth generalizing site with
  | zero => rfl
  | succ depth ih =>
    unfold ScriptAnalysis.summariesBelow
    rw [h.classDecl?]
    split
    · rfl
    · rw [h.summarise, h.innerSites, funext ih]

/-- The classes of a file are described alike. -/
theorem describeClasses (h : ast.Respaced ast') (file : FileId) (scriptName : String)
    (root : NodeId) :
    ScriptAnalysis.describeClasses file scriptName ast root =
      ScriptAnalysis.describeClasses file scriptName ast' root := by
  unfold ScriptAnalysis.describeClasses
  rw [h.classDecl?, h.size, h.importsOf, funext (h.summariesBelow file ast'.size)]

end ScriptAnalysis.Ast.Respaced
