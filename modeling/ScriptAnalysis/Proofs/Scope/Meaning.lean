import Mathlib.Data.List.Basic
import ScriptAnalysis.Proofs.Scope.Standing

/-!
# What a name refers to

`ResolveInput.meaning` looks a name up without a walk: in the scopes around it by what they declare
before it, then along the base classes, among the globals, and among the classes.  While the walk
stands at a place, its own lookup gives the same.
-/

namespace ScriptAnalysis

/-! ### Resolutions with the same classes -/

namespace Resolution

variable {r r' : Resolution} (others : ClassLookup)

theorem findClass_congr (h : r.header = r'.header) (fullName : String) :
    r.findClass others fullName = r'.findClass others fullName := by
  have hclasses : r.classes = r'.classes := congrArg Header.classes h
  unfold findClass localClass?
  rw [hclasses]

theorem basesFrom_congr (h : r.header = r'.header) (steps : Nat) (seen : List String)
    (fullName : String) :
    r.basesFrom others steps seen fullName = r'.basesFrom others steps seen fullName := by
  induction steps generalizing seen fullName with
  | zero => rfl
  | succ steps ih =>
    unfold basesFrom
    rw [findClass_congr others h]
    simp only [ih]

theorem outwardsFrom_congr (h : r.header = r'.header) (steps : Nat) (seen : List String)
    (fullName : String) :
    r.outwardsFrom others steps seen fullName = r'.outwardsFrom others steps seen fullName := by
  induction steps generalizing seen fullName with
  | zero => rfl
  | succ steps ih =>
    unfold outwardsFrom
    rw [findClass_congr others h]
    simp only [ih]

theorem findFirst_congr (h : r.header = r'.header) (names : List String) :
    r.findFirst others names = r'.findFirst others names := by
  induction names with
  | nil => rfl
  | cons name names ih =>
    unfold findFirst
    rw [findClass_congr others h, ih]

theorem classChain_congr (h : r.header = r'.header) (fullName : String) :
    r.classChain others fullName = r'.classChain others fullName := by
  have hclasses : r.classes = r'.classes := congrArg Header.classes h
  unfold classChain chainLimit
  rw [basesFrom_congr others h, hclasses]

theorem resolveClass_congr (h : r.header = r'.header) (written around : String) :
    r.resolveClass others written around = r'.resolveClass others written around := by
  have hclasses : r.classes = r'.classes := congrArg Header.classes h
  have hpackage : r.package = r'.package := congrArg Header.package h
  have himports : r.imports = r'.imports := congrArg Header.imports h
  unfold resolveClass enclosingClasses chainLimit
  simp only [outwardsFrom_congr others h, findFirst_congr others h, hclasses, hpackage, himports]

end Resolution

/-! ### The meaning of a place -/

namespace ResolveInput

variable (input : ResolveInput)

/-- What a name refers to in code of the class `owner`, whose chain of base classes is `chain`, at
    an offset within the scopes `around`. -/
def meaning (r : Resolution) (owner : String) (chain : List ClassSummary) (around : List Surround)
    (name : String) (offset : Nat) : Option Binding :=
  match around.findSome? fun scope => scope.find? input.ast name offset with
  | some decl => some (.localDecl decl)
  | none =>
    match chain.findSome? fun c => c.memberBinding? name with
    | some binding => some binding
    | none =>
      if owner = r.scriptClass && input.globals.contains name then some (.global name)
      else (r.resolveClass input.others name owner).value.map fun c => .toClass c.fullName

/-- What the node `n` is bound to in code of the class `owner` within the scopes `around`. -/
def bindingAt (r : Resolution) (owner : String) (around : List Surround) (n : NodeId) :
    Option Binding :=
  match input.ast.data? n with
  | some (.identifier name) | some (.assign name _) =>
    input.meaning r owner (r.classChain input.others owner).value around name
      (input.ast.span n).start
  | some (.invokeNew className _) =>
    (r.resolveClass input.others className owner).value.map fun c => .toClass c.fullName
  | _ => none

theorem bindingAt_of_isName {n : NodeId} {name : String} (h : input.ast.IsName n name)
    (r : Resolution) (owner : String) (around : List Surround) :
    input.bindingAt r owner around n = input.meaning r owner
      (r.classChain input.others owner).value around name (input.ast.span n).start := by
  unfold bindingAt
  rcases h with h | ⟨value, h⟩
  · rw [h]
  · rw [h]

end ResolveInput

/-! ### Scopes that are kept -/

namespace Scoped

variable {ast : Ast} {blocks blocks' : Std.TreeMap NodeId BlockScope} {owner : String}
  {env : List Standing}

theorem congr (h : Scoped ast blocks owner env)
    (hsame : ∀ st ∈ env, blocks'[st.surround.block]? = blocks[st.surround.block]?) :
    Scoped ast blocks' owner env := by
  induction env with
  | nil => trivial
  | cons st outer ih =>
    obtain ⟨hst, habove, houter⟩ := h
    refine ⟨(hsame st (List.mem_cons_self ..)).trans hst, habove, ?_⟩
    exact ih houter fun o ho => hsame o (List.mem_cons_of_mem _ ho)

theorem nodup (h : Scoped ast blocks owner env) :
    (env.map fun st => st.surround.block).Nodup := by
  induction env with
  | nil => exact List.nodup_nil
  | cons st outer ih =>
    obtain ⟨-, habove, houter⟩ := h
    refine List.nodup_cons.mpr ⟨fun hmem => ?_, ih houter⟩
    obtain ⟨o, ho, heq⟩ := List.mem_map.mp hmem
    exact absurd heq (Nat.ne_of_gt (habove o ho))

theorem mem (h : Scoped ast blocks owner env) {st : Standing} (hst : st ∈ env) :
    st.surround.block ∈ blocks := by
  induction env with
  | nil => cases hst
  | cons first outer ih =>
    obtain ⟨hfirst, -, houter⟩ := h
    rcases List.mem_cons.mp hst with rfl | hst
    · exact Std.TreeMap.mem_iff_isSome_getElem?.mpr (by rw [hfirst]; rfl)
    · exact ih houter hst

/-- There are at least as many scopes as there are around a place. -/
theorem length_le (h : Scoped ast blocks owner env) : env.length ≤ blocks.size := by
  have hmem : env.map (fun st => st.surround.block) ⊆ blocks.keys := by
    intro b hb
    obtain ⟨st, hst, rfl⟩ := List.mem_map.mp hb
    exact Std.TreeMap.mem_keys.mpr (h.mem hst)
  simpa using (List.subperm_of_subset h.nodup hmem).length_le

end Scoped

/-- What the scopes around a place hold, the innermost first. -/
def heldScopes (ast : Ast) (owner : String) : List Standing → List BlockScope
  | [] => []
  | st :: outer => st.scope ast (innermost (outer.map Standing.surround)) owner ::
      heldScopes ast owner outer

namespace Resolution

variable {r : Resolution} {ast : Ast} {owner : String} {env : List Standing}

theorem scopesFrom_of_scoped (h : Scoped ast r.blocks owner env) {steps : Nat}
    (hsteps : env.length ≤ steps) :
    r.scopesFrom steps (innermost (env.map Standing.surround)) = heldScopes ast owner env := by
  induction env generalizing steps with
  | nil =>
    unfold scopesFrom heldScopes
    cases steps <;> rfl
  | cons st outer ih =>
    obtain ⟨steps, rfl⟩ : ∃ k, steps = k + 1 := ⟨steps - 1, by simp at hsteps; omega⟩
    obtain ⟨hst, -, houter⟩ := h
    have hih := ih houter (show outer.length ≤ steps by simpa using hsteps)
    unfold heldScopes
    rw [← hih]
    simp only [innermost, List.map_cons, List.head?_cons, Option.map_some, scopesFrom, hst]
    rfl

theorem scopesAround_of_scoped (h : Scoped ast r.blocks owner env) :
    r.scopesAround (innermost (env.map Standing.surround)) = heldScopes ast owner env :=
  scopesFrom_of_scoped h h.length_le

end Resolution

/-- What the scopes hold of a name is what the place tells. -/
theorem findSome?_heldScopes {ast : Ast} {env : List Standing} {a c : ParsePoint} {offset : Nat}
    (h : ∀ st ∈ env, st.Placed ast a c []) (ha : a.text ≤ offset) (hc : offset < c.text)
    (owner name : String) :
    (heldScopes ast owner env).findSome? (fun scope => scope.find? ast name) =
      (env.map Standing.surround).findSome? fun scope => scope.find? ast name offset := by
  induction env with
  | nil => rfl
  | cons st outer ih =>
    unfold heldScopes
    rw [List.map_cons, List.findSome?_cons, List.findSome?_cons,
      ih fun o ho => h o (List.mem_cons_of_mem _ ho),
      (h st (List.mem_cons_self ..)).find? ha hc]

end ScriptAnalysis
