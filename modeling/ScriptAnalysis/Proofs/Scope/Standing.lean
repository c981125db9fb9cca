import Mathlib.Data.List.Induction
import ScriptAnalysis.Proofs.Scope.Header
import ScriptAnalysis.Proofs.Scope.Places

/-!
# Where a walk stands

While names are resolved, every scope around the walk holds the variables that were walked so far.
A `Standing` is a scope with these variables.  As long as the walk is at a construct between two
points of the text, the variables that were walked end before the first point and the others do not
end before the second one (`Placed`); so what the scopes hold is what the place tells.
-/

namespace ScriptAnalysis

/-! ### Names that are declared once -/

/-- Of several declarations with one name the first one is kept. -/
def keepNew (name? : NodeId → Option String) (ds : List NodeId) : List NodeId :=
  ds.foldl (fun known d => if known.any fun k => name? k == name? d then known else known ++ [d]) []

section KeepNew

variable (name? : NodeId → Option String)

theorem keepNew_concat (ds : List NodeId) (d : NodeId) : keepNew name? (ds ++ [d]) =
    if (keepNew name? ds).any fun k => name? k == name? d then keepNew name? ds
    else keepNew name? ds ++ [d] := by
  unfold keepNew
  rw [List.foldl_append]
  rfl

/-- Only the first declaration of a name can be found by it. -/
theorem find?_keepNew (ds : List NodeId) (name : String) :
    (keepNew name? ds).find? (fun d => name? d == some name) =
      ds.find? fun d => name? d == some name := by
  induction ds using List.reverseRecOn with
  | nil => rfl
  | append_singleton ds d ih =>
    rw [keepNew_concat, List.find?_append, ← ih]
    split
    · next hknown =>
      cases hfound : (keepNew name? ds).find? fun d => name? d == some name with
      | some k => rfl
      | none =>
        obtain ⟨k, hk, hsame⟩ := List.any_eq_true.mp hknown
        have hname := List.find?_eq_none.mp hfound k hk
        rw [eq_of_beq hsame] at hname
        simp [hname]
    · rw [List.find?_append]

end KeepNew

theorem Ast.varDecl?_any (ast : Ast) (n : NodeId) (name : String) :
    (ast.varDecl? n).any (·.name == name) = (ast.varName? n == some name) := by
  unfold varName?
  cases ast.varDecl? n <;> rfl

theorem Ast.funDecl?_any (ast : Ast) (n : NodeId) (name : String) :
    (ast.funDecl? n).any (·.name == name) = (ast.funName? n == some name) := by
  unfold funName?
  cases ast.funDecl? n <;> rfl

theorem BlockScope.find?_eq (scope : BlockScope) (ast : Ast) (name : String) :
    scope.find? ast name = (scope.vars.find? fun d => ast.varName? d == some name).or
      (scope.funs.find? fun d => ast.funName? d == some name) := by
  unfold BlockScope.find?
  simp only [Ast.varDecl?_any, Ast.funDecl?_any]

/-! ### Scopes during a walk -/

/-- A scope around a walk, and the variables in it that were walked so far. -/
structure Standing where
  surround : Surround
  walked : List NodeId

/-- The block of the innermost scope. -/
def innermost (around : List Surround) : Option NodeId := around.head?.map Surround.block

namespace Standing

/-- What a scope holds. -/
def scope (ast : Ast) (st : Standing) (enclosing : Option NodeId) (owner : String) :
    BlockScope where
  enclosing := enclosing
  owningClass := owner
  vars := keepNew ast.varName? st.walked
  funs := keepNew ast.funName? (st.surround.funs ast)

/-- Within a construct between `a` and `c`, whose own declarations are `now`. -/
def Placed (ast : Ast) (a c : ParsePoint) (now : List NodeId) (st : Standing) : Prop :=
  ∃ rest, st.surround.vars ast = st.walked ++ now ++ rest ∧
    (∀ d ∈ st.walked, (ast.span d).stop ≤ a.text) ∧ ∀ d ∈ rest, c.text ≤ (ast.span d).stop

variable {ast : Ast} {a b c : ParsePoint} {now : List NodeId} {st : Standing}

theorem Placed.narrow (h : st.Placed ast a c now) {a' c' : ParsePoint} (ha : a.Precedes a')
    (hc : c'.Precedes c) : st.Placed ast a' c' now := by
  obtain ⟨rest, hvars, hwalked, hrest⟩ := h
  exact ⟨rest, hvars, fun d hd => Nat.le_trans (hwalked d hd) ha.text,
    fun d hd => Nat.le_trans hc.text (hrest d hd)⟩

/-- What a scope holds of a name is what the place tells. -/
theorem Placed.find? (h : st.Placed ast a c []) {offset : Nat} (ha : a.text ≤ offset)
    (hc : offset < c.text) (enclosing : Option NodeId) (owner name : String) :
    (st.scope ast enclosing owner).find? ast name = st.surround.find? ast name offset := by
  obtain ⟨rest, hvars, hwalked, hrest⟩ := h
  rw [BlockScope.find?_eq]
  unfold Standing.scope Surround.find?
  dsimp only
  rw [find?_keepNew, find?_keepNew, hvars, List.append_nil, List.find?_append]
  congr 1
  cases hfound : st.walked.find? fun d => ast.varName? d == some name with
  | some d =>
    have hstop := hwalked d (List.mem_of_find?_eq_some hfound)
    have hle : (ast.span d).stop ≤ offset := Nat.le_trans hstop ha
    simp [Option.filter, hle]
  | none =>
    cases hlater : rest.find? fun d => ast.varName? d == some name with
    | none => rfl
    | some d =>
      have hstop := hrest d (List.mem_of_find?_eq_some hlater)
      have hle : ¬ (ast.span d).stop ≤ offset := by omega
      simp [Option.filter, hle]

end Standing

/-- The scopes around a walk, as they are kept, the innermost one first. -/
def Scoped (ast : Ast) (blocks : Std.TreeMap NodeId BlockScope) (owner : String) :
    List Standing → Prop
  | [] => True
  | st :: outer => blocks[st.surround.block]? =
      some (st.scope ast (innermost (outer.map Standing.surround)) owner) ∧
      (∀ o ∈ outer, st.surround.block < o.surround.block) ∧ Scoped ast blocks owner outer

/-- The scopes around a walk after the constructs `ns` were walked. -/
def declare (ast : Ast) (ns : List NodeId) : List Standing → List Standing
  | [] => []
  | st :: outer => { st with walked := st.walked ++ ns.flatMap ast.directVars } :: outer

/-- The constructs `ns` are laid out between `a` and `c`, in the scopes `env`. -/
structure Sited (ast : Ast) (a c : ParsePoint) (ns : List NodeId) (env : List Standing) : Prop where
  head : ∀ st ∈ env.head?, st.Placed ast a c (ns.flatMap ast.directVars)
  outer : ∀ st ∈ env.tail, st.Placed ast a c []
  above : ∀ st ∈ env, c.ids ≤ st.surround.block

section

variable {ast : Ast} {a b c : ParsePoint} {ns ms : List NodeId} {env : List Standing}

theorem surround_declare (ast : Ast) (ns : List NodeId) (env : List Standing) :
    (declare ast ns env).map Standing.surround = env.map Standing.surround := by
  cases env <;> rfl

theorem declare_append (ast : Ast) (ns ms : List NodeId) (env : List Standing) :
    declare ast (ns ++ ms) env = declare ast ms (declare ast ns env) := by
  cases env with
  | nil => rfl
  | cons st outer => simp [declare]

theorem declare_eq_self (h : ns.flatMap ast.directVars = []) : declare ast ns env = env := by
  cases env with
  | nil => rfl
  | cons st outer => simp [declare, h]

theorem declare_congr (h : ns.flatMap ast.directVars = ms.flatMap ast.directVars) :
    declare ast ns env = declare ast ms env := by
  cases env with
  | nil => rfl
  | cons st outer => simp [declare, h]

namespace Sited

theorem narrow (h : Sited ast a c ns env) {a' c' : ParsePoint} (ha : a.Precedes a')
    (hc : c'.Precedes c) : Sited ast a' c' ns env :=
  ⟨fun st hst => (h.head st hst).narrow ha hc, fun st hst => (h.outer st hst).narrow ha hc,
    fun st hst => Nat.le_trans hc.ids (h.above st hst)⟩

theorem congr (h : Sited ast a c ns env)
    (hns : ns.flatMap ast.directVars = ms.flatMap ast.directVars) : Sited ast a c ms env :=
  ⟨fun st hst => hns ▸ h.head st hst, h.outer, h.above⟩

/-- Constructs that declare nothing stand in every scope in the same way. -/
theorem placed (h : Sited ast a c ns env) (hns : ns.flatMap ast.directVars = []) :
    ∀ st ∈ env, st.Placed ast a c [] := by
  intro st hst
  cases env with
  | nil => cases hst
  | cons first outer =>
    rcases List.mem_cons.mp hst with rfl | hst
    · exact hns ▸ h.head st rfl
    · exact h.outer st hst

theorem of_placed (h : ∀ st ∈ env, st.Placed ast a c [])
    (hns : ns.flatMap ast.directVars = []) (habove : ∀ st ∈ env, c.ids ≤ st.surround.block) :
    Sited ast a c ns env := by
  refine ⟨fun st hst => ?_, fun st hst => h st (List.mem_of_mem_tail hst), habove⟩
  rw [hns]
  exact h st (List.mem_of_mem_head? hst)

/-- The first constructs do not see what the others declare, and these stand behind them. -/
theorem split (h : Sited ast a c (ns ++ ms) env) (hns : Laid ast a ns b) (hms : Laid ast b ms c) :
    Sited ast a b ns env ∧ Sited ast b c ms (declare ast ns env) := by
  have hab := hns.precedes
  have hbc := hms.precedes
  cases env with
  | nil =>
    exact ⟨⟨by simp, by simp, by simp⟩, ⟨by simp [declare], by simp [declare], by simp [declare]⟩⟩
  | cons st outer =>
    obtain ⟨rest, hvars, hwalked, hrest⟩ := h.head st rfl
    rw [List.flatMap_append] at hvars
    constructor
    · refine ⟨?_, fun o ho => (h.outer o ho).narrow (.refl a) hbc,
        fun o ho => Nat.le_trans hbc.ids (h.above o ho)⟩
      rintro st' hst'
      obtain rfl := Option.some.inj hst'
      refine ⟨ms.flatMap ast.directVars ++ rest, by simp [hvars], hwalked, fun d hd => ?_⟩
      rcases List.mem_append.mp hd with hd | hd
      · exact (hms.directVars_bounds hd).1
      · exact Nat.le_trans hbc.text (hrest d hd)
    · refine ⟨?_, fun o ho => (h.outer o ho).narrow hab (.refl c), ?_⟩
      · rintro st' hst'
        obtain rfl := Option.some.inj hst'
        refine ⟨rest, by simp [hvars], fun d hd => ?_, hrest⟩
        rcases List.mem_append.mp hd with hd | hd
        · exact Nat.le_trans (hwalked d hd) hab.text
        · exact (hns.directVars_bounds hd).2
      · intro o ho
        rcases List.mem_cons.mp ho with rfl | ho
        · exact h.above st (List.mem_cons_self ..)
        · exact h.above o (List.mem_cons_of_mem _ ho)

end Sited

end

end ScriptAnalysis
