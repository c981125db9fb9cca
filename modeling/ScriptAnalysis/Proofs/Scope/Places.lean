import ScriptAnalysis.Proofs.Ast.Laid
import ScriptAnalysis.Scope.Walk

/-!
# Places in a script

What a name may refer to depends on where it stands: on the scopes around it and on what each of
them declares before it.  This is a matter of the text alone.  `Ast.Lies` tells which scopes are
around a node, and `Surround.find?` what a scope declares under a name at an offset.
-/

namespace ScriptAnalysis

namespace Ast

/-- The name of the variable that a node declares. -/
def varName? (ast : Ast) (n : NodeId) : Option String := (ast.varDecl? n).map VarDecl.name

def funName? (ast : Ast) (n : NodeId) : Option String := (ast.funDecl? n).map FunDecl.name

/-- Whether a declaration has a name. -/
def isNamed (name? : Option String) : Bool := name?.any fun name => !name.isEmpty

/-- The variables that a statement declares in the scope around it, in the order of the text, as
    far as they are nested at most `depth` deep in other statements. -/
def varsWithin (ast : Ast) : Nat → NodeId → List NodeId
  | 0, _ => []
  | depth + 1, stmt =>
    match ast.data? stmt with
    | some (.varDecl decl) => if isNamed (ast.varName? decl) then [decl] else []
    | some (.ifStmt _ thenBranch elseBranch) =>
      (thenBranch :: elseBranch.toList).flatMap (ast.varsWithin depth)
    | some (.whileStmt _ body) => ast.varsWithin depth body
    | _ => []

/-- The variables that a statement declares in the scope around it. -/
def directVars (ast : Ast) (stmt : NodeId) : List NodeId := ast.varsWithin ast.size stmt

/-- The function that a statement declares in the block directly around it. -/
def directFun? (ast : Ast) (stmt : NodeId) : Option NodeId :=
  match ast.data? stmt with
  | some (.funDecl decl) => if isNamed (ast.funName? decl) then some decl else none
  | _ => none

end Ast

/-- A scope around a place: the parameters that are declared in it, the statements of its block, and
    whether the place belongs to a parameter. -/
structure Surround where
  block : NodeId
  params : List NodeId := []
  stmts : List NodeId := []
  inParams : Bool := false
deriving DecidableEq

namespace Surround

variable (ast : Ast) (s : Surround)

def vars : List NodeId := (s.params ++ s.stmts).flatMap ast.directVars

/-- The functions of a block.  The parameters in front of it do not see them. -/
def funs : List NodeId := if s.inParams then [] else s.stmts.filterMap ast.directFun?

/-- What a scope declares under a name for a place at an offset: its first variable of the name, if
    that ends before the place, or else its first function of the name. -/
def find? (name : String) (offset : Nat) : Option NodeId :=
  (((s.vars ast).find? fun d => ast.varName? d == some name).filter
      fun d => (ast.span d).stop ≤ offset).or
    ((s.funs ast).find? fun d => ast.funName? d == some name)

end Surround

namespace Ast

/-- The scope that a node opens.  A function and a closure open one for their parameters and their
    body. -/
def opens? (ast : Ast) (n : NodeId) : Option Surround :=
  match ast.data? n with
  | some (.closure params body _) => some ⟨body, params, Walk.blockStatements ast body, false⟩
  | some (.funDeclExpr f) => some ⟨f.body, f.params, Walk.blockStatements ast f.body, false⟩
  | some (.block stmts) => some ⟨n, [], stmts, false⟩
  | _ => none

/-- `Lies ast around m around' n`: within the node `m`, which stands in the scopes `around`, the
    node `n` stands in the scopes `around'`, the innermost one first.  Classes are not entered. -/
inductive Lies (ast : Ast) : List Surround → NodeId → List Surround → NodeId → Prop
  | here (around : List Surround) (n : NodeId) : Lies ast around n around n
  | part {around around' : List Surround} {m k n : NodeId} {data : NodeData} :
      ast.data? m = some data → ast.opens? m = none → (∀ c, data ≠ .classDecl c) →
      k ∈ data.parts → Lies ast around k around' n → Lies ast around m around' n
  | param {around around' : List Surround} {m k n : NodeId} {scope : Surround} :
      ast.opens? m = some scope → k ∈ scope.params →
      Lies ast ({ scope with inParams := true } :: around) k around' n → Lies ast around m around' n
  | stmt {around around' : List Surround} {m k n : NodeId} {scope : Surround} :
      ast.opens? m = some scope → k ∈ scope.stmts →
      Lies ast (scope :: around) k around' n → Lies ast around m around' n

/-- An identifier or the name in front of an assignment. -/
def IsName (ast : Ast) (n : NodeId) (name : String) : Prop :=
  ast.data? n = some (.identifier name) ∨ ∃ value, ast.data? n = some (.assign name value)

end Ast

/-! ### Declarations -/

namespace Ast

variable {ast : Ast} {n d : Nat}

theorem varDecl?_of_expr {v : VarDecl} (h : ast.data? n = some (.varDeclExpr v)) :
    ast.varDecl? n = some v := by
  obtain ⟨size, hsize⟩ := Nat.exists_eq_succ_of_ne_zero
    (Nat.ne_of_gt (Nat.zero_lt_of_lt (lt_size_of_data? h)))
  unfold varDecl?
  rw [hsize, varDeclWithin, h]

theorem varName?_eq {v : VarDecl} (h : ast.varDecl? n = some v) : ast.varName? n = some v.name := by
  unfold varName?
  rw [h]
  rfl

theorem funName?_eq {f : FunDecl} (h : ast.funDecl? n = some f) : ast.funName? n = some f.name := by
  unfold funName?
  rw [h]
  rfl

theorem funDecl?_of_expr {f : FunDecl} (h : ast.data? n = some (.funDeclExpr f)) :
    ast.funDecl? n = some f := by
  obtain ⟨size, hsize⟩ := Nat.exists_eq_succ_of_ne_zero
    (Nat.ne_of_gt (Nat.zero_lt_of_lt (lt_size_of_data? h)))
  unfold funDecl?
  rw [hsize, funDeclWithin, h]

end Ast

/-! ### Layout -/

namespace Laid

variable {ast : Ast} {a b c e : ParsePoint} {ns : List NodeId} {m n k d : Nat} {data : NodeData}

/-- What is surely there stands in the text where it is laid out. -/
theorem solid (h : Laid ast a [n] e) (hdata : ast.data? n = some data)
    (hsolid : data.isSolid = true) : a.text ≤ (ast.span n).start ∧
      (ast.span n).start < (ast.span n).stop ∧ (ast.span n).stop ≤ e.text := by
  obtain ⟨b, c, d, ns, -, -, hn, hd⟩ := h.of_data hdata
  exact ⟨hn.start hsolid, hn.solid hsolid, Nat.le_trans (hn.stop hsolid) hd.text⟩

/-- What is nested deep enough does not depend on the depth. -/
theorem varsWithin_congr {depth depth' : Nat} (h : Laid ast a [n] e) (hn : n < depth)
    (hn' : n < depth') : ast.varsWithin depth n = ast.varsWithin depth' n := by
  induction depth generalizing depth' n with
  | zero => exact absurd hn (Nat.not_lt_zero _)
  | succ depth ih =>
    obtain ⟨depth', rfl⟩ := Nat.exists_eq_succ_of_ne_zero (Nat.ne_of_gt (Nat.zero_lt_of_lt hn'))
    unfold Ast.varsWithin
    have hpart : ∀ {data : NodeData} {k : Nat}, ast.data? n = some data → k ∈ data.parts →
        ast.varsWithin depth k = ast.varsWithin depth' k := by
      intro data k hdata hk
      obtain ⟨hlaid, hlt⟩ := h.part hdata hk
      exact ih hlaid (by omega) (by omega)
    split
    · rfl
    · next cond thenBranch elseBranch hdata =>
      refine List.flatMap_congr fun k hk => hpart hdata ?_
      exact List.mem_cons_of_mem _ hk
    · next cond body hdata => exact hpart hdata (by simp [NodeData.parts])
    · rfl

theorem lt_size (h : Laid ast a [n] e) : n < ast.size := by
  obtain ⟨b, c, d, data, ns, -, -, hn, -⟩ := single_iff.mp h
  exact Ast.lt_size_of_data? hn.found

theorem directVars_part (h : Laid ast a [m] e) (hdata : ast.data? m = some data)
    (hk : k ∈ data.parts) {depth : Nat} (hm : m ≤ depth) :
    ast.varsWithin depth k = ast.directVars k := by
  obtain ⟨hlaid, hlt⟩ := h.part hdata hk
  exact hlaid.varsWithin_congr (by omega) hlaid.lt_size

end Laid

namespace Ast

variable {ast : Ast} {a e : ParsePoint} {n d : Nat}

theorem directVars_of_varDecl {decl : NodeId} (hdata : ast.data? n = some (.varDecl decl)) :
    ast.directVars n = if isNamed (ast.varName? decl) then [decl] else [] := by
  obtain ⟨size, hsize⟩ :=
    Nat.exists_eq_succ_of_ne_zero (Nat.ne_of_gt (Nat.zero_lt_of_lt (lt_size_of_data? hdata)))
  unfold directVars
  rw [hsize, varsWithin, hdata]

theorem directVars_of_ifStmt {cond thenBranch : NodeId} {elseBranch : Option NodeId}
    (h : Laid ast a [n] e) (hdata : ast.data? n = some (.ifStmt cond thenBranch elseBranch)) :
    ast.directVars n = (thenBranch :: elseBranch.toList).flatMap ast.directVars := by
  obtain ⟨size, hsize⟩ := Nat.exists_eq_succ_of_ne_zero (Nat.ne_of_gt (Nat.zero_lt_of_lt h.lt_size))
  have hn := h.lt_size
  rw [directVars, hsize, varsWithin, hdata]
  refine List.flatMap_congr fun k hk => h.directVars_part hdata ?_ (by omega)
  exact List.mem_cons_of_mem _ hk

theorem directVars_of_whileStmt {cond body : NodeId} (h : Laid ast a [n] e)
    (hdata : ast.data? n = some (.whileStmt cond body)) :
    ast.directVars n = ast.directVars body := by
  obtain ⟨size, hsize⟩ := Nat.exists_eq_succ_of_ne_zero (Nat.ne_of_gt (Nat.zero_lt_of_lt h.lt_size))
  have hn := h.lt_size
  rw [directVars, hsize, varsWithin, hdata]
  exact h.directVars_part hdata (by simp [NodeData.parts]) (by omega)

/-- Statements that declare nothing but perhaps in scopes of their own. -/
theorem directVars_eq_nil {data : NodeData} (hdata : ast.data? n = some data)
    (hvar : ∀ decl, data ≠ .varDecl decl)
    (hif : ∀ cond thenBranch elseBranch, data ≠ .ifStmt cond thenBranch elseBranch)
    (hwhile : ∀ cond body, data ≠ .whileStmt cond body) : ast.directVars n = [] := by
  obtain ⟨size, hsize⟩ :=
    Nat.exists_eq_succ_of_ne_zero (Nat.ne_of_gt (Nat.zero_lt_of_lt (lt_size_of_data? hdata)))
  rw [directVars, hsize, varsWithin, hdata]
  cases data with
  | varDecl decl => exact absurd rfl (hvar decl)
  | ifStmt cond thenBranch elseBranch => exact absurd rfl (hif _ _ _)
  | whileStmt cond body => exact absurd rfl (hwhile _ _)
  | _ => rfl

theorem IsExpr.directVars (h : ast.IsExpr n) : ast.directVars n = [] := by
  obtain ⟨data, hdata, hexpr⟩ := h
  refine directVars_eq_nil hdata ?_ ?_ ?_
  · rintro decl rfl
    cases hexpr
  · rintro cond thenBranch elseBranch rfl
    cases hexpr
  · rintro cond body rfl
    cases hexpr

/-- An expression consists of expressions, unless it is a closure. -/
theorem isExpr_of_part {data : NodeData} {k : NodeId} (hformed : data.Formed ast)
    (hexpr : data.isExpr = true)
    (hclosure : ∀ params body isBlock, data ≠ .closure params body isBlock)
    (hk : k ∈ data.parts) : ast.IsExpr k := by
  cases data with
  | closure params body isBlock => exact absurd rfl (hclosure params body isBlock)
  | listLiteral items => exact hformed k hk
  | invokeNew name args => exact hformed k hk
  | unary op expr | assign name expr =>
    obtain rfl := List.mem_singleton.mp hk
    exact hformed
  | binary op left right =>
    rcases List.mem_cons.mp hk with rfl | hk
    · exact hformed.1
    · obtain rfl := List.mem_singleton.mp hk
      exact hformed.2
  | call callee args =>
    rcases List.mem_cons.mp hk with rfl | hk
    · exact hformed.1
    · exact hformed.2 k hk
  | methodCall target name args =>
    rcases List.mem_cons.mp hk with rfl | hk
    · exact hformed.1
    · exact hformed.2 k hk
  | identifier | literal | noop => cases hk
  | _ => cases hexpr

/-- A declaration with a name stands for tokens. -/
theorem solid_of_isNamed {v : VarDecl} (hdata : ast.data? n = some (.varDeclExpr v))
    (hnamed : isNamed (ast.varName? n) = true) : (NodeData.varDeclExpr v).isSolid = true := by
  have hname := varName?_eq (varDecl?_of_expr hdata)
  have hne : v.name.isEmpty = false := by
    rw [hname] at hnamed
    simpa [isNamed] using hnamed
  simp [NodeData.isSolid, hne]

end Ast

/-- The declarations `ds` stand between two points of the text, one behind the other. -/
structure Ast.InOrder (ast : Ast) (a : ParsePoint) (ds : List NodeId) (e : ParsePoint) : Prop where
  start_le : ∀ d ∈ ds, a.text ≤ (ast.span d).start
  solid : ∀ d ∈ ds, (ast.span d).start < (ast.span d).stop
  stop_le : ∀ d ∈ ds, (ast.span d).stop ≤ e.text
  behind : ds.Pairwise fun d d' => (ast.span d).stop ≤ (ast.span d').start

namespace Ast.InOrder

variable {ast : Ast} {a b e : ParsePoint} {ns ds ds' : List NodeId}

theorem nil (a e : ParsePoint) : ast.InOrder a [] e := ⟨by simp, by simp, by simp, .nil⟩

theorem append (h : ast.InOrder a ds b) (h' : ast.InOrder b ds' e) (hab : a.Precedes b)
    (hbe : b.Precedes e) : ast.InOrder a (ds ++ ds') e where
  start_le := List.forall_mem_append.mpr
    ⟨h.start_le, fun d hd => Nat.le_trans hab.text (h'.start_le d hd)⟩
  solid := List.forall_mem_append.mpr ⟨h.solid, h'.solid⟩
  stop_le := List.forall_mem_append.mpr
    ⟨fun d hd => Nat.le_trans (h.stop_le d hd) hbe.text, h'.stop_le⟩
  behind := List.pairwise_append.mpr ⟨h.behind, h'.behind, fun d hd d' hd' =>
    Nat.le_trans (h.stop_le d hd) (h'.start_le d' hd')⟩

/-- What nodes declare is in order if it is for every single one. -/
theorem flatMap {f : NodeId → List NodeId}
    (hf : ∀ {a n e}, Laid ast a [n] e → ast.InOrder a (f n) e) (h : Laid ast a ns e) :
    ast.InOrder a (ns.flatMap f) e := by
  induction ns generalizing a with
  | nil => exact nil a e
  | cons n ns ih =>
    obtain ⟨b, hn, hns⟩ := Laid.split (show Laid ast a ([n] ++ ns) e from h)
    exact (hf hn).append (ih hns) hn.precedes hns.precedes

theorem start_lt (h : ast.InOrder a ds e) :
    ds.Pairwise fun d d' => (ast.span d).start < (ast.span d').start :=
  h.behind.imp_of_mem fun hd _ hle => Nat.lt_of_lt_of_le (h.solid _ hd) hle

end Ast.InOrder

namespace Laid

variable {ast : Ast} {a b e : ParsePoint} {ns : List NodeId} {n d : Nat}

/-- What a statement declares stands where the statement is laid out. -/
theorem varsWithin_inOrder {depth : Nat} (h : Laid ast a [n] e) :
    ast.InOrder a (ast.varsWithin depth n) e := by
  induction depth generalizing a n e with
  | zero => exact .nil a e
  | succ depth ih =>
    unfold Ast.varsWithin
    split
    · next decl hdata =>
      split
      · next hnamed =>
        obtain ⟨_, _, _, _, -, -, hn, -⟩ := h.of_data hdata
        obtain ⟨v, hv⟩ := hn.formed
        have hlaid := (h.part hdata (k := decl) (by simp [NodeData.parts])).1
        obtain ⟨hstart, hlt, hstop⟩ := hlaid.solid hv (Ast.solid_of_isNamed hv hnamed)
        exact ⟨by simpa using hstart, by simpa using hlt, by simpa using hstop,
          List.pairwise_singleton ..⟩
      · exact .nil a e
    · next cond thenBranch elseBranch hdata =>
      obtain ⟨b, c, d, ns, hns, harranged, hn, he⟩ := h.of_data hdata
      obtain rfl : ns = cond :: thenBranch :: elseBranch.toList := harranged
      have hbranches := (hns.sublist (List.sublist_cons_self ..)).ge hn.before
      exact .flatMap ih (hbranches.le ⟨Nat.le_trans hn.le_id
        (Nat.le_trans (Nat.le_of_lt hn.id_lt) he.ids), Nat.le_trans hn.text he.text⟩)
    · next cond body hdata => exact ih (h.part hdata (by simp [NodeData.parts])).1
    · exact .nil a e

theorem directVars_inOrder (h : Laid ast a ns e) :
    ast.InOrder a (ns.flatMap ast.directVars) e := .flatMap varsWithin_inOrder h

theorem directVars_bounds (h : Laid ast a ns e) (hd : d ∈ ns.flatMap ast.directVars) :
    a.text ≤ (ast.span d).stop ∧ (ast.span d).stop ≤ e.text :=
  ⟨Nat.le_trans (h.directVars_inOrder.start_le d hd)
    (Nat.le_of_lt (h.directVars_inOrder.solid d hd)), h.directVars_inOrder.stop_le d hd⟩

end Laid

/-! ### What lies within a construct -/

namespace Ast

variable {ast : Ast} {around around' : List Surround} {a e : ParsePoint} {m n : Nat}

theorem blockStatements_of_data {stmts : List NodeId} (h : ast.data? n = some (.block stmts)) :
    Walk.blockStatements ast n = stmts := by
  unfold Walk.blockStatements
  rw [h]

theorem Lies.trans {around₁ around₂ around₃ : List Surround} {k : NodeId}
    (h : ast.Lies around₁ m around₂ k) (hk : ast.Lies around₂ k around₃ n) :
    ast.Lies around₁ m around₃ n := by
  induction h with
  | here => exact hk
  | part hdata hopens hclass hl _ ih => exact .part hdata hopens hclass hl (ih hk)
  | param hopens hl _ ih => exact .param hopens hl (ih hk)
  | stmt hopens hl _ ih => exact .stmt hopens hl (ih hk)

/-- What lies within a construct is laid out within it. -/
theorem Lies.laid (hlies : ast.Lies around m around' n) (h : Laid ast a [m] e) :
    Laid ast a [n] e := by
  induction hlies with
  | here around n => exact h
  | part hdata _ _ hk _ ih => exact ih (h.part hdata hk).1
  | @param around around' m k n scope hopens hk _ ih =>
    refine ih ?_
    unfold opens? at hopens
    split at hopens
    · next params body isBlock hdata =>
      cases hopens
      exact (h.part hdata (List.mem_append_left _ hk)).1
    · next f hdata =>
      cases hopens
      exact (h.part hdata (List.mem_append_left _ hk)).1
    · cases hopens
      cases hk
    · cases hopens
  | @stmt around around' m k n scope hopens hk _ ih =>
    refine ih ?_
    have hbody : ∀ {body : Nat}, Laid ast a [body] e → k ∈ Walk.blockStatements ast body →
        Laid ast a [k] e := by
      intro body hlaid hk
      unfold Walk.blockStatements at hk
      split at hk
      · next stmts hdata => exact (hlaid.part hdata hk).1
      · cases hk
    unfold opens? at hopens
    split at hopens
    · next params body isBlock hdata =>
      cases hopens
      exact hbody (h.part hdata (List.mem_append_right _ (by simp))).1 hk
    · next f hdata =>
      cases hopens
      exact hbody (h.part hdata (List.mem_append_right _ (by simp))).1 hk
    · next stmts hdata =>
      cases hopens
      exact (h.part hdata hk).1
    · cases hopens

end Ast

end ScriptAnalysis
