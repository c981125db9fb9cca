import ScriptAnalysis.Proofs.Grammar.ScriptRuns
import ScriptAnalysis.Proofs.Scope.Declared
import ScriptAnalysis.Proofs.Tree.Entries

/-!
# What a walk reports

A walk only adds to what is reported.  What it adds is a fault of something that starts with a token
other than the keyword of a class, or a class that extends an unknown one (`ResolveInput.Reported`).
This holds of every step, and of a walk because it holds of its steps, to whatever depth the
visitors go.
-/

namespace ScriptAnalysis

/-! ### Where faults are reported -/

/-- The nodes stand where the grammar places them, declarations stand in their statements, and the
    class of a script extends no other. -/
structure ResolveInput.Anchored (input : ResolveInput) (source : String) (S : Token → Prop) :
    Prop where
  placed : ∀ n data, input.ast.data? n = some data →
    ∃ old, old.Alike data ∧ PlacedInScript source S old (input.ast.span n)
  varDecl : ∀ n d, input.ast.Contains input.root n → input.ast.data? n = some (.varDecl d) →
    ∃ v, input.ast.data? d = some (.varDeclExpr v)
  funDecl : ∀ n d, input.ast.Contains input.root n → input.ast.data? n = some (.funDecl d) →
    ∃ f, input.ast.data? d = some (.funDeclExpr f)
  subclass : ∀ n c, input.ast.Contains input.root n → input.ast.data? n = some (.classDecl c) →
    c.base ≠ none → c.isScript = false

/-- What may be reported of a script. -/
inductive ResolveInput.Reported (input : ResolveInput) (S : Token → Prop) (r : Resolution) :
    Diagnostic → Prop
  | plain {d : Diagnostic} : PlainAt S d.offset → Reported input S r d
  /-- The class that a class extends is unknown. -/
  | base {node : NodeId} {decl : ClassDecl} {c : ClassSummary} {written base : String} :
      input.ast.Contains input.root node → input.ast.classDecl? node = some decl →
      r.classes.find? (·.decl == node) = some c → decl.base = some written →
      c.base = some base → (r.findClass input.others base).value = none →
      Reported input S r (.ofResolution s!"Unknown class '{written}'" (input.ast.span node))

theorem NameAt.plainAt {source name : String} {S : Token → Prop} {offset : Nat}
    (h : NameAt source S name offset) : PlainAt S offset := by
  obtain ⟨t, ht, hident, -, hoffset⟩ := h
  exact ⟨t, ht, by simp [hident], hoffset⟩

namespace Ast

variable {ast : Ast} {n k : NodeId}

theorem Contains.step {m : NodeId} {data : NodeData} (h : ast.Contains m n)
    (hdata : ast.data? n = some data) (hk : k ∈ data.parts) : ast.Contains m k :=
  h.trans (.part hdata hk (.here k))

theorem contains_of_varDecl? {v : VarDecl} (h : ast.varDecl? n = some v) :
    ∃ d, ast.Contains n d ∧ ast.data? d = some (.varDeclExpr v) := by
  unfold varDecl? at h
  generalize ast.size = depth at h
  induction depth generalizing n with
  | zero => cases h
  | succ depth ih =>
    unfold varDeclWithin at h
    split at h
    · next hdata =>
      cases h
      exact ⟨n, .here n, hdata⟩
    · next hdata =>
      obtain ⟨d, hd, hdecl⟩ := ih h
      exact ⟨d, .part hdata (by simp [NodeData.parts]) hd, hdecl⟩
    · cases h

theorem contains_of_funDecl? {f : FunDecl} (h : ast.funDecl? n = some f) :
    ∃ d, ast.Contains n d ∧ ast.data? d = some (.funDeclExpr f) := by
  unfold funDecl? at h
  generalize ast.size = depth at h
  induction depth generalizing n with
  | zero => cases h
  | succ depth ih =>
    unfold funDeclWithin at h
    split at h
    · next hdata =>
      cases h
      exact ⟨n, .here n, hdata⟩
    · next hdata =>
      obtain ⟨d, hd, hdecl⟩ := ih h
      exact ⟨d, .part hdata (by simp [NodeData.parts]) hd, hdecl⟩
    · cases h

end Ast

namespace ResolveInput.Anchored

variable {input : ResolveInput} {source : String} {S : Token → Prop} {n : NodeId}

/-- A node that is no closure stands where it was placed. -/
theorem placed_in (h : input.Anchored source S) {data : NodeData}
    (hdata : input.ast.data? n = some data)
    (hclosure : ∀ params body isBlock, data ≠ .closure params body isBlock) :
    PlacedInScript source S data (input.ast.span n) := by
  obtain ⟨old, rfl | ⟨params, body, _, isBlock, -, rfl⟩, hplaced⟩ := h.placed n data hdata
  · exact hplaced
  · exact absurd rfl (hclosure params body isBlock)

/-- An expression of an evident type starts with a token. -/
theorem plainAt_of_evidentType (h : input.Anchored source S) {r : Resolution} {type : TypeRef}
    (htype : Walk.evidentType? input r n = some type) : PlainAt S (input.ast.span n).start := by
  unfold Walk.evidentType? at htype
  split at htype
  · next hdata => exact h.placed_in hdata (by simp)
  · next hdata => exact h.placed_in hdata (by simp)
  · next hdata => exact h.placed_in hdata (by simp)
  · cases htype

/-- The name of a variable stands in its declaration. -/
theorem nameIn_of_var (h : input.Anchored source S) {v : VarDecl}
    (hdata : input.ast.data? n = some (.varDeclExpr v)) (hname : v.name ≠ "") :
    NameIn source S v.name v.nameOffset (input.ast.span n) := by
  have hplaced : Placed source S (.varDeclExpr v) (input.ast.span n) := h.placed_in hdata (by simp)
  exact hplaced.2 hname

theorem nameIn_of_fun (h : input.Anchored source S) {f : FunDecl}
    (hdata : input.ast.data? n = some (.funDeclExpr f)) (hname : f.name ≠ "") :
    NameIn source S f.name f.nameOffset (input.ast.span n) := by
  have hplaced : Placed source S (.funDeclExpr f) (input.ast.span n) := h.placed_in hdata (by simp)
  exact hplaced.2 hname

theorem nameAt_of_varDecl? (h : input.Anchored source S) {v : VarDecl}
    (hv : input.ast.varDecl? n = some v) (hname : v.name ≠ "") :
    NameAt source S v.name v.nameOffset := by
  obtain ⟨d, -, hdata⟩ := Ast.contains_of_varDecl? hv
  exact (h.nameIn_of_var hdata hname).nameAt

theorem nameAt_of_funDecl? (h : input.Anchored source S) {f : FunDecl}
    (hf : input.ast.funDecl? n = some f) (hname : f.name ≠ "") :
    NameAt source S f.name f.nameOffset := by
  obtain ⟨d, -, hdata⟩ := Ast.contains_of_funDecl? hf
  exact (h.nameIn_of_fun hdata hname).nameAt

end ResolveInput.Anchored

/-! ### Steps -/

/-- What is reported grows, by faults with a property. -/
structure Resolution.Gains (P : Diagnostic → Prop) (r r' : Resolution) : Prop where
  header : r'.header = r.header
  diagnostics : ∃ ds, r'.diagnostics = r.diagnostics ++ ds ∧ ∀ d ∈ ds, P d

namespace Resolution.Gains

variable {P : Diagnostic → Prop} {r r' r'' : Resolution}

theorem trans (h : r.Gains P r') (k : r'.Gains P r'') : r.Gains P r'' := by
  obtain ⟨ds, hds, hP⟩ := h.diagnostics
  obtain ⟨es, hes, hQ⟩ := k.diagnostics
  refine ⟨k.header.trans h.header, ds ++ es, by rw [hes, hds, List.append_assoc], ?_⟩
  intro d hd
  exact (List.mem_append.mp hd).elim (hP d) (hQ d)

theorem subset (h : r.Gains P r') {d : Diagnostic} (hd : d ∈ r.diagnostics) :
    d ∈ r'.diagnostics := by
  obtain ⟨ds, hds, -⟩ := h.diagnostics
  exact hds ▸ List.mem_append_left _ hd

end Resolution.Gains

namespace Walk

variable {α β : Type}

/-- With what `r` knows of the script, a walk reports faults with a property. -/
def Reports (r : Resolution) (P : Diagnostic → Prop) (x : Walk α) : Prop :=
  ∀ s : WalkState, s.resolution.header = r.header → s.resolution.Gains P (x.run s).2.resolution

section Steps

variable {r : Resolution} {P : Diagnostic → Prop} {x : Walk α}

/-- A step that changes neither. -/
theorem reports_of_same (h : ∀ s, (x.run s).2.resolution.header = s.resolution.header ∧
    (x.run s).2.resolution.diagnostics = s.resolution.diagnostics) : Reports r P x :=
  fun s _ => ⟨(h s).1, [], by simp [(h s).2]⟩

theorem reports_pure (a : α) : Reports r P (pure a : Walk α) := reports_of_same fun _ => ⟨rfl, rfl⟩

theorem reports_bind {f : α → Walk β} (hx : Reports r P x) (hf : ∀ a, Reports r P (f a)) :
    Reports r P (x >>= f) := by
  intro s hs
  have h := hx s hs
  exact h.trans (hf (x.run s).1 (x.run s).2 (h.header.trans hs))

theorem reports_get_bind {f : WalkState → Walk β}
    (hf : ∀ s, s.resolution.header = r.header → Reports r P (f s)) :
    Reports r P (get >>= f) := fun s hs => hf s hs s hs

theorem reports_consult_bind {x : Consulted α} {f : α → Walk β} (hf : Reports r P (f x.value)) :
    Reports r P (consult x >>= f) := fun s hs =>
  hf { s with asked := x.asked.reverse ++ s.asked } hs

theorem reports_ite {c : Prop} [Decidable c] {x y : Walk α} (hx : c → Reports r P x)
    (hy : ¬ c → Reports r P y) : Reports r P (if c then x else y) := by
  split
  · next hc => exact hx hc
  · next hc => exact hy hc

theorem reports_forM {f : α → Walk PUnit} {as : List α} (hf : ∀ a ∈ as, Reports r P (f a)) :
    Reports r P (as.forM f) := by
  induction as with
  | nil => exact reports_pure _
  | cons a as ih =>
    exact reports_bind (hf a (List.mem_cons_self ..)) fun _ =>
      ih fun a ha => hf a (List.mem_cons_of_mem _ ha)

theorem reports_foldlM {f : β → α → Walk β} {as : List α}
    (hf : ∀ b, ∀ a ∈ as, Reports r P (f b a)) (b : β) : Reports r P (as.foldlM f b) := by
  induction as generalizing b with
  | nil => exact reports_pure _
  | cons a as ih =>
    exact reports_bind (hf b a (List.mem_cons_self ..)) fun _ =>
      ih (fun b a ha => hf b a (List.mem_cons_of_mem _ ha)) _

theorem reports_modify {f : WalkState → WalkState} (hf : ∀ s, (f s).resolution = s.resolution) :
    Reports r P (modify f : Walk PUnit) :=
  reports_of_same fun s => ⟨congrArg Resolution.header (hf s),
    congrArg Resolution.diagnostics (hf s)⟩

theorem reports_report {message : String} {span : Span} (h : P (.ofResolution message span)) :
    Reports r P (report message span) := fun _ _ =>
  ⟨rfl, [.ofResolution message span], rfl, by simpa using h⟩

theorem reports_bindTo (node : NodeId) (binding : Binding) : Reports r P (bindTo node binding) :=
  reports_of_same fun _ => ⟨rfl, rfl⟩

theorem reports_modifyScope (block : NodeId) (f : BlockScope → BlockScope) :
    Reports r P (modifyScope block f) := reports_of_same fun _ => ⟨rfl, rfl⟩

theorem reports_openScope (node : NodeId) (enclosing : Option NodeId) :
    Reports r P (openScope node enclosing) := reports_of_same fun _ => ⟨rfl, rfl⟩

theorem reports_scope? (block : NodeId) : Reports r P (scope? block) :=
  reports_of_same fun _ => ⟨rfl, rfl⟩

theorem reports_noteBlock (node : NodeId) : Reports r P (noteBlock node) := by
  refine reports_get_bind fun s _ => ?_
  cases s.block with
  | none => exact reports_pure _
  | some block => exact reports_of_same fun _ => ⟨rfl, rfl⟩

theorem reports_resolveClass (input : ResolveInput) (written : String) :
    Reports r P (resolveClass input written) :=
  reports_get_bind fun _ _ => reports_consult_bind (reports_pure _)

theorem reports_lookup (input : ResolveInput) (name : String) :
    Reports r P (lookup input name) := by
  refine reports_get_bind fun s _ => ?_
  dsimp only
  split
  · exact reports_pure _
  · refine reports_consult_bind ?_
    split
    · exact reports_pure _
    · exact reports_ite (fun _ => reports_pure _) fun _ =>
        reports_bind (reports_resolveClass input name) fun _ => reports_pure _

end Steps

/-! ### Names and types -/

section

variable {input : ResolveInput} {r : Resolution} {P : Diagnostic → Prop} {n : NodeId}

theorem reports_bindName {name : String}
    (h : P (.ofResolution s!"Unknown variable '{name}'" (input.ast.span n))) :
    Reports r P (bindName input n name) := by
  refine reports_bind (reports_lookup input name) fun found => ?_
  cases found with
  | none => exact reports_report h
  | some binding => exact reports_bindTo _ _

theorem reports_checkNumeric {symbol : String}
    (h : ∀ r type, evidentType? input r n = some type → P (.ofResolution
      s!"Non-numeric operand for '{symbol}' of type {type.name}" (input.ast.span n))) :
    Reports r P (checkNumeric input symbol n) := by
  refine reports_get_bind fun s _ => ?_
  split
  · exact reports_pure _
  · next htype =>
    exact reports_ite (fun _ => reports_report (h _ _ htype)) fun _ => reports_pure _

theorem reports_checkType {type : TypeRef} {span : Span}
    (h : ∀ path, type = .named path → P (.ofResolution s!"Unknown class '{path}'" span)) :
    Reports r P (checkType input type span) := by
  unfold checkType
  split
  · refine reports_bind (reports_resolveClass input _) fun _ => ?_
    exact reports_ite (fun _ => reports_report (h _ rfl)) fun _ => reports_pure _
  · exact reports_pure _

theorem reports_checkBase {decl : ClassDecl} {c : ClassSummary}
    (h : ∀ written base, decl.base = some written → c.base = some base →
      (r.findClass input.others base).value = none →
      P (.ofResolution s!"Unknown class '{written}'" (input.ast.span n))) :
    Reports r P (checkBase input n decl c) := by
  unfold checkBase
  split
  · next hwritten hbase =>
    refine reports_get_bind fun s hs => reports_consult_bind ?_
    rw [Resolution.findClass_congr input.others hs]
    refine reports_ite (fun hnone => ?_) fun _ => reports_pure _
    exact reports_report (h _ _ hwritten hbase (Option.isNone_iff_eq_none.mp hnone))
  · exact reports_pure _

theorem reports_checkImport {i : ImportedClass}
    (h : P (.ofResolution s!"Unknown class '{i.path}'" (input.ast.span i.node))) :
    Reports r P (checkImport input i) := by
  refine reports_get_bind fun s _ => reports_consult_bind ?_
  exact reports_ite (fun _ => reports_report h) fun _ => reports_pure _

end

end Walk

/-! ### Faults of the text -/

namespace Walk

variable {input : ResolveInput} {source : String} {S : Token → Prop} {r : Resolution} {n : NodeId}

theorem reported_name {message name : String} {offset : Nat} (h : NameAt source S name offset) :
    Reports r (input.Reported S r) (report message (nameSpan name offset)) :=
  reports_report (.plain h.plainAt)

theorem reported_checkNumeric (h : input.Anchored source S) (symbol : String) :
    Reports r (input.Reported S r) (checkNumeric input symbol n) :=
  reports_checkNumeric fun _ _ htype => .plain (h.plainAt_of_evidentType htype)

theorem reported_checkType {type : TypeRef} {span : Span}
    (h : type.isBuiltin = false → PlainAt S span.start) :
    Reports r (input.Reported S r) (checkType input type span) :=
  reports_checkType fun _ heq => .plain (h (heq ▸ rfl))

theorem reported_checkBase {decl : ClassDecl} {c : ClassSummary}
    (hn : input.ast.Contains input.root n) (hdecl : input.ast.classDecl? n = some decl)
    (hc : r.classes.find? (·.decl == n) = some c) :
    Reports r (input.Reported S r) (checkBase input n decl c) :=
  reports_checkBase fun _ _ hwritten hbase hnone => .base hn hdecl hc hwritten hbase hnone

theorem reported_checkImport (h : input.Anchored source S) {i : ImportedClass}
    (hi : i ∈ importsOf input.ast input.root) :
    Reports r (input.Reported S r) (checkImport input i) := by
  refine reports_checkImport (.plain ?_)
  unfold importsOf at hi
  split at hi
  · cases hi
  · obtain ⟨node, -, hnode⟩ := List.mem_filterMap.mp hi
    split at hnode
    · next hdata =>
      split at hnode
      · cases hnode
      · cases hnode
        exact h.placed_in hdata (by simp)
    · cases hnode

end Walk

/-! ### Constructs -/

/-- Visitors report faults with a property, of the nodes of a script. -/
structure Visitors.Report (v : Visitors) (input : ResolveInput) (r : Resolution)
    (P : Diagnostic → Prop) : Prop where
  statement : ∀ n, input.ast.Contains input.root n → Walk.Reports r P (v.statement n)
  expression : ∀ n, input.ast.Contains input.root n → Walk.Reports r P (v.expression n)
  classDecl : ∀ n, input.ast.Contains input.root n → Walk.Reports r P (v.classDecl n)

namespace Walk

section

variable {input : ResolveInput} {source : String} {S : Token → Prop} {r : Resolution} {v : Visitors}
  {n : NodeId}

theorem reports_checkVar (h : input.Anchored source S)
    (hv : v.Report input r (input.Reported S r)) (hn : input.ast.Contains input.root n)
    (hdecl : ∃ var, input.ast.data? n = some (.varDeclExpr var)) :
    Reports r (input.Reported S r) (checkVar input v n) := by
  obtain ⟨var, hdata⟩ := hdecl
  have hplaced : Placed source S (.varDeclExpr var) (input.ast.span n) :=
    h.placed_in hdata (by simp)
  unfold checkVar
  rw [Ast.varDecl?_of_expr hdata]
  refine reports_bind (reported_checkType hplaced.1) fun _ => ?_
  split
  · exact reports_pure _
  · next init hinit =>
    have hpart := hn.step hdata (k := init) (by simp [NodeData.parts, hinit])
    refine reports_bind (hv.expression init hpart) fun _ => reports_get_bind fun s _ => ?_
    split
    · exact reports_pure _
    · next htype =>
      exact reports_ite (fun _ => reports_report (.plain (h.plainAt_of_evidentType htype))) fun _ =>
        reports_pure _

theorem reports_declareVar (h : input.Anchored source S)
    (hv : v.Report input r (input.Reported S r)) (hn : input.ast.Contains input.root n)
    (hdecl : ∃ var, input.ast.data? n = some (.varDeclExpr var)) :
    Reports r (input.Reported S r) (declareVar input v n) := by
  refine reports_bind (reports_noteBlock n) fun _ => ?_
  split
  · exact reports_pure _
  · next var hvar =>
    refine reports_bind (reports_checkVar h hv hn hdecl) fun _ => ?_
    refine reports_ite (fun _ => reports_pure _) fun hname => reports_get_bind fun s _ => ?_
    split
    · exact reports_pure _
    · refine reports_bind (reports_scope? _) fun scope => ?_
      split
      · exact reports_pure _
      · exact reports_ite
          (fun _ => reported_name (h.nameAt_of_varDecl? hvar (by simpa using hname)))
          fun _ => reports_modifyScope _ _

theorem reports_declareFunction (h : input.Anchored source S) (block stmt : NodeId) :
    Reports r (input.Reported S r) (declareFunction input block stmt) := by
  unfold declareFunction
  split
  · next hfn _ =>
    refine reports_ite (fun _ => reports_pure _) fun hname =>
      reports_bind (reports_scope? _) fun scope => ?_
    split
    · exact reports_pure _
    · exact reports_ite
        (fun _ => reported_name (h.nameAt_of_funDecl? hfn (by simpa using hname)))
        fun _ => reports_modifyScope _ _
  · exact reports_pure _

theorem contains_of_blockStatements {ast : Ast} {root block stmt : NodeId}
    (hn : ast.Contains root block) (hstmt : stmt ∈ blockStatements ast block) :
    ast.Contains root stmt := by
  unfold blockStatements at hstmt
  split at hstmt
  · next hdata => exact hn.step hdata hstmt
  · cases hstmt

theorem reports_walkBlock (h : input.Anchored source S)
    (hv : v.Report input r (input.Reported S r)) (hn : input.ast.Contains input.root n)
    {params : List NodeId} (hparams : ∀ p ∈ params, input.ast.Contains input.root p) :
    Reports r (input.Reported S r) (walkBlock input v n params) := by
  refine reports_bind (reports_noteBlock n) fun _ => reports_get_bind fun s _ => ?_
  refine reports_bind (reports_openScope _ _) fun _ => ?_
  refine reports_bind (reports_forM fun p hp => hv.statement p (hparams p hp)) fun _ => ?_
  refine reports_bind (reports_forM fun stmt _ => reports_declareFunction h n stmt) fun _ => ?_
  refine reports_bind (reports_forM fun stmt hstmt => ?_) fun _ => reports_modify fun _ => rfl
  exact hv.statement stmt (contains_of_blockStatements hn hstmt)

theorem reports_walkFunction (h : input.Anchored source S)
    (hv : v.Report input r (input.Reported S r)) (hn : input.ast.Contains input.root n)
    (hdecl : ∃ fn, input.ast.data? n = some (.funDeclExpr fn)) :
    Reports r (input.Reported S r) (walkFunction input v n) := by
  obtain ⟨fn, hdata⟩ := hdecl
  have hplaced : Placed source S (.funDeclExpr fn) (input.ast.span n) := h.placed_in hdata (by simp)
  have hpart (k : NodeId) (hk : k ∈ fn.params ++ [fn.body]) := hn.step hdata hk
  refine reports_bind (reports_noteBlock n) fun _ => ?_
  rw [Ast.funDecl?_of_expr hdata]
  refine reports_bind (reported_checkType hplaced.1) fun _ => ?_
  exact reports_walkBlock h hv (hpart fn.body (by simp)) fun p hp => hpart p (by simp [hp])

theorem reports_walkField (h : input.Anchored source S)
    (hv : v.Report input r (input.Reported S r)) (known : List String)
    (hn : input.ast.Contains input.root n) :
    Reports r (input.Reported S r) (walkField input v known n) := by
  refine reports_bind (reports_noteBlock n) fun _ => ?_
  split
  · exact reports_pure _
  · next var hvar =>
    have hrest : Reports r (input.Reported S r) (if var.name.isEmpty then pure known
        else if known.contains var.name then do
          report s!"Field '{var.name}' already declared" (nameSpan var.name var.nameOffset)
          pure known
        else pure (var.name :: known)) := by
      refine reports_ite (fun _ => reports_pure _) fun hname => ?_
      refine reports_ite (fun _ => ?_) fun _ => reports_pure _
      exact reports_bind (reported_name (h.nameAt_of_varDecl? hvar (by simpa using hname)))
        fun _ => reports_pure _
    dsimp only
    split
    · next decl hdata =>
      exact reports_bind (reports_checkVar h hv (hn.step hdata (by simp [NodeData.parts]))
        (h.varDecl n decl hn hdata)) fun _ => hrest
    · exact hrest

theorem reports_fields (h : input.Anchored source S)
    (hv : v.Report input r (input.Reported S r)) {fields : List NodeId}
    (hfields : ∀ f ∈ fields, input.ast.Contains input.root f) :
    Reports r (input.Reported S r) (fields.foldlM (walkField input v) []) :=
  reports_foldlM (fun known f hf => reports_walkField h hv known (hfields f hf)) []

theorem contains_of_class {m : NodeId} {decl : ClassDecl} (hn : input.ast.Contains input.root n)
    (hdecl : input.ast.classDecl? n = some decl)
    (hm : m ∈ decl.fields ++ decl.methods ++ decl.inner) : input.ast.Contains input.root m := by
  refine hn.step (Ast.classDecl?_eq_some.mp hdecl) ?_
  simp only [NodeData.parts, List.mem_append] at hm ⊢
  tauto

/-- The members of a class, in a scope of its own. -/
theorem reports_members (h : input.Anchored source S)
    (hv : v.Report input r (input.Reported S r)) (hn : input.ast.Contains input.root n)
    {decl : ClassDecl} (hdecl : input.ast.classDecl? n = some decl) (owner : String)
    (s : WalkState) : Reports r (input.Reported S r) (do
      modify fun s => { s with owner := owner }
      openScope n none
      noteBlock n
      let _ ← decl.fields.foldlM (walkField input v) []
      decl.methods.forM v.statement
      decl.inner.forM v.classDecl
      modify fun now => { now with block := s.block, owner := s.owner }) := by
  have hpart {m : NodeId} (hm : m ∈ decl.fields ++ decl.methods ++ decl.inner) :
      input.ast.Contains input.root m := contains_of_class hn hdecl hm
  refine reports_bind (reports_modify fun _ => rfl) fun _ => ?_
  refine reports_bind (reports_openScope _ _) fun _ => ?_
  refine reports_bind (reports_noteBlock _) fun _ => ?_
  refine reports_bind (reports_fields h hv fun f hf => hpart (by simp [hf])) fun _ => ?_
  refine reports_bind (reports_forM fun m hm => hv.statement m (hpart (by simp [hm]))) fun _ => ?_
  exact reports_bind (reports_forM fun i hi => hv.classDecl i (hpart (by simp [hi]))) fun _ =>
    reports_modify fun _ => rfl

theorem reports_walkClass (h : input.Anchored source S)
    (hv : v.Report input r (input.Reported S r)) (hn : input.ast.Contains input.root n) :
    Reports r (input.Reported S r) (walkClass input v n) := by
  refine reports_get_bind fun s hs => ?_
  rw [show s.resolution.classes = r.classes from congrArg Resolution.Header.classes hs]
  split
  · next decl c hdecl hc =>
    exact reports_bind (reported_checkBase hn hdecl hc) fun _ =>
      reports_members h hv hn hdecl c.fullName s
  · exact reports_pure _

theorem reports_walkExpression (h : input.Anchored source S)
    (hv : v.Report input r (input.Reported S r)) (hn : input.ast.Contains input.root n) :
    Reports r (input.Reported S r) (walkExpression input v n) := by
  have hpart {data : NodeData} (hdata : input.ast.data? n = some data) (k : NodeId)
      (hk : k ∈ data.parts) := hv.expression k (hn.step hdata hk)
  have hall {data : NodeData} (hdata : input.ast.data? n = some data) {ks : List NodeId}
      (hks : ∀ k ∈ ks, k ∈ data.parts) : Reports r (input.Reported S r) (ks.forM v.expression) :=
    reports_forM fun k hk => hpart hdata k (hks k hk)
  refine reports_bind (reports_noteBlock n) fun _ => ?_
  split
  · next hdata => exact reports_bindName (.plain (h.placed_in hdata (by simp)))
  · next hdata =>
    exact reports_bind (hpart hdata _ (by simp [NodeData.parts])) fun _ =>
      reports_bindName (.plain (h.placed_in hdata (by simp)))
  · next hdata => exact hall hdata fun _ hk => hk
  · next hdata =>
    refine reports_bind (hpart hdata _ (by simp [NodeData.parts])) fun _ => ?_
    refine reports_bind (hpart hdata _ (by simp [NodeData.parts])) fun _ => ?_
    exact reports_ite (fun _ => reports_bind (reported_checkNumeric h _) fun _ =>
      reported_checkNumeric h _) fun _ => reports_pure _
  · next hdata =>
    refine reports_bind (hpart hdata _ (by simp [NodeData.parts])) fun _ => ?_
    exact reports_ite (fun _ => reported_checkNumeric h _) fun _ => reports_pure _
  · next hdata =>
    exact reports_bind (hpart hdata _ (by simp [NodeData.parts])) fun _ =>
      hall hdata fun k hk => by simp [NodeData.parts, hk]
  · next hdata =>
    exact reports_bind (hpart hdata _ (by simp [NodeData.parts])) fun _ =>
      hall hdata fun k hk => by simp [NodeData.parts, hk]
  · next hdata =>
    exact reports_walkBlock h hv (hn.step hdata (by simp [NodeData.parts])) fun p hp =>
      hn.step hdata (by simp [NodeData.parts, hp])
  · next hdata =>
    have hargs := hall hdata fun _ hk => hk
    refine reports_bind (reports_resolveClass input _) fun found => ?_
    cases found with
    | none => exact reports_bind (reports_report (.plain (h.placed_in hdata (by simp)))) fun _ =>
        hargs
    | some fullName => exact reports_bind (reports_bindTo _ _) fun _ => hargs
  · next hdata => exact reports_walkFunction h hv hn ⟨_, hdata⟩
  · next hdata => exact reports_declareVar h hv hn ⟨_, hdata⟩
  · exact reports_pure _

theorem reports_walkStatement (h : input.Anchored source S)
    (hv : v.Report input r (input.Reported S r)) (hn : input.ast.Contains input.root n) :
    Reports r (input.Reported S r) (walkStatement input v n) := by
  refine reports_bind (reports_noteBlock n) fun _ => ?_
  split
  · next hdata =>
    exact reports_declareVar h hv (hn.step hdata (by simp [NodeData.parts]))
      (h.varDecl n _ hn hdata)
  · next hdata =>
    exact reports_walkFunction h hv (hn.step hdata (by simp [NodeData.parts]))
      (h.funDecl n _ hn hdata)
  · next hdata => exact hv.expression _ (hn.step hdata (by simp [NodeData.parts]))
  · next hdata =>
    refine reports_bind (hv.expression _ (hn.step hdata (by simp [NodeData.parts]))) fun _ => ?_
    refine reports_bind (hv.statement _ (hn.step hdata (by simp [NodeData.parts]))) fun _ => ?_
    exact reports_forM fun k hk => hv.statement k (hn.step hdata (by simp [NodeData.parts, hk]))
  · next hdata =>
    exact reports_bind (hv.expression _ (hn.step hdata (by simp [NodeData.parts]))) fun _ =>
      hv.statement _ (hn.step hdata (by simp [NodeData.parts]))
  · next hdata => exact reports_forM fun k hk => hv.expression k (hn.step hdata hk)
  · exact reports_walkBlock h hv hn (by simp)
  · exact reports_walkClass h hv hn
  · exact reports_pure _
  · exact reports_pure _
  · exact reports_walkExpression h hv hn

/-- By induction on the depth. -/
theorem reports_visitors (h : input.Anchored source S) (depth : Nat) :
    (visitors input depth).Report input r (input.Reported S r) := by
  induction depth with
  | zero => exact ⟨fun _ _ => reports_pure _, fun _ _ => reports_pure _, fun _ _ => reports_pure _⟩
  | succ depth ih =>
    exact ⟨fun _ => reports_walkStatement h ih, fun _ => reports_walkExpression h ih,
      fun _ => reports_walkClass h ih⟩

theorem reports_walkScript (h : input.Anchored source S)
    (hv : v.Report input r (input.Reported S r)) {script : ClassDecl}
    (hscript : input.ast.classDecl? input.root = some script)
    (himports : r.imports = importsOf input.ast input.root) :
    Reports r (input.Reported S r) (walkScript input v script) := by
  have hpart (k : NodeId) (hk : k ∈ script.inner ++ script.body.toList) :
      input.ast.Contains input.root k := by
    refine .part (Ast.classDecl?_eq_some.mp hscript) ?_ (.here k)
    simp only [NodeData.parts, List.mem_append] at hk ⊢
    tauto
  refine reports_get_bind fun s hs => ?_
  rw [show s.resolution.imports = r.imports from congrArg Resolution.Header.imports hs, himports]
  refine reports_bind (reports_forM fun i hi => reported_checkImport h hi) fun _ => ?_
  refine reports_bind (reports_forM fun body hbody =>
    reports_walkBlock h hv (hpart body (by simp [hbody])) (by simp)) fun _ => ?_
  exact reports_forM fun i hi => reports_walkClass h hv (hpart i (by simp [hi]))

end

end Walk

/-! ### Scripts -/

namespace ResolveInput

variable {input : ResolveInput} {mk : MarkerId → Marker} {events : List Event} {parts : ScriptParts}
  {text source : String} {S : Token → Prop}

theorem Anchored.of_script {p : Parse} (hrun : ScriptRun text p)
    (h : ScriptRecorded p.ast mk events p.root parts) (hast : input.ast = p.ast)
    (hroot : input.root = p.root) : input.Anchored text (Significant text) := by
  have hformed {n : NodeId} {data : NodeData} (hn : input.ast.Contains input.root n)
      (hdata : input.ast.data? n = some data) (hbare : data.isBare = false) :
      (n = p.root ∧ data = .classDecl parts.decl) ∨ data.Formed p.ast := by
    rw [hast, hroot] at hn
    rw [hast] at hdata
    obtain ⟨-, -, -, -, hformed⟩ := h.construct_of_contains hn hdata hbare
    exact hformed
  refine ⟨?_, ?_, ?_, ?_⟩
  · rw [hast]
    exact hrun.placed
  · intro n d hn hdata
    rcases hformed hn hdata rfl with ⟨-, hclass⟩ | hformed
    · cases hclass
    · exact hast ▸ hformed
  · intro n d hn hdata
    rcases hformed hn hdata rfl with ⟨-, hclass⟩ | hformed
    · cases hclass
    · exact hast ▸ hformed
  · intro n c hn hdata hbase
    rcases hformed hn hdata rfl with ⟨-, hclass⟩ | hformed
    · cases hclass
      exact absurd h.script.base hbase
    · exact hformed.2.2.2.1

/-- Whatever is reported starts with a token. -/
theorem Reported.significant {r : Resolution} {d : Diagnostic} (h : input.Anchored source S)
    (hd : input.Reported S r d) : ∃ t, S t ∧ t.offset = d.offset := by
  cases hd with
  | plain hplain =>
    obtain ⟨t, ht, -, hoffset⟩ := hplain
    exact ⟨t, ht, hoffset⟩
  | base hn hdecl _ hwritten _ _ =>
    have hdata := Ast.classDecl?_eq_some.mp hdecl
    have hscript := h.subclass _ _ hn hdata (by simp [hwritten])
    rcases h.placed_in hdata (by simp) with hisScript | ⟨⟨t, ht, -, hoffset⟩, -⟩
    · exact absurd hisScript (by simp [hscript])
    · exact ⟨t, ht, hoffset⟩

theorem resolve_gains (h : ScriptRecorded input.ast mk events input.root parts)
    (ha : input.Anchored source S) : (input.start parts.decl).resolution.Gains
      (input.Reported S input.resolve.value) input.resolve.value := by
  have hheader := header_resolve h
  have hwalk := Walk.reports_walkScript (r := input.resolve.value) ha
    (Walk.reports_visitors ha input.ast.size) h.classDecl?_root
    (congrArg Resolution.Header.imports hheader) (input.start parts.decl) hheader.symm
  rwa [← resolve_value h] at hwalk

theorem reported_of_mem (h : ScriptRecorded input.ast mk events input.root parts)
    (ha : input.Anchored source S) {d : Diagnostic} (hd : d ∈ input.resolve.value.diagnostics) :
    input.Reported S input.resolve.value d := by
  obtain ⟨ds, hds, hP⟩ := (resolve_gains h ha).diagnostics
  rw [hds] at hd
  exact hP d hd

end ResolveInput

end ScriptAnalysis
