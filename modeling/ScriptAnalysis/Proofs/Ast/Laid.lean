import ScriptAnalysis.Ast.Basic
import Mathlib.Data.List.Basic
import Mathlib.Data.List.Perm.Basic

/-!
# How a parse lays out the nodes of a script

A node is allocated when its construct ends, after the nodes in it and before those that follow.
So the ids of a construct fill an interval that no other construct enters, and the spans of what
stands for tokens are nested and follow each other as the constructs do.

`Laid ast a ns b` says this of the constructs `ns`, which were read one after the other from the
point `a` to the point `b`, and of everything in them.
-/

namespace ScriptAnalysis

/-! ### What a node consists of -/

/-- The nodes directly in a node. -/
def NodeData.parts : NodeData → List NodeId
  | .classDecl c => c.fields ++ c.methods ++ c.inner ++ c.imports ++ c.body.toList
  | .block stmts => stmts
  | .varDecl decl | .funDecl decl => [decl]
  | .exprStmt expr => [expr]
  | .ifStmt cond thenBranch elseBranch => cond :: thenBranch :: elseBranch.toList
  | .whileStmt cond body => [cond, body]
  | .returnStmt value => value.toList
  | .listLiteral items => items
  | .binary _ left right => [left, right]
  | .unary _ operand => [operand]
  | .call callee args => callee :: args
  | .methodCall target _ args => target :: args.getD []
  | .assign _ value => [value]
  | .closure params body _ => params ++ [body]
  | .invokeNew _ args => args
  | .varDeclExpr decl => decl.init.toList
  | .funDeclExpr decl => decl.params ++ [decl.body]
  | .importDecl _ _ | .noop | .identifier _ | .literal _ | .name _ _ | .type _ => []

/-- The members of a class stand in any order; everything else stands in the order of its parts. -/
def NodeData.Arranged (ns : List NodeId) : NodeData → Prop
  | .classDecl c => ns.Perm (NodeData.classDecl c).parts
  | data => ns = data.parts

theorem NodeData.Arranged.perm {ns : List NodeId} {data : NodeData} (h : data.Arranged ns) :
    ns.Perm data.parts := by
  cases data with
  | classDecl c => exact h
  | _ => exact .of_eq h

/-- What stands in place of an expression.  A missing one means nothing. -/
def NodeData.isExpr : NodeData → Bool
  | .identifier _ | .literal _ | .listLiteral _ | .binary _ _ _ | .unary _ _ | .call _ _
  | .methodCall _ _ _ | .assign _ _ | .closure _ _ _ | .invokeNew _ _ | .noop => true
  | _ => false

/-- What stands in place of a statement. -/
def NodeData.isStmt : NodeData → Bool
  | .varDecl _ | .funDecl _ | .exprStmt _ | .ifStmt _ _ _ | .whileStmt _ _ | .returnStmt _
  | .block _ => true
  | _ => false

namespace Ast

def IsExpr (ast : Ast) (n : NodeId) : Prop :=
  ∃ data, ast.data? n = some data ∧ data.isExpr = true

def IsStmt (ast : Ast) (n : NodeId) : Prop :=
  ∃ data, ast.data? n = some data ∧ data.isStmt = true

def IsBlock (ast : Ast) (n : NodeId) : Prop := ∃ stmts, ast.data? n = some (.block stmts)

/-- A statement that declares a variable. -/
def IsVar (ast : Ast) (n : NodeId) : Prop :=
  ∃ decl v, ast.data? n = some (.varDecl decl) ∧ ast.data? decl = some (.varDeclExpr v)

/-- A statement that declares a function. -/
def IsFun (ast : Ast) (n : NodeId) : Prop :=
  ∃ decl f, ast.data? n = some (.funDecl decl) ∧ ast.data? decl = some (.funDeclExpr f)

def IsImport (ast : Ast) (n : NodeId) : Prop :=
  ∃ path rename, ast.data? n = some (.importDecl path rename)

/-- A class other than that of a script. -/
def IsClass (ast : Ast) (n : NodeId) : Prop :=
  ∃ c, ast.data? n = some (.classDecl c) ∧ c.isScript = false

end Ast

/-- The parts of a node are what they have to be. -/
def NodeData.Formed (ast : Ast) : NodeData → Prop
  | .varDecl decl => ∃ v, ast.data? decl = some (.varDeclExpr v)
  | .funDecl decl => ∃ f, ast.data? decl = some (.funDeclExpr f)
  | .block stmts => ∀ stmt ∈ stmts, ast.IsStmt stmt
  | .exprStmt expr => ast.IsExpr expr
  | .ifStmt cond thenBranch elseBranch => ast.IsExpr cond ∧ ast.IsStmt thenBranch ∧
      ∀ branch ∈ elseBranch, ast.IsStmt branch
  | .whileStmt cond body => ast.IsExpr cond ∧ ast.IsStmt body
  | .returnStmt value => ∀ expr ∈ value, ast.IsExpr expr
  | .listLiteral items => ∀ item ∈ items, ast.IsExpr item
  | .binary _ left right => ast.IsExpr left ∧ ast.IsExpr right
  | .unary _ operand => ast.IsExpr operand
  | .call callee args => ast.IsExpr callee ∧ ∀ arg ∈ args, ast.IsExpr arg
  | .methodCall target _ args => ast.IsExpr target ∧ ∀ arg ∈ args.getD [], ast.IsExpr arg
  | .assign _ value => ast.IsExpr value
  | .invokeNew _ args => ∀ arg ∈ args, ast.IsExpr arg
  | .varDeclExpr v => ∀ init ∈ v.init, ast.IsExpr init
  | .closure params body _ => (∀ p ∈ params, ast.IsVar p) ∧ ast.IsBlock body
  | .funDeclExpr f => (∀ p ∈ f.params, ast.IsVar p) ∧ ast.IsBlock f.body
  | .classDecl c => (∀ field ∈ c.fields, ast.IsVar field) ∧ (∀ m ∈ c.methods, ast.IsFun m) ∧
      (∀ i ∈ c.inner, ast.IsClass i) ∧ c.isScript = false ∧ c.imports = [] ∧ c.body = none
  | _ => True

theorem Ast.lt_size_of_data? {ast : Ast} {n : Nat} {data : NodeData}
    (h : ast.data? n = some data) : n < ast.size := by
  by_contra hle
  rw [Ast.data?, Ast.node?, Array.getElem?_eq_none (Nat.le_of_not_lt hle)] at h
  cases h

/-! ### Growth of an arena -/

/-- The same, except that braces may have turned out to be a plain block. -/
def NodeData.Alike (data data' : NodeData) : Prop :=
  data' = data ∨ ∃ params body isBlock isBlock',
    data = .closure params body isBlock ∧ data' = .closure params body isBlock'

namespace NodeData.Alike

variable {data data' data'' : NodeData}

theorem refl (data : NodeData) : data.Alike data := .inl rfl

theorem trans (h : data.Alike data') (k : data'.Alike data'') : data.Alike data'' := by
  rcases h with rfl | ⟨params, body, f, f', rfl, rfl⟩
  · exact k
  · rcases k with rfl | ⟨params', body', g, g', hg, rfl⟩
    · exact .inr ⟨params, body, f, f', rfl, rfl⟩
    · cases hg
      exact .inr ⟨params, body, f, g', rfl, rfl⟩

theorem arranged {ns : List NodeId} (h : data.Alike data') (k : data.Arranged ns) :
    data'.Arranged ns := by
  rcases h with rfl | ⟨params, body, f, f', rfl, rfl⟩
  · exact k
  · exact k

end NodeData.Alike

namespace Ast

/-- The nodes of an arena are in a later one. -/
def Extends (ast ast' : Ast) : Prop :=
  ∀ n data, ast.data? n = some data →
    ast'.span n = ast.span n ∧ ∃ data', ast'.data? n = some data' ∧ data.Alike data'

namespace Extends

variable {ast ast' ast'' : Ast} {n : NodeId} {data : NodeData}

theorem refl (ast : Ast) : ast.Extends ast := fun _ data h => ⟨rfl, data, h, .refl data⟩

theorem trans (h : ast.Extends ast') (k : ast'.Extends ast'') : ast.Extends ast'' := by
  intro n data hdata
  obtain ⟨hspan, data', hdata', halike⟩ := h n data hdata
  obtain ⟨hspan', data'', hdata'', halike'⟩ := k n data' hdata'
  exact ⟨hspan'.trans hspan, data'', hdata'', halike.trans halike'⟩

theorem span (h : ast.Extends ast') (hdata : ast.data? n = some data) :
    ast'.span n = ast.span n := (h n data hdata).1

/-- Whatever is no closure stays as it is. -/
theorem same (h : ast.Extends ast') (hdata : ast.data? n = some data)
    (hclosure : ∀ params body isBlock, data ≠ .closure params body isBlock) :
    ast'.data? n = some data := by
  obtain ⟨-, data', hdata', rfl | ⟨params, body, f, f', rfl, -⟩⟩ := h n data hdata
  · exact hdata'
  · exact absurd rfl (hclosure params body f)

theorem isExpr (h : ast.Extends ast') (hn : ast.IsExpr n) : ast'.IsExpr n := by
  obtain ⟨data, hdata, hexpr⟩ := hn
  obtain ⟨-, data', hdata', rfl | ⟨params, body, f, f', -, rfl⟩⟩ := h n data hdata
  · exact ⟨data', hdata', hexpr⟩
  · exact ⟨_, hdata', rfl⟩

theorem isStmt (h : ast.Extends ast') (hn : ast.IsStmt n) : ast'.IsStmt n := by
  obtain ⟨data, hdata, hstmt⟩ := hn
  refine ⟨data, h.same hdata ?_, hstmt⟩
  rintro params body isBlock rfl
  cases hstmt

theorem isBlock (h : ast.Extends ast') (hn : ast.IsBlock n) : ast'.IsBlock n := by
  obtain ⟨stmts, hdata⟩ := hn
  exact ⟨stmts, h.same hdata (by simp)⟩

theorem isVar (h : ast.Extends ast') (hn : ast.IsVar n) : ast'.IsVar n := by
  obtain ⟨decl, v, hdata, hdecl⟩ := hn
  exact ⟨decl, v, h.same hdata (by simp), h.same hdecl (by simp)⟩

theorem isFun (h : ast.Extends ast') (hn : ast.IsFun n) : ast'.IsFun n := by
  obtain ⟨decl, f, hdata, hdecl⟩ := hn
  exact ⟨decl, f, h.same hdata (by simp), h.same hdecl (by simp)⟩

theorem isImport (h : ast.Extends ast') (hn : ast.IsImport n) : ast'.IsImport n := by
  obtain ⟨path, rename, hdata⟩ := hn
  exact ⟨path, rename, h.same hdata (by simp)⟩

theorem isClass (h : ast.Extends ast') (hn : ast.IsClass n) : ast'.IsClass n := by
  obtain ⟨c, hdata, hscript⟩ := hn
  exact ⟨c, h.same hdata (by simp), hscript⟩

theorem formed (h : ast.Extends ast') (hformed : data.Formed ast) : data.Formed ast' := by
  cases data with
  | varDecl decl =>
    obtain ⟨v, hdecl⟩ := hformed
    exact ⟨v, h.same hdecl (by simp)⟩
  | funDecl decl =>
    obtain ⟨f, hdecl⟩ := hformed
    exact ⟨f, h.same hdecl (by simp)⟩
  | block stmts => exact fun stmt hstmt => h.isStmt (hformed stmt hstmt)
  | exprStmt expr => exact h.isExpr hformed
  | ifStmt cond thenBranch elseBranch =>
    exact ⟨h.isExpr hformed.1, h.isStmt hformed.2.1,
      fun branch hbranch => h.isStmt (hformed.2.2 branch hbranch)⟩
  | whileStmt cond body => exact ⟨h.isExpr hformed.1, h.isStmt hformed.2⟩
  | returnStmt value => exact fun expr hexpr => h.isExpr (hformed expr hexpr)
  | listLiteral items => exact fun item hitem => h.isExpr (hformed item hitem)
  | binary op left right => exact ⟨h.isExpr hformed.1, h.isExpr hformed.2⟩
  | unary op operand => exact h.isExpr hformed
  | call callee args =>
    exact ⟨h.isExpr hformed.1, fun arg harg => h.isExpr (hformed.2 arg harg)⟩
  | methodCall target name args =>
    exact ⟨h.isExpr hformed.1, fun arg harg => h.isExpr (hformed.2 arg harg)⟩
  | assign name value => exact h.isExpr hformed
  | invokeNew className args => exact fun arg harg => h.isExpr (hformed arg harg)
  | varDeclExpr v => exact fun init hinit => h.isExpr (hformed init hinit)
  | closure params body isBlock =>
    exact ⟨fun p hp => h.isVar (hformed.1 p hp), h.isBlock hformed.2⟩
  | funDeclExpr f => exact ⟨fun p hp => h.isVar (hformed.1 p hp), h.isBlock hformed.2⟩
  | classDecl c =>
    obtain ⟨hfields, hmethods, hinner, hrest⟩ := hformed
    exact ⟨fun n hn => h.isVar (hfields n hn), fun n hn => h.isFun (hmethods n hn),
      fun n hn => h.isClass (hinner n hn), hrest⟩
  | _ => trivial

end Extends

end Ast

/-- Whether a node surely stands for tokens. -/
def NodeData.isSolid : NodeData → Bool
  | .identifier _ | .assign _ _ => true
  | .varDeclExpr v => !v.name.isEmpty || v.init.isSome
  | _ => false

/-! ### What is in a node -/

/-- A node is another one or a part of it, to whatever depth. -/
inductive Ast.Contains (ast : Ast) : NodeId → NodeId → Prop
  | here (n : NodeId) : Contains ast n n
  | part {m k n : NodeId} {data : NodeData} :
      ast.data? m = some data → k ∈ data.parts → Contains ast k n → Contains ast m n

theorem Ast.Contains.trans {ast : Ast} {m k n : NodeId} (h : ast.Contains m k)
    (hn : ast.Contains k n) : ast.Contains m n := by
  induction h with
  | here => exact hn
  | part hdata hk _ ih => exact .part hdata hk (ih hn)

/-! ### Points of a parse -/

/-- How many nodes there are, and where the last token ends. -/
structure ParsePoint where
  ids : Nat
  text : Nat

namespace ParsePoint

structure Precedes (a b : ParsePoint) : Prop where
  ids : a.ids ≤ b.ids
  text : a.text ≤ b.text

theorem Precedes.refl (a : ParsePoint) : a.Precedes a := ⟨Nat.le_refl _, Nat.le_refl _⟩

theorem Precedes.trans {a b c : ParsePoint} (h : a.Precedes b) (k : b.Precedes c) :
    a.Precedes c := ⟨Nat.le_trans h.ids k.ids, Nat.le_trans h.text k.text⟩

end ParsePoint

/-- A node whose first token starts at or behind `a`, whose parts were read from `b` to `c`, was
    allocated before `d`. -/
structure Allots (ast : Ast) (a b c : ParsePoint) (n : Nat) (data : NodeData) (d : ParsePoint) :
    Prop where
  found : ast.data? n = some data
  formed : data.Formed ast
  before : a.Precedes b
  le_id : c.ids ≤ n
  id_lt : n < d.ids
  text : c.text ≤ d.text
  start : data.isSolid = true → a.text ≤ (ast.span n).start
  solid : data.isSolid = true → (ast.span n).start < (ast.span n).stop
  parts : data.isSolid = true → c.text ≤ (ast.span n).stop
  stop : data.isSolid = true → (ast.span n).stop ≤ d.text
  /-- The name that is assigned to stands before the value. -/
  lead : ∀ name value, data = .assign name value → (ast.span n).start < b.text
  decl : ∀ decl, data = .varDecl decl → ast.span n = ast.span decl

/-- A node is allotted in a later arena as it was. -/
theorem Allots.later {ast ast' : Ast} {a b c d : ParsePoint} {n : Nat} {data : NodeData}
    (h : Allots ast a b c n data d) (hast : ast.Extends ast') :
    ∃ data', data.Alike data' ∧ Allots ast' a b c n data' d := by
  obtain ⟨hspan, data', hdata', halike⟩ := hast n data h.found
  have hformed := hast.formed h.formed
  refine ⟨data', halike, ?_⟩
  rcases halike with rfl | ⟨params, body, f, f', rfl, rfl⟩
  · refine ⟨hdata', hformed, h.before, h.le_id, h.id_lt, h.text, ?_, ?_, ?_, ?_, ?_, ?_⟩
    · rw [hspan]
      exact h.start
    · rw [hspan]
      exact h.solid
    · rw [hspan]
      exact h.parts
    · rw [hspan]
      exact h.stop
    · rw [hspan]
      exact h.lead
    · rintro decl rfl
      obtain ⟨v, hdecl⟩ := h.formed
      rw [hspan, hast.span hdecl]
      exact h.decl decl rfl
  · exact ⟨hdata', hformed, h.before, h.le_id, h.id_lt, h.text, by simp [NodeData.isSolid],
      by simp [NodeData.isSolid], by simp [NodeData.isSolid], by simp [NodeData.isSolid], by simp,
      by simp⟩

inductive Laid (ast : Ast) : ParsePoint → List NodeId → ParsePoint → Prop
  | nil {a b : ParsePoint} : a.Precedes b → Laid ast a [] b
  | cons {a b c d e : ParsePoint} {ns ms : List NodeId} {n : Nat} {data : NodeData} :
      Laid ast b ns c → data.Arranged ns → Allots ast a b c n data d → Laid ast d ms e →
      Laid ast a (n :: ms) e

namespace Laid

variable {ast ast' : Ast} {a b c d e : ParsePoint} {ns ms : List NodeId} {n : Nat}
  {data : NodeData}

theorem precedes (h : Laid ast a ns b) : a.Precedes b := by
  induction h with
  | nil h => exact h
  | cons _ _ hn _ ih₁ ih₂ =>
    exact (hn.before.trans (ih₁.trans ⟨Nat.le_trans hn.le_id (Nat.le_of_lt hn.id_lt),
      hn.text⟩)).trans ih₂

theorem single (h : Laid ast b ns c) (harranged : data.Arranged ns)
    (hn : Allots ast a b c n data d) : Laid ast a [n] d :=
  .cons h harranged hn (.nil (.refl d))

theorem cons_iff : Laid ast a (n :: ms) e ↔ ∃ b c d data ns, Laid ast b ns c ∧
    data.Arranged ns ∧ Allots ast a b c n data d ∧ Laid ast d ms e := by
  constructor
  · rintro (_ | ⟨h, harranged, hn, hms⟩)
    exact ⟨_, _, _, _, _, h, harranged, hn, hms⟩
  · rintro ⟨b, c, d, data, ns, h, harranged, hn, hms⟩
    exact .cons h harranged hn hms

theorem le (h : Laid ast a ns b) (hbc : b.Precedes c) : Laid ast a ns c := by
  induction h with
  | nil h => exact .nil (h.trans hbc)
  | cons h₁ harranged hn _ _ ih => exact .cons h₁ harranged hn (ih hbc)

theorem ge (h : Laid ast b ns c) (hab : a.Precedes b) : Laid ast a ns c := by
  cases h with
  | nil h => exact .nil (hab.trans h)
  | cons h harranged hn hms =>
    exact .cons h harranged { hn with
      before := hab.trans hn.before
      start := fun hsolid => Nat.le_trans hab.text (hn.start hsolid) } hms

theorem append (h : Laid ast a ns b) (k : Laid ast b ms c) : Laid ast a (ns ++ ms) c := by
  induction h with
  | nil h => exact k.ge h
  | cons h₁ harranged hn _ _ ih => exact .cons h₁ harranged hn (ih k)

theorem split (h : Laid ast a (ns ++ ms) c) : ∃ b, Laid ast a ns b ∧ Laid ast b ms c := by
  induction ns generalizing a with
  | nil => exact ⟨a, .nil (.refl a), h⟩
  | cons n ns ih =>
    obtain ⟨b, b', d, data, parts, hparts, harranged, hn, hrest⟩ := cons_iff.mp h
    obtain ⟨m, hns, hms⟩ := ih hrest
    exact ⟨m, .cons hparts harranged hn hns, hms⟩

/-- Some of the constructs are laid out as all of them are. -/
theorem sublist (h : Laid ast a ns b) (hms : ms.Sublist ns) : Laid ast a ms b := by
  induction hms generalizing a with
  | slnil => exact h
  | cons n _ ih =>
    obtain ⟨b', c, d, data, parts, hparts, -, hn, hrest⟩ := cons_iff.mp h
    exact (ih hrest).ge (hn.before.trans (hparts.precedes.trans
      ⟨Nat.le_trans hn.le_id (Nat.le_of_lt hn.id_lt), hn.text⟩))
  | cons_cons n _ ih =>
    obtain ⟨b', c, d, data, parts, hparts, harranged, hn, hrest⟩ := cons_iff.mp h
    exact .cons hparts harranged hn (ih hrest)

theorem mem (h : Laid ast a ns b) (hn : n ∈ ns) : Laid ast a [n] b :=
  h.sublist (List.singleton_sublist.mpr hn)

/-- A construct by itself. -/
theorem single_iff : Laid ast a [n] e ↔ ∃ b c d data ns, Laid ast b ns c ∧ data.Arranged ns ∧
    Allots ast a b c n data d ∧ d.Precedes e := by
  rw [cons_iff]
  constructor
  · rintro ⟨b, c, d, data, ns, h, harranged, hn, hrest⟩
    exact ⟨b, c, d, data, ns, h, harranged, hn, hrest.precedes⟩
  · rintro ⟨b, c, d, data, ns, h, harranged, hn, hrest⟩
    exact ⟨b, c, d, data, ns, h, harranged, hn, .nil hrest⟩

theorem mem_lt (h : Laid ast a ns b) (hn : n ∈ ns) : a.ids ≤ n ∧ n < b.ids := by
  obtain ⟨b', c, d, data, parts, hparts, -, hn, hd⟩ := single_iff.mp (h.mem hn)
  have h₁ := hn.before.ids
  have h₂ := hparts.precedes.ids
  have h₃ := hn.le_id
  have h₄ := hn.id_lt
  have h₅ := hd.ids
  omega

/-- A construct that is laid out, and what it consists of. -/
theorem of_data (h : Laid ast a [n] e) (hdata : ast.data? n = some data) :
    ∃ b c d ns, Laid ast b ns c ∧ data.Arranged ns ∧ Allots ast a b c n data d ∧ d.Precedes e := by
  obtain ⟨b, c, d, data', ns, hns, harranged, hn, hd⟩ := single_iff.mp h
  obtain rfl := Option.some.inj (hdata.symm.trans hn.found)
  exact ⟨b, c, d, ns, hns, harranged, hn, hd⟩

theorem part {k : Nat} (h : Laid ast a [n] e) (hdata : ast.data? n = some data)
    (hk : k ∈ data.parts) : Laid ast a [k] e ∧ k < n := by
  obtain ⟨b, c, d, ns, hns, harranged, hn, hd⟩ := h.of_data hdata
  have hk' : k ∈ ns := harranged.perm.mem_iff.mpr hk
  have hlt := (hns.mem_lt hk').2
  have hle := hn.le_id
  have hcd : c.Precedes d := ⟨Nat.le_trans hn.le_id (Nat.le_of_lt hn.id_lt), hn.text⟩
  exact ⟨((hns.mem hk').ge hn.before).le (hcd.trans hd), by omega⟩

/-- Two of several constructs are laid out one after the other. -/
theorem apart {k l : Nat} (h : Laid ast a ns c) (hk : k ∈ ns) (hl : l ∈ ns) (hne : k ≠ l) :
    ∃ b, (Laid ast a [k] b ∧ Laid ast b [l] c) ∨ (Laid ast a [l] b ∧ Laid ast b [k] c) := by
  induction ns generalizing a with
  | nil => cases hk
  | cons n ns ih =>
    obtain ⟨b, hn, hns⟩ := Laid.split (show Laid ast a ([n] ++ ns) c from h)
    rcases List.mem_cons.mp hk with rfl | hk'
    · rcases List.mem_cons.mp hl with rfl | hl'
      · exact absurd rfl hne
      · exact ⟨b, .inl ⟨hn, hns.mem hl'⟩⟩
    · rcases List.mem_cons.mp hl with rfl | hl'
      · exact ⟨b, .inr ⟨hn, hns.mem hk'⟩⟩
      · obtain ⟨d, hd⟩ := ih hns hk' hl'
        exact ⟨d, hd.imp (fun hd => ⟨hd.1.ge hn.precedes, hd.2⟩)
          fun hd => ⟨hd.1.ge hn.precedes, hd.2⟩⟩

theorem nodup (h : Laid ast a ns c) : ns.Nodup := by
  induction ns generalizing a with
  | nil => exact List.nodup_nil
  | cons n ns ih =>
    obtain ⟨b, hn, hns⟩ := Laid.split (show Laid ast a ([n] ++ ns) c from h)
    refine List.nodup_cons.mpr ⟨fun hmem => ?_, ih hns⟩
    have hlt := (hn.mem_lt (List.mem_singleton_self n)).2
    have hle := (hns.mem_lt hmem).1
    omega

/-- What is in a construct is laid out where the construct is. -/
theorem contains {x : NodeId} (h : Laid ast a [n] b) (hx : ast.Contains n x) :
    Laid ast a [x] b := by
  induction hx with
  | here => exact h
  | part hdata hk _ ih => exact ih (h.part hdata hk).1

/-- Nothing is in two constructs. -/
theorem disjoint {k l x : NodeId} (h : Laid ast a ns c) (hk : k ∈ ns) (hl : l ∈ ns) (hne : k ≠ l)
    (hkx : ast.Contains k x) : ¬ ast.Contains l x := by
  intro hlx
  obtain ⟨b, ⟨hb, hb'⟩ | ⟨hb, hb'⟩⟩ := h.apart hk hl hne
  · have hlt := ((hb.contains hkx).mem_lt (List.mem_singleton_self x)).2
    have hle := ((hb'.contains hlx).mem_lt (List.mem_singleton_self x)).1
    omega
  · have hlt := ((hb.contains hlx).mem_lt (List.mem_singleton_self x)).2
    have hle := ((hb'.contains hkx).mem_lt (List.mem_singleton_self x)).1
    omega

/-- What is laid out behind a construct is not in it. -/
theorem not_contains_behind {x y : NodeId} (h : Laid ast a [x] b) (h' : Laid ast b [y] c) :
    ¬ ast.Contains x y := by
  intro hin
  have hlt := ((h.contains hin).mem_lt (List.mem_singleton_self y)).2
  have hle := (h'.mem_lt (List.mem_singleton_self y)).1
  omega

/-- Two nodes in constructs that are laid out: one is in the other, or they are laid out one after
    the other.  By induction on the way down to the first one. -/
theorem nested_or_apart {k l x y : NodeId} (h : Laid ast a ns c) (hk : k ∈ ns) (hl : l ∈ ns)
    (hx : ast.Contains k x) (hy : ast.Contains l y) : ast.Contains x y ∨ ast.Contains y x ∨
      ∃ b, (Laid ast a [x] b ∧ Laid ast b [y] c) ∨ (Laid ast a [y] b ∧ Laid ast b [x] c) := by
  induction hx generalizing a ns c l with
  | here m =>
    by_cases hne : m = l
    · exact .inl (hne ▸ hy)
    · obtain ⟨b, hb⟩ := h.apart hk hl hne
      exact .inr (.inr ⟨b, hb.imp (fun hb => ⟨hb.1, hb.2.contains hy⟩)
        fun hb => ⟨hb.1.contains hy, hb.2⟩⟩)
  | @part m j x data hdata hj hx ih =>
    by_cases hne : m = l
    · subst hne
      cases hy with
      | here => exact .inr (.inl (.part hdata hj hx))
      | part hdata' hi hy =>
        obtain rfl := Option.some.inj (hdata.symm.trans hdata')
        obtain ⟨a', c', d, parts, hparts, harranged, hm, hd⟩ := (h.mem hk).of_data hdata
        have hcd : c'.Precedes c :=
          ParsePoint.Precedes.trans ⟨Nat.le_trans hm.le_id (Nat.le_of_lt hm.id_lt), hm.text⟩ hd
        refine (ih hparts (harranged.perm.mem_iff.mpr hj)
          (harranged.perm.mem_iff.mpr hi) hy).imp_right
          (Or.imp_right fun hapart => ?_)
        obtain ⟨b, hb⟩ := hapart
        exact ⟨b, hb.imp (fun hb => ⟨hb.1.ge hm.before, hb.2.le hcd⟩)
          fun hb => ⟨hb.1.ge hm.before, hb.2.le hcd⟩⟩
    · obtain ⟨b, hb⟩ := h.apart hk hl hne
      have hm : ast.Contains m x := .part hdata hj hx
      exact .inr (.inr ⟨b, hb.imp (fun hb => ⟨hb.1.contains hm, hb.2.contains hy⟩)
        fun hb => ⟨hb.1.contains hy, hb.2.contains hm⟩⟩)

/-- Constructs are laid out in a later arena as they were. -/
theorem later (h : Laid ast a ns b) (hast : ast.Extends ast') : Laid ast' a ns b := by
  induction h with
  | nil h => exact .nil h
  | cons _ harranged hn _ ih₁ ih₂ =>
    obtain ⟨data', halike, hn'⟩ := hn.later hast
    exact .cons ih₁ (halike.arranged harranged) hn' ih₂

end Laid

end ScriptAnalysis
