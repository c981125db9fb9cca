import ScriptAnalysis.Grammar.Expression
import ScriptAnalysis.Proofs.Ast.Laid
import ScriptAnalysis.Token.Scan

/-!
# Expressions as trees, and how they are printed

An `Expr` is the tree of an expression without closures, and `Expr.At` says that this tree stands in
an arena.  It is printed as words with parentheses around each operand that binds less tightly than
its place asks for (`Expr.words`).

A field that is called has to stand in parentheses, since a name after a dot takes the arguments
that follow it.  How tightly a callee has to bind is therefore a parameter of the printer.
-/

namespace ScriptAnalysis

/-- A kind of token and its text. -/
abbrev Word := TokenKind × String

/-- A keyword, a mark or an operator. -/
def mark (kind : TokenKind) : Word := (kind, kind.spelling.getD "")

/-- Words after an opening mark and before a closing one. -/
def enclosed (opening closing : TokenKind) (words : List Word) : List Word :=
  mark opening :: (words ++ [mark closing])

theorem enclosed_append (opening closing : TokenKind) (words rest : List Word) :
    enclosed opening closing words ++ rest = mark opening :: (words ++ mark closing :: rest) := by
  simp [enclosed]

/-! ### Names -/

/-- A name: a word that is no keyword. -/
structure Identifier where
  first : Char
  rest : List Char
  start : Scan.isWordStart first = true
  part : rest.all Scan.isWordPart = true
  free : TokenKind.ofWord (String.ofList (first :: rest)) = .ident

namespace Identifier

def text (name : Identifier) : String := String.ofList (name.first :: name.rest)

def word (name : Identifier) : Word := (.ident, name.text)

end Identifier

/-- The name of a class in an expression: a builtin type, or a path. -/
inductive ClassName where
  | builtin (type : TypeRef) (known : keywordType? (TokenKind.ofWord type.name) = some type)
  | path (first : Identifier) (rest : List Identifier)

namespace ClassName

def text : ClassName → String
  | builtin type _ => type.name
  | path first rest => rest.foldl (fun path name => path ++ "." ++ name.text) first.text

def words : ClassName → List Word
  | builtin type _ => [(.ofWord type.name, type.name)]
  | path first rest => first.word :: rest.flatMap fun name => [mark .dot, name.word]

end ClassName

/-! ### Literals -/

/-- One digit or more. -/
structure Digits where
  chars : List Char
  ne_nil : chars ≠ []
  digits : chars.all Char.isDigit = true

/-- A literal that can be written down. -/
inductive Constant where
  | int (value : Fin integerBound)
  | decimal (whole fraction : Digits)
  | str (text : String)
  | bool (value : Bool)
  | null

namespace Constant

def value : Constant → Literal
  | int value => .int value.val
  | decimal whole fraction => .decimal (String.ofList (whole.chars ++ '.' :: fraction.chars))
  | str text => .str text
  | bool value => .bool value
  | null => .null

/-- Writes a character of a string. -/
def quotedChar (c : Char) : List Char :=
  if c = '"' then ['\\', '"'] else if c = '\\' then ['\\', '\\']
  else if c = '\n' then ['\\', 'n'] else [c]

/-- A string in double quotes. -/
def quoted (text : String) : String :=
  String.ofList ('"' :: (text.toList.flatMap quotedChar ++ ['"']))

def word : Constant → Word
  | int value => (.intLiteral, value.val.repr)
  | decimal whole fraction =>
    (.decimalLiteral, String.ofList (whole.chars ++ '.' :: fraction.chars))
  | str text => (.stringLiteral, quoted text)
  | bool true => mark .trueKw
  | bool false => mark .falseKw
  | null => mark .nullKw

end Constant

/-! ### Operators -/

namespace BinaryOp

def kind : BinaryOp → TokenKind
  | or => .pipePipe
  | and => .ampAmp
  | eq => .equalEqual
  | notEq => .bangEqual
  | less => .less
  | lessEq => .lessEqual
  | greater => .greater
  | greaterEq => .greaterEqual
  | add => .plus
  | sub => .minus
  | mul => .star
  | div => .slash
  | mod => .percent

/-- How tightly an operator binds, from 1 to 6. -/
def level : BinaryOp → Nat
  | or => 1
  | and => 2
  | eq | notEq => 3
  | less | lessEq | greater | greaterEq => 4
  | add | sub => 5
  | mul | div | mod => 6

end BinaryOp

theorem BinaryOp.level_pos (op : BinaryOp) : 1 ≤ op.level := by
  cases op <;> decide

theorem BinaryOp.level_le (op : BinaryOp) : op.level ≤ 6 := by
  cases op <;> decide

def UnaryOp.kind : UnaryOp → TokenKind
  | not => .bang
  | negate => .minus

/-! ### Expressions -/

/-- An expression without closures. -/
inductive Expr where
  | identifier (name : Identifier)
  | literal (value : Constant)
  | listLiteral (items : List Expr)
  | binary (op : BinaryOp) (left right : Expr)
  | unary (op : UnaryOp) (operand : Expr)
  | call (callee : Expr) (args : List Expr)
  | methodCall (target : Expr) (name : Identifier) (args : List Expr)
  | field (target : Expr) (name : Identifier)
  | assign (name : Identifier) (value : Expr)
  | invokeNew (className : ClassName) (args : List Expr)

namespace Expr

/-- Induction into the operands, the callee or the target of an expression. -/
theorem operand_induction {motive : Expr → Prop}
    (identifier : ∀ name, motive (.identifier name)) (literal : ∀ value, motive (.literal value))
    (listLiteral : ∀ items, motive (.listLiteral items))
    (binary : ∀ op left right, motive left → motive right → motive (.binary op left right))
    (unary : ∀ op operand, motive operand → motive (.unary op operand))
    (call : ∀ callee args, motive callee → motive (.call callee args))
    (methodCall : ∀ target name args, motive target → motive (.methodCall target name args))
    (field : ∀ target name, motive target → motive (.field target name))
    (assign : ∀ name value, motive value → motive (.assign name value))
    (invokeNew : ∀ className args, motive (.invokeNew className args)) (e : Expr) : motive e :=
  match e with
  | .identifier name => identifier name
  | .literal value => literal value
  | .listLiteral items => listLiteral items
  | .binary op l r => binary op l r
      (operand_induction identifier literal listLiteral binary unary call methodCall field assign
        invokeNew l)
      (operand_induction identifier literal listLiteral binary unary call methodCall field assign
        invokeNew r)
  | .unary op e => unary op e (operand_induction identifier literal listLiteral binary unary call
      methodCall field assign invokeNew e)
  | .call f args => call f args (operand_induction identifier literal listLiteral binary unary call
      methodCall field assign invokeNew f)
  | .methodCall t name args => methodCall t name args (operand_induction identifier literal
      listLiteral binary unary call methodCall field assign invokeNew t)
  | .field t name => field t name (operand_induction identifier literal listLiteral binary unary
      call methodCall field assign invokeNew t)
  | .assign name v => assign name v (operand_induction identifier literal listLiteral binary unary
      call methodCall field assign invokeNew v)
  | .invokeNew className args => invokeNew className args

/-! ### In an arena -/

mutual

/-- The expression stands at a node. -/
def At (ast : Ast) : Expr → NodeId → Prop
  | .identifier name, id => ast.data? id = some (.identifier name.text)
  | .literal value, id => ast.data? id = some (.literal value.value)
  | .listLiteral items, id =>
    ∃ ids, ast.data? id = some (.listLiteral ids) ∧ AllAt ast items ids
  | .binary op left right, id =>
    ∃ l r, ast.data? id = some (.binary op l r) ∧ left.At ast l ∧ right.At ast r
  | .unary op operand, id => ∃ o, ast.data? id = some (.unary op o) ∧ operand.At ast o
  | .call callee args, id =>
    ∃ f ids, ast.data? id = some (.call f ids) ∧ callee.At ast f ∧ AllAt ast args ids
  | .methodCall target name args, id =>
    ∃ t ids, ast.data? id = some (.methodCall t name.text (some ids)) ∧ target.At ast t ∧
      AllAt ast args ids
  | .field target name, id =>
    ∃ t, ast.data? id = some (.methodCall t name.text none) ∧ target.At ast t
  | .assign name value, id => ∃ v, ast.data? id = some (.assign name.text v) ∧ value.At ast v
  | .invokeNew className args, id =>
    ∃ ids, ast.data? id = some (.invokeNew className.text ids) ∧ AllAt ast args ids

/-- The expressions stand at nodes, one each. -/
def AllAt (ast : Ast) : List Expr → List NodeId → Prop
  | [], ids => ids = []
  | e :: es, ids => ∃ id rest, ids = id :: rest ∧ e.At ast id ∧ AllAt ast es rest

end

mutual

/-- What stands in an arena stays there while nodes are added. -/
theorem At.extends {ast ast' : Ast} (h : ast.Extends ast') :
    ∀ {e : Expr} {id : NodeId}, e.At ast id → e.At ast' id
  | .identifier _, _, hat => h.same hat (by simp)
  | .literal _, _, hat => h.same hat (by simp)
  | .listLiteral _, _, ⟨ids, hdata, hitems⟩ =>
    ⟨ids, h.same hdata (by simp), AllAt.extends h hitems⟩
  | .binary _ _ _, _, ⟨l, r, hdata, hleft, hright⟩ =>
    ⟨l, r, h.same hdata (by simp), At.extends h hleft, At.extends h hright⟩
  | .unary _ _, _, ⟨o, hdata, hoperand⟩ => ⟨o, h.same hdata (by simp), At.extends h hoperand⟩
  | .call _ _, _, ⟨f, ids, hdata, hcallee, hargs⟩ =>
    ⟨f, ids, h.same hdata (by simp), At.extends h hcallee, AllAt.extends h hargs⟩
  | .methodCall _ _ _, _, ⟨t, ids, hdata, htarget, hargs⟩ =>
    ⟨t, ids, h.same hdata (by simp), At.extends h htarget, AllAt.extends h hargs⟩
  | .field _ _, _, ⟨t, hdata, htarget⟩ => ⟨t, h.same hdata (by simp), At.extends h htarget⟩
  | .assign _ _, _, ⟨v, hdata, hvalue⟩ => ⟨v, h.same hdata (by simp), At.extends h hvalue⟩
  | .invokeNew _ _, _, ⟨ids, hdata, hargs⟩ => ⟨ids, h.same hdata (by simp), AllAt.extends h hargs⟩

theorem AllAt.extends {ast ast' : Ast} (h : ast.Extends ast') :
    ∀ {es : List Expr} {ids : List NodeId}, AllAt ast es ids → AllAt ast' es ids
  | [], _, hids => hids
  | _ :: _, _, ⟨id, rest, hids, hat, hall⟩ =>
    ⟨id, rest, hids, At.extends h hat, AllAt.extends h hall⟩

end

theorem AllAt.concat {ast : Ast} {e : Expr} {id : NodeId} (he : e.At ast id) :
    ∀ {es : List Expr} {ids : List NodeId}, AllAt ast es ids → AllAt ast (es ++ [e]) (ids ++ [id])
  | [], _, rfl => ⟨id, [], rfl, he, rfl⟩
  | _ :: _, _, ⟨first, rest, hids, hat, hall⟩ =>
    ⟨first, rest ++ [id], by rw [hids]; rfl, hat, AllAt.concat he hall⟩

/-! ### In print -/

/-- How tightly the outermost operator of an expression binds.  Only an assignment binds less
    tightly than the binary operators. -/
def level : Expr → Nat
  | .assign _ _ => 0
  | .binary op _ _ => op.level
  | .unary _ _ => 7
  | .field _ _ => 8
  | _ => 9

/-- The words of an expression where one of at least this level is asked for. -/
def within (asked : Nat) (e : Expr) (words : List Word) : List Word :=
  if e.level < asked then enclosed .leftParen .rightParen words else words

theorem within_of_lt {asked : Nat} {e : Expr} (h : e.level < asked) (words : List Word) :
    e.within asked words = enclosed .leftParen .rightParen words := if_pos h

theorem within_of_le {asked : Nat} {e : Expr} (h : asked ≤ e.level) (words : List Word) :
    e.within asked words = words := if_neg (Nat.not_lt.mpr h)

/-- Only an expression of just this level stands without parentheses where its level is asked for
    and with them where the next one is. -/
theorem within_succ {asked : Nat} {e : Expr} (h : e.level ≠ asked) (words : List Word) :
    e.within asked words = e.within (asked + 1) words := by
  unfold within
  rcases Nat.lt_or_gt_of_ne h with hlt | hgt
  · rw [if_pos hlt, if_pos (Nat.lt_succ_of_lt hlt)]
  · rw [if_neg (Nat.not_lt_of_gt hgt), if_neg (Nat.not_lt.mpr hgt)]

mutual

/-- The words of an expression whose callees have at least the level `callee`. -/
def wordsFor (callee : Nat) : Expr → List Word
  | .identifier name => [name.word]
  | .literal value => [value.word]
  | .listLiteral items => enclosed .leftSquare .rightSquare (argsFor callee items)
  | .binary op left right =>
    within op.level left (left.wordsFor callee) ++
      mark op.kind :: within (op.level + 1) right (right.wordsFor callee)
  | .unary op operand => mark op.kind :: within 7 operand (operand.wordsFor callee)
  | .call f args =>
    within callee f (f.wordsFor callee) ++ enclosed .leftParen .rightParen (argsFor callee args)
  | .methodCall target name args =>
    within 8 target (target.wordsFor callee) ++
      mark .dot :: name.word :: enclosed .leftParen .rightParen (argsFor callee args)
  | .field target name => within 8 target (target.wordsFor callee) ++ [mark .dot, name.word]
  | .assign name value => name.word :: mark .equal :: value.wordsFor callee
  | .invokeNew className args =>
    mark .newKw ::
      (className.words ++ enclosed .leftParen .rightParen (argsFor callee args))

/-- The words of several expressions, with commas between them. -/
def argsFor (callee : Nat) : List Expr → List Word
  | [] => []
  | [e] => e.wordsFor callee
  | e :: es => e.wordsFor callee ++ mark .comma :: argsFor callee es

end

/-- The words of an expression that is read back: a field that is called stands in parentheses. -/
def words (e : Expr) : List Word := e.wordsFor 9

/-- The words of several expressions that are read back, with commas between them. -/
def argWords (es : List Expr) : List Word := argsFor 9 es

theorem words_binary (op : BinaryOp) (left right : Expr) : (binary op left right).words =
    within op.level left left.words ++ mark op.kind :: within (op.level + 1) right right.words :=
      rfl

theorem words_unary (op : UnaryOp) (operand : Expr) :
    (unary op operand).words = mark op.kind :: within 7 operand operand.words := rfl

theorem words_call (callee : Expr) (args : List Expr) : (call callee args).words =
    within 9 callee callee.words ++ enclosed .leftParen .rightParen (argWords args) := rfl

theorem words_methodCall (target : Expr) (name : Identifier) (args : List Expr) :
    (methodCall target name args).words = within 8 target target.words ++
      mark .dot :: name.word :: enclosed .leftParen .rightParen (argWords args) := rfl

theorem words_field (target : Expr) (name : Identifier) :
    (field target name).words = within 8 target target.words ++ [mark .dot, name.word] := rfl

theorem argWords_cons (e f : Expr) (es : List Expr) :
    argWords (e :: f :: es) = e.words ++ mark .comma :: argWords (f :: es) := rfl

/-- Operators of one level associate to the left. -/
example (a b c d : Constant) :
    (binary .sub (binary .sub (literal a) (literal b))
      (binary .sub (literal c) (unary .negate (literal d)))).words =
    [a.word, mark .minus, b.word, mark .minus, mark .leftParen, c.word, mark .minus, mark .minus,
      d.word, mark .rightParen] := rfl

/-! ### What an expression starts with -/

theorem startsExpression_literal (value : Constant) :
    startsExpression value.word.1 = true ∧ unaryOp? value.word.1 = none ∧
      value.word.1 ≠ .ident := by
  cases value with
  | bool value => cases value <;> exact ⟨rfl, rfl, TokenKind.noConfusion⟩
  | _ => exact ⟨rfl, rfl, TokenKind.noConfusion⟩

/-- With parentheses around it, if they are asked for, an expression starts as one. -/
theorem within_start (asked : Nat) {e : Expr}
    (h : ∃ w ws, e.words = w :: ws ∧ startsExpression w.1 = true ∧
      (8 ≤ e.level → unaryOp? w.1 = none)) :
    ∃ w ws, within asked e e.words = w :: ws ∧ startsExpression w.1 = true ∧
      (8 ≤ asked → unaryOp? w.1 = none) := by
  unfold within
  split
  · exact ⟨mark .leftParen, _, rfl, rfl, fun _ => rfl⟩
  · next hlevel =>
    obtain ⟨w, ws, heq, hstart, hunary⟩ := h
    exact ⟨w, ws, heq, hstart, fun hasked =>
      hunary (Nat.le_trans hasked (Nat.le_of_not_lt hlevel))⟩

/-- The first word of an expression is one that starts expressions, and only that of an operator
    before an operand is such an operator. -/
theorem words_start (e : Expr) : ∃ w ws, e.words = w :: ws ∧ startsExpression w.1 = true ∧
    (8 ≤ e.level → unaryOp? w.1 = none) := by
  induction e using operand_induction with
  | identifier name => exact ⟨name.word, [], rfl, rfl, fun _ => rfl⟩
  | literal value =>
    obtain ⟨hstart, hunary, -⟩ := startsExpression_literal value
    exact ⟨value.word, [], rfl, hstart, fun _ => hunary⟩
  | listLiteral items => exact ⟨mark .leftSquare, _, rfl, rfl, fun _ => rfl⟩
  | binary op left right ihleft ihright =>
    obtain ⟨w, ws, heq, hstart, -⟩ := within_start op.level ihleft
    refine ⟨w, ws ++ mark op.kind :: within (op.level + 1) right right.words, ?_, hstart, ?_⟩
    · rw [words_binary, heq]
      rfl
    · intro hlevel
      exact absurd (Nat.le_trans hlevel op.level_le) (by decide)
  | unary op operand ih =>
    refine ⟨mark op.kind, _, rfl, by cases op <;> rfl, fun hlevel => ?_⟩
    exact absurd hlevel (by decide : ¬ 8 ≤ 7)
  | call callee args ih =>
    obtain ⟨w, ws, heq, hstart, hunary⟩ := within_start 9 ih
    refine ⟨w, ws ++ enclosed .leftParen .rightParen (argWords args), ?_, hstart,
      fun _ => hunary (by decide)⟩
    rw [words_call, heq]
    rfl
  | methodCall target name args ih =>
    obtain ⟨w, ws, heq, hstart, hunary⟩ := within_start 8 ih
    refine ⟨w, ws ++ mark .dot :: name.word :: enclosed .leftParen .rightParen (argWords args), ?_,
      hstart, fun _ => hunary (by decide)⟩
    rw [words_methodCall, heq]
    rfl
  | field target name ih =>
    obtain ⟨w, ws, heq, hstart, hunary⟩ := within_start 8 ih
    refine ⟨w, ws ++ [mark .dot, name.word], ?_, hstart, fun _ => hunary (by decide)⟩
    rw [words_field, heq]
    rfl
  | assign name value ih => exact ⟨name.word, _, rfl, rfl, fun _ => rfl⟩
  | invokeNew className args => exact ⟨mark .newKw, _, rfl, rfl, fun _ => rfl⟩

theorem argWords_start (e : Expr) (es : List Expr) :
    ∃ w ws, argWords (e :: es) = w :: ws ∧ startsExpression w.1 = true := by
  obtain ⟨w, ws, heq, hstart, -⟩ := e.words_start
  cases es with
  | nil => exact ⟨w, ws, heq, hstart⟩
  | cons f es =>
    refine ⟨w, ws ++ mark .comma :: argWords (f :: es), ?_, hstart⟩
    rw [argWords_cons, heq]
    rfl

/-- The words start as an assignment does. -/
def Assigns (ws : List Word) : Prop :=
  ∃ v w more, ws = v :: w :: more ∧ v.1 = .ident ∧ w.1 = .equal

theorem not_assigns_cons {v : Word} (hv : v.1 ≠ .ident) (ws : List Word) : ¬ Assigns (v :: ws) := by
  rintro ⟨u, w, more, heq, hu, -⟩
  exact hv ((List.cons.inj heq).1 ▸ hu)

theorem not_assigns_within {asked : Nat} {e : Expr} {ws : List Word} (hasked : 1 ≤ asked)
    (h : 1 ≤ e.level → ¬ Assigns (e.words ++ ws)) : ¬ Assigns (within asked e e.words ++ ws) := by
  unfold within
  split
  · exact not_assigns_cons TokenKind.noConfusion _
  · next hlevel => exact h (Nat.le_trans hasked (Nat.le_of_not_lt hlevel))

/-- Only an assignment starts as one. -/
theorem not_assigns_words (e : Expr) (he : 1 ≤ e.level) {w : Word} (hw : w.1 ≠ .equal)
    (ws : List Word) : ¬ Assigns (e.words ++ w :: ws) := by
  induction e using operand_induction generalizing w ws with
  | identifier name =>
    rintro ⟨u, v, more, heq, -, hv⟩
    exact hw ((List.cons.inj (List.cons.inj heq).2).1 ▸ hv)
  | literal value => exact not_assigns_cons (startsExpression_literal value).2.2 _
  | listLiteral items => exact not_assigns_cons TokenKind.noConfusion _
  | binary op left right ihleft ihright =>
    have hop : op.kind ≠ .equal := by cases op <;> decide
    rw [words_binary, List.append_assoc]
    exact not_assigns_within he fun hleft => ihleft hleft hop _
  | unary op operand ih => exact not_assigns_cons (by cases op <;> decide) _
  | call callee args ih =>
    rw [words_call, List.append_assoc]
    exact not_assigns_within (by decide) fun hcallee => ih hcallee TokenKind.noConfusion _
  | methodCall target name args ih =>
    rw [words_methodCall, List.append_assoc]
    exact not_assigns_within (by decide) fun htarget => ih htarget TokenKind.noConfusion _
  | field target name ih =>
    rw [words_field, List.append_assoc]
    exact not_assigns_within (by decide) fun htarget => ih htarget TokenKind.noConfusion _
  | assign name value ih => exact absurd he (by decide : ¬ 1 ≤ 0)
  | invokeNew className args => exact not_assigns_cons TokenKind.noConfusion _

end Expr

/-- The words in a row, with a blank between them. -/
def spaced : List Word → List Char
  | [] => []
  | [w] => w.2.toList
  | w :: ws => w.2.toList ++ ' ' :: spaced ws

end ScriptAnalysis
