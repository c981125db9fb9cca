import ScriptAnalysis.Token.Basic
import Mathlib.Computability.Language
import Mathlib.Order.CompletePartialOrder

/-!
# The grammar of scripts

The grammar on paper, over the kinds of the tokens that are no trivia.  `Symbol.form` has one form
for each construct, and `Derives` says which words a form stands for.  Nothing here knows of the
productions; they are measured against it.

A form is also a language, and the operators of forms are those of the algebra of languages, so
that words can be put together without a word about where they are cut.
-/

namespace ScriptAnalysis

open Computability

/-- The constructs of a script. -/
inductive Symbol where
  | script | path | aClass | stmt | funDecl | varDecl | param | type | expr | postfixed | primary
deriving DecidableEq, Repr

/-- A form of words, from tokens and constructs. -/
inductive Form where
  | empty
  /-- A token of one of these kinds. -/
  | oneOf (kinds : List TokenKind)
  | ref (symbol : Symbol)
  | andThen (first second : Form)
  | either (first second : Form)
  /-- Any number of words, one after the other. -/
  | many (form : Form)
deriving DecidableEq, Repr

namespace Form

def token (kind : TokenKind) : Form := oneOf [kind]

/-- One form after the other. -/
def sequence : List Form → Form
  | [] => empty
  | [form] => form
  | form :: forms => andThen form (sequence forms)

/-- One of these forms. -/
def choice : List Form → Form
  | [] => oneOf []
  | [form] => form
  | form :: forms => either form (choice forms)

def optional (form : Form) : Form := either empty form

/-- One word or more, with commas between them. -/
def separated (form : Form) : Form := sequence [form, many (sequence [token .comma, form])]

end Form

open Form

/-- The operators between two operands. -/
def binaryKinds : List TokenKind :=
  [.pipePipe, .ampAmp, .equalEqual, .bangEqual, .less, .lessEqual, .greater, .greaterEqual,
   .plus, .minus, .star, .slash, .percent]

def typeKinds : List TokenKind :=
  [.defKw, .varKw, .booleanType, .intType, .longType, .doubleType, .decimalType, .stringType,
   .listType, .mapType]

def literalKinds : List TokenKind :=
  [.intLiteral, .decimalLiteral, .stringLiteral, .trueKw, .falseKw, .nullKw]

namespace Form

/-- Expressions with commas between them, or none, in brackets of some kind. -/
def arguments (opening closing : TokenKind) : Form :=
  sequence [token opening, optional (separated (ref .expr)), token closing]

/-- Signs and negations before a postfix expression. -/
def operand : Form := sequence [many (oneOf [.bang, .minus]), ref .postfixed]

/-- What may follow a primary expression. -/
def suffix : Form := choice [
  arguments .leftParen .rightParen,
  sequence [token .dot, token .ident],
  sequence [token .dot, token .ident, arguments .leftParen .rightParen]]

/-- A declared name, and its initial value, if it has one. -/
def declared : Form := sequence [token .ident, optional (sequence [token .equal, ref .expr])]

def ifStmt : Form :=
  sequence [token .ifKw, token .leftParen, ref .expr, token .rightParen, ref .stmt,
    optional (sequence [token .elseKw, ref .stmt])]

def whileStmt : Form :=
  sequence [token .whileKw, token .leftParen, ref .expr, token .rightParen, ref .stmt]

def returnStmt : Form := sequence [token .returnKw, optional (ref .expr)]

/-- The statements that a semicolon may end. -/
def endable : Form := choice [ifStmt, whileStmt, returnStmt, ref .funDecl, ref .varDecl, ref .expr]

def importDecl : Form :=
  sequence [token .importKw, ref .path, optional (sequence [token .asKw, token .ident]),
    optional (token .semicolon)]

/-- What stands in the braces of a class. -/
def member : Form := choice [
  ref .aClass,
  token .semicolon,
  ref .funDecl,
  sequence [ref .varDecl, optional (token .semicolon)]]

/-- Parameters before an arrow. -/
def closureParams : Form := sequence [separated (ref .param), token .arrow]

end Form

/-- The form of each construct. -/
def Symbol.form : Symbol → Form
  | script => sequence [
      optional (sequence [token .packageKw, ref path, optional (token .semicolon)]),
      many (choice [importDecl, ref aClass, ref stmt])]
  | path => sequence [token .ident, many (sequence [token .dot, token .ident])]
  | aClass => sequence [
      token .classKw, token .ident, optional (sequence [token .extendsKw, ref type]),
      token .leftBrace,
      many member,
      token .rightBrace]
  | stmt => choice [token .semicolon, sequence [endable, optional (token .semicolon)]]
  | funDecl => sequence [
      ref type, token .ident,
      token .leftParen, optional (separated (ref param)), token .rightParen,
      token .leftBrace, many (ref stmt), token .rightBrace]
  | varDecl => sequence [ref type, declared]
  | param => sequence [optional (ref type), declared]
  | type => choice [oneOf typeKinds, ref path]
  | expr => choice [
      sequence [token .ident, token .equal, ref expr],
      sequence [operand, many (sequence [oneOf binaryKinds, operand])]]
  | postfixed => sequence [ref primary, many suffix]
  | primary => choice [
      oneOf literalKinds,
      token .ident,
      sequence [token .leftParen, ref expr, token .rightParen],
      arguments .leftSquare .rightSquare,
      sequence [token .leftBrace, optional closureParams, many (ref stmt), token .rightBrace],
      sequence [token .newKw, ref type, arguments .leftParen .rightParen]]

/-- The words that a form stands for. -/
inductive Derives : Form → List TokenKind → Prop
  | empty : Derives .empty []
  | oneOf {kinds : List TokenKind} {kind : TokenKind} (h : kind ∈ kinds) :
      Derives (.oneOf kinds) [kind]
  | ref {symbol : Symbol} {w : List TokenKind} (h : Derives symbol.form w) :
      Derives (.ref symbol) w
  | andThen {f g : Form} {u v : List TokenKind} (hf : Derives f u) (hg : Derives g v) :
      Derives (.andThen f g) (u ++ v)
  | first {f : Form} (g : Form) {w : List TokenKind} (h : Derives f w) : Derives (.either f g) w
  | second (f : Form) {g : Form} {w : List TokenKind} (h : Derives g w) : Derives (.either f g) w
  | none (f : Form) : Derives (.many f) []
  | more {f : Form} {u v : List TokenKind} (hf : Derives f u) (hmany : Derives (.many f) v) :
      Derives (.many f) (u ++ v)

/-- The kinds of tokens that a form names itself. -/
def Form.kinds : Form → List TokenKind
  | .empty => []
  | .oneOf kinds => kinds
  | .ref _ => []
  | .andThen f g => f.kinds ++ g.kinds
  | .either f g => f.kinds ++ g.kinds
  | .many f => f.kinds

/-- By induction on the derivation. -/
theorem Derives.mem_kinds {f : Form} {w : List TokenKind} {kind : TokenKind} (h : Derives f w)
    (hkind : kind ∈ w) : kind ∈ f.kinds ∨ ∃ symbol : Symbol, kind ∈ symbol.form.kinds := by
  induction h with
  | empty => cases hkind
  | oneOf hmem =>
    obtain rfl := List.mem_singleton.mp hkind
    exact .inl hmem
  | ref _ ih => exact .inr ((ih hkind).elim (fun h => ⟨_, h⟩) id)
  | andThen _ _ ihf ihg =>
    rcases List.mem_append.mp hkind with hkind | hkind
    · exact (ihf hkind).imp_left (List.mem_append_left _)
    · exact (ihg hkind).imp_left (List.mem_append_right _)
  | first _ _ ih => exact (ih hkind).imp_left (List.mem_append_left _)
  | second _ _ ih => exact (ih hkind).imp_left (List.mem_append_right _)
  | none => cases hkind
  | more _ _ ihf ihmany =>
    rcases List.mem_append.mp hkind with hkind | hkind
    · exact ihf hkind
    · exact ihmany hkind

/-- The end of the text is no part of a construct. -/
theorem Derives.eof_not_mem {symbol : Symbol} {w : List TokenKind} (h : Derives (.ref symbol) w) :
    .eof ∉ w := by
  intro hmem
  rcases h.mem_kinds hmem with hkind | ⟨symbol, hkind⟩
  · cases hkind
  · revert hkind
    cases symbol <;> decide

/-- The language of a form. -/
def Form.language (f : Form) : Language TokenKind := {w | Derives f w}

namespace Form

variable {f g : Form} {w : List TokenKind}

theorem mem_language : w ∈ f.language ↔ Derives f w := Iff.rfl

@[simp] theorem language_empty : empty.language = 1 := by
  ext w
  rw [mem_language, Language.mem_one]
  constructor
  · intro h
    cases h
    rfl
  · rintro rfl
    exact .empty

theorem language_ref (symbol : Symbol) : (ref symbol).language = symbol.form.language := by
  ext w
  rw [mem_language, mem_language]
  constructor
  · intro h
    cases h with
    | ref h => exact h
  · exact .ref

@[simp] theorem language_andThen : (andThen f g).language = f.language * g.language := by
  ext w
  rw [mem_language, Language.mem_mul]
  constructor
  · intro h
    cases h with
    | andThen hf hg => exact ⟨_, hf, _, hg, rfl⟩
  · rintro ⟨u, hu, v, hv, rfl⟩
    exact .andThen hu hv

@[simp] theorem language_either : (either f g).language = f.language + g.language := by
  ext w
  rw [mem_language, Language.mem_add]
  constructor
  · intro h
    cases h with
    | first _ h => exact .inl h
    | second _ h => exact .inr h
  · rintro (h | h)
    · exact .first g h
    · exact .second f h

@[simp] theorem language_many : (many f).language = f.language∗ := by
  ext w
  rw [mem_language, Language.mem_kstar]
  constructor
  · intro h
    generalize hform : many f = form at h
    induction h with
    | none => exact ⟨[], rfl, by simp⟩
    | more hf hmany _ ih =>
      cases hform
      obtain ⟨words, rfl, hwords⟩ := ih rfl
      refine ⟨_ :: words, rfl, ?_⟩
      exact List.forall_mem_cons.mpr ⟨hf, hwords⟩
    | _ => cases hform
  · rintro ⟨words, rfl, hwords⟩
    induction words with
    | nil => exact .none f
    | cons u words ih =>
      obtain ⟨hu, hrest⟩ := List.forall_mem_cons.mp hwords
      exact .more hu (ih hrest)

@[simp] theorem language_sequence_cons (forms : List Form) :
    (sequence (f :: g :: forms)).language = f.language * (sequence (g :: forms)).language :=
  language_andThen

@[simp] theorem language_sequence_singleton : (sequence [f]).language = f.language := rfl

@[simp] theorem language_choice_cons (forms : List Form) :
    (choice (f :: g :: forms)).language = f.language + (choice (g :: forms)).language :=
  language_either

@[simp] theorem language_choice_singleton : (choice [f]).language = f.language := rfl

@[simp] theorem language_optional : (optional f).language = 1 + f.language := by
  unfold optional
  rw [language_either, language_empty]

@[simp] theorem language_separated : (separated f).language =
    f.language * ((token .comma).language * f.language)∗ := by
  unfold separated
  simp only [language_sequence_cons, language_sequence_singleton, language_many]

theorem language_le_choice {forms : List Form} (h : f ∈ forms) :
    f.language ≤ (choice forms).language := by
  induction forms with
  | nil => cases h
  | cons g forms ih =>
    cases forms with
    | nil =>
      obtain rfl := List.mem_singleton.mp h
      exact le_rfl
    | cons g' forms =>
      rw [language_choice_cons]
      rcases List.mem_cons.mp h with rfl | h
      · exact le_add_right le_rfl
      · exact le_add_left (ih h)

/-- The language of a construct holds that of each of its alternatives. -/
theorem language_le_ref {symbol : Symbol} {forms : List Form} (hform : symbol.form = choice forms)
    (h : f ∈ forms) : f.language ≤ (ref symbol).language := by
  rw [language_ref, hform]
  exact language_le_choice h

theorem le_mul_kstar (a b : Language TokenKind) : a ≤ a * b∗ :=
  calc a = a * 1 := (mul_one a).symm
    _ ≤ a * b∗ := mul_le_mul_right one_le_kstar a

theorem mul_kstar_mul_le (a b : Language TokenKind) : a * b∗ * b ≤ a * b∗ := by
  rw [mul_assoc]
  exact mul_le_mul_right kstar_mul_le_kstar a

/-- Items with separators between them. -/
theorem kstar_slide (a b : Language TokenKind) : (a * b)∗ * a ≤ a * (b * a)∗ := by
  refine kstar_mul_le (le_mul_kstar a _) ?_
  calc a * b * (a * (b * a)∗) = a * (b * a * (b * a)∗) := by simp only [mul_assoc]
    _ ≤ a * (b * a)∗ := mul_le_mul_right mul_kstar_le_kstar a

/-! ### Words that are not empty -/

/-- Whether a form stands for the empty word.  Of the constructs, only a script may be empty. -/
def nullable : Form → Bool
  | empty => true
  | oneOf _ => false
  | ref symbol => symbol == .script
  | andThen f g => f.nullable && g.nullable
  | either f g => f.nullable || g.nullable
  | many _ => true

theorem nullable_form {symbol : Symbol} (h : symbol.form.nullable = true) : symbol = .script := by
  cases symbol with
  | script => rfl
  | _ => cases h

/-- By induction on the derivation. -/
theorem nil_not_mem_language (hf : f.nullable = false) : [] ∉ f.language := by
  intro h
  rw [mem_language] at h
  generalize hw : ([] : List TokenKind) = w at h
  suffices hnullable : f.nullable = true by simp [hf] at hnullable
  clear hf
  induction h with
  | empty => rfl
  | oneOf _ => cases hw
  | ref _ ih => simp [nullable, nullable_form (ih hw)]
  | andThen _ _ ihf ihg =>
    obtain ⟨rfl, rfl⟩ := List.append_eq_nil_iff.mp hw.symm
    simp [nullable, ihf rfl, ihg rfl]
  | first _ _ ih => simp [nullable, ih hw]
  | second _ _ ih => simp [nullable, ih hw]
  | none => rfl
  | more => rfl

end Form

end ScriptAnalysis
