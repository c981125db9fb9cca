import ScriptAnalysis.Ast.Basic

/-!
# Kinds of the inner nodes of a tree

The kind of an inner node is decided once, by the meaning of the node that the construct
left in the arena (`NodeKind.of?`).
-/

namespace ScriptAnalysis

inductive NodeKind where
  -- statements
  | importStmt | classDecl | block | exprStmt | varDecl | funDecl | ifStmt | whileStmt
  | returnStmt
  -- expressions
  | identifier | literal | listLiteral | binaryExpr | unaryExpr | callExpr | methodCallExpr
  | assign | closure | invokeNew | varDeclExpr | funDeclExpr
  -- names
  | packageName | className | functionName | methodName | parameterName | variableName
  | fieldName
  -- types
  | classType | builtinType
  /-- A group without a meaning of its own, such as a list of parameters. -/
  | group
deriving DecidableEq, Repr, Inhabited

namespace NodeKind

/-- Every kind, in the order of the declaration. -/
def all : List NodeKind :=
  [importStmt, classDecl, block, exprStmt, varDecl, funDecl, ifStmt, whileStmt, returnStmt,
   identifier, literal, listLiteral, binaryExpr, unaryExpr, callExpr, methodCallExpr,
   assign, closure, invokeNew, varDeclExpr, funDeclExpr,
   packageName, className, functionName, methodName, parameterName, variableName, fieldName,
   classType, builtinType, group]

def ofName : NameKind → NodeKind
  | .package => packageName
  | .ofClass => className
  | .function => functionName
  | .method => methodName
  | .parameter => parameterName
  | .variable => variableName
  | .field => fieldName

/-- The kind that a meaning gives; a statement without effect gives none. -/
def of? : NodeData → Option NodeKind
  | .classDecl _ => some classDecl
  | .importDecl _ _ => some importStmt
  | .block _ => some block
  | .varDecl _ => some varDecl
  | .funDecl _ => some funDecl
  | .exprStmt _ => some exprStmt
  | .ifStmt _ _ _ => some ifStmt
  | .whileStmt _ _ => some whileStmt
  | .returnStmt _ => some returnStmt
  | .noop => none
  | .identifier _ => some identifier
  | .literal _ => some literal
  | .listLiteral _ => some listLiteral
  | .binary _ _ _ => some binaryExpr
  | .unary _ _ => some unaryExpr
  | .call _ _ => some callExpr
  | .methodCall _ _ _ => some methodCallExpr
  | .assign _ _ => some assign
  | .closure _ _ _ => some closure
  | .invokeNew _ _ => some invokeNew
  | .varDeclExpr _ => some varDeclExpr
  | .funDeclExpr _ => some funDeclExpr
  | .name _ kind => some (ofName kind)
  | .type (.named _) => some classType
  | .type _ => some builtinType

def isName : NodeKind → Bool
  | packageName | className | functionName | methodName | parameterName | variableName
  | fieldName => true
  | _ => false

/-- The text of a kind, in keys and outlines. -/
def text : NodeKind → String
  | importStmt => "IMPORT_STMT"
  | classDecl => "CLASS_DECL"
  | block => "BLOCK"
  | exprStmt => "EXPR_STMT"
  | varDecl => "VAR_DECL"
  | funDecl => "FUN_DECL"
  | ifStmt => "IF_STMT"
  | whileStmt => "WHILE_STMT"
  | returnStmt => "RETURN_STMT"
  | identifier => "IDENTIFIER"
  | literal => "LITERAL"
  | listLiteral => "LIST_LITERAL"
  | binaryExpr => "BINARY_EXPR"
  | unaryExpr => "PREFIX_UNARY_EXPR"
  | callExpr => "CALL_EXPR"
  | methodCallExpr => "METHOD_CALL_EXPR"
  | assign => "VAR_ASSIGN"
  | closure => "CLOSURE"
  | invokeNew => "INVOKE_NEW"
  | varDeclExpr => "VAR_DECL_EXPR"
  | funDeclExpr => "FUN_DECL_EXPR"
  | packageName => "PACKAGE"
  | className => "CLASS"
  | functionName => "FUNCTION"
  | methodName => "METHOD"
  | parameterName => "PARAMETER"
  | variableName => "VARIABLE"
  | fieldName => "FIELD"
  | classType => "CLASS_TYPE"
  | builtinType => "BUILT_IN_TYPE"
  | group => "LIST"

def ofText? (text : String) : Option NodeKind := all.find? fun kind => kind.text == text

theorem ofText?_text (kind : NodeKind) : ofText? kind.text = some kind := by
  cases kind <;> rfl

theorem text_injective {a b : NodeKind} (h : a.text = b.text) : a = b := by
  have same := ofText?_text a
  rw [h, ofText?_text b] at same
  exact (Option.some.inj same).symm

end NodeKind

end ScriptAnalysis
