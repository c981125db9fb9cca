import ScriptAnalysis.Text.Span

/-!
# The meaning of a script as a graph of nodes

A parse leaves one `Node` per construct in an arena, the `Ast`.  Nodes name their children
by their index in the arena.  The arena only grows: a node that an abandoned attempt
allocated stays, unreferenced, so ids are handed out in the order of allocation.
-/

namespace ScriptAnalysis

abbrev NodeId := Nat

/-- A declared or evident type. -/
inductive TypeRef where
  /-- No declared type. -/
  | any
  | boolean | int | long | double | decimal | string | list | map
  /-- A class, by its name as written. -/
  | named (path : String)
deriving DecidableEq, Repr, Inhabited

namespace TypeRef

def isBuiltin : TypeRef → Bool
  | named _ => false
  | _ => true

def isNumeric : TypeRef → Bool
  | int | long | double | decimal => true
  | _ => false

/-- The type as a script writes it. -/
def name : TypeRef → String
  | any => "def"
  | boolean => "boolean"
  | int => "int"
  | long => "long"
  | double => "double"
  | decimal => "Decimal"
  | string => "String"
  | list => "List"
  | map => "Map"
  | named path => path

end TypeRef

/-- What a declared name introduces. -/
inductive NameKind where
  | package | ofClass | function | method | parameter | variable | field
deriving DecidableEq, Repr

/-- Where a declared variable lives. -/
inductive VarRole where
  | localVar | parameter | field
deriving DecidableEq, Repr

inductive BinaryOp where
  | or | and | eq | notEq | less | lessEq | greater | greaterEq
  | add | sub | mul | div | mod
deriving DecidableEq, Repr

namespace BinaryOp

/-- Operators whose operands have to be numbers.  `+` also joins strings. -/
def isArithmetic : BinaryOp → Bool
  | sub | mul | div | mod => true
  | _ => false

/-- The operator as a script writes it. -/
def symbol : BinaryOp → String
  | or => "||"
  | and => "&&"
  | eq => "=="
  | notEq => "!="
  | less => "<"
  | lessEq => "<="
  | greater => ">"
  | greaterEq => ">="
  | add => "+"
  | sub => "-"
  | mul => "*"
  | div => "/"
  | mod => "%"

end BinaryOp

inductive UnaryOp where
  | not | negate
deriving DecidableEq, Repr

/-- The value of a literal.  A decimal keeps its digits. -/
inductive Literal where
  | int (value : Int)
  | decimal (digits : String)
  | str (text : String)
  | bool (value : Bool)
  | null
deriving DecidableEq, Repr

/-- The type of a literal; `null` fits every type. -/
def Literal.type : Literal → TypeRef
  | int _ => .int
  | decimal _ => .decimal
  | str _ => .string
  | bool _ => .boolean
  | null => .any

/-- A declared class, or the class that a whole script stands for. -/
structure ClassDecl where
  /-- Empty for the class of a script, and where the name is missing. -/
  name : String := ""
  package : Option String := none
  /-- The base class as written. -/
  base : Option String := none
  /-- `NodeData.varDecl` nodes. -/
  fields : List NodeId := []
  /-- `NodeData.funDecl` nodes. -/
  methods : List NodeId := []
  inner : List NodeId := []
  /-- `NodeData.importDecl` nodes of a script. -/
  imports : List NodeId := []
  /-- The block of the top-level statements of a script. -/
  body : Option NodeId := none
  isScript : Bool := false
deriving DecidableEq, Repr

structure VarDecl where
  name : String
  nameOffset : Nat
  type : TypeRef
  init : Option NodeId
  role : VarRole
deriving DecidableEq, Repr

structure FunDecl where
  name : String
  nameOffset : Nat
  returnType : TypeRef
  /-- `NodeData.varDecl` nodes. -/
  params : List NodeId
  body : NodeId
  isMethod : Bool
deriving DecidableEq, Repr

/-- What a node means. -/
inductive NodeData where
  -- statements
  | classDecl (decl : ClassDecl)
  | importDecl (path : String) (rename : Option String)
  | block (stmts : List NodeId)
  /-- The statement around a `varDeclExpr`. -/
  | varDecl (decl : NodeId)
  /-- The statement around a `funDeclExpr`. -/
  | funDecl (decl : NodeId)
  | exprStmt (expr : NodeId)
  | ifStmt (cond thenBranch : NodeId) (elseBranch : Option NodeId)
  | whileStmt (cond body : NodeId)
  | returnStmt (value : Option NodeId)
  | noop
  -- expressions
  | identifier (name : String)
  | literal (value : Literal)
  | listLiteral (items : List NodeId)
  | binary (op : BinaryOp) (left right : NodeId)
  | unary (op : UnaryOp) (operand : NodeId)
  | call (callee : NodeId) (args : List NodeId)
  /-- A call of a method, or of a field without arguments. -/
  | methodCall (target : NodeId) (name : String) (args : Option (List NodeId))
  | assign (name : String) (value : NodeId)
  /-- Braces with a body.  `isBlock` tells that they turned out to be a plain block. -/
  | closure (params : List NodeId) (body : NodeId) (isBlock : Bool)
  | invokeNew (className : String) (args : List NodeId)
  | varDeclExpr (decl : VarDecl)
  | funDeclExpr (decl : FunDecl)
  -- names and types
  | name (text : String) (kind : NameKind)
  | type (type : TypeRef)
deriving DecidableEq, Repr

/-- A node: what it means and where it stands. -/
structure Node where
  data : NodeData
  span : Span
deriving DecidableEq, Repr

/-- The arena of the nodes of one parse. -/
structure Ast where
  nodes : Array Node := #[]
deriving DecidableEq, Repr, Inhabited

namespace Ast

def empty : Ast := {}

def size (ast : Ast) : Nat := ast.nodes.size

def alloc (ast : Ast) (data : NodeData) (span : Span) : NodeId × Ast :=
  (ast.nodes.size, ⟨ast.nodes.push ⟨data, span⟩⟩)

def node? (ast : Ast) (id : NodeId) : Option Node := ast.nodes[id]?

def data? (ast : Ast) (id : NodeId) : Option NodeData := (ast.node? id).map Node.data

/-- The span of a node, empty at the start of the text for an id without a node. -/
def span (ast : Ast) (id : NodeId) : Span := ((ast.node? id).map Node.span).getD (.point 0)

def modify (ast : Ast) (id : NodeId) (f : Node → Node) : Ast := ⟨ast.nodes.modify id f⟩

def classDecl? (ast : Ast) (id : NodeId) : Option ClassDecl :=
  match ast.data? id with
  | some (.classDecl decl) => some decl
  | _ => none

/-- Follows at most `depth` statements around a declaration of a variable. -/
def varDeclWithin (ast : Ast) : Nat → NodeId → Option VarDecl
  | 0, _ => none
  | depth + 1, id =>
    match ast.data? id with
    | some (.varDeclExpr decl) => some decl
    | some (.varDecl decl) => ast.varDeclWithin depth decl
    | _ => none

/-- The variable declared by a node: the declaration itself or a statement around it. -/
def varDecl? (ast : Ast) (id : NodeId) : Option VarDecl := ast.varDeclWithin ast.size id

/-- Follows at most `depth` statements around a declaration of a function. -/
def funDeclWithin (ast : Ast) : Nat → NodeId → Option FunDecl
  | 0, _ => none
  | depth + 1, id =>
    match ast.data? id with
    | some (.funDeclExpr decl) => some decl
    | some (.funDecl decl) => ast.funDeclWithin depth decl
    | _ => none

/-- The function declared by a node: the declaration itself or a statement around it. -/
def funDecl? (ast : Ast) (id : NodeId) : Option FunDecl := ast.funDeclWithin ast.size id

end Ast

end ScriptAnalysis
