import ScriptAnalysis.Text.Span

/-!
# Tokens of a script

A token is a kind and the span it was read from.  Blanks, line
ends and comments are tokens as well (*trivia*), so that the tokens of a text cover every
byte of it; a zero-width token of kind `eof` ends the list.
-/

namespace ScriptAnalysis

inductive TokenKind where
  -- trivia
  | whitespace | newline | lineComment | blockComment
  -- names and literals
  | ident | intLiteral | decimalLiteral | stringLiteral
  -- keywords
  | packageKw | importKw | asKw | classKw | extendsKw | defKw | varKw | ifKw | elseKw
  | whileKw | returnKw | newKw | trueKw | falseKw | nullKw
  -- names of the builtin types
  | booleanType | intType | longType | doubleType | decimalType | stringType | listType
  | mapType
  -- punctuation
  | leftParen | rightParen | leftBrace | rightBrace | leftSquare | rightSquare
  | comma | semicolon | dot | colon | question | arrow
  -- operators
  | equal | equalEqual | bangEqual | bang | less | lessEqual | greater | greaterEqual
  | ampAmp | pipePipe | plus | minus | star | slash | percent
  -- unrecognised input, and the end of the text
  | error | eof
deriving DecidableEq, Repr, Inhabited

namespace TokenKind

/-- Every kind, in the order of the declaration. -/
def all : List TokenKind :=
  [whitespace, newline, lineComment, blockComment,
   ident, intLiteral, decimalLiteral, stringLiteral,
   packageKw, importKw, asKw, classKw, extendsKw, defKw, varKw, ifKw, elseKw,
   whileKw, returnKw, newKw, trueKw, falseKw, nullKw,
   booleanType, intType, longType, doubleType, decimalType, stringType, listType, mapType,
   leftParen, rightParen, leftBrace, rightBrace, leftSquare, rightSquare,
   comma, semicolon, dot, colon, question, arrow,
   equal, equalEqual, bangEqual, bang, less, lessEqual, greater, greaterEqual,
   ampAmp, pipePipe, plus, minus, star, slash, percent,
   error, eof]

/-- Blanks, line ends and comments. -/
def isTrivia : TokenKind → Bool
  | whitespace | newline | lineComment | blockComment => true
  | _ => false

/-- Blanks and line ends, which a tree merges into one leaf. -/
def isBlank : TokenKind → Bool
  | whitespace | newline => true
  | _ => false

/-- Keywords that name a builtin type, those of an undeclared type included. -/
def isTypeKeyword : TokenKind → Bool
  | defKw | varKw | booleanType | intType | longType | doubleType | decimalType | stringType
  | listType | mapType => true
  | _ => false

/-- The one spelling of a keyword, a punctuation mark or an operator. -/
def spelling : TokenKind → Option String
  | packageKw => some "package"
  | importKw => some "import"
  | asKw => some "as"
  | classKw => some "class"
  | extendsKw => some "extends"
  | defKw => some "def"
  | varKw => some "var"
  | ifKw => some "if"
  | elseKw => some "else"
  | whileKw => some "while"
  | returnKw => some "return"
  | newKw => some "new"
  | trueKw => some "true"
  | falseKw => some "false"
  | nullKw => some "null"
  | booleanType => some "boolean"
  | intType => some "int"
  | longType => some "long"
  | doubleType => some "double"
  | decimalType => some "Decimal"
  | stringType => some "String"
  | listType => some "List"
  | mapType => some "Map"
  | leftParen => some "("
  | rightParen => some ")"
  | leftBrace => some "\x7b"
  | rightBrace => some "\x7d"
  | leftSquare => some "["
  | rightSquare => some "]"
  | comma => some ","
  | semicolon => some ";"
  | dot => some "."
  | colon => some ":"
  | question => some "?"
  | arrow => some "->"
  | equal => some "="
  | equalEqual => some "=="
  | bangEqual => some "!="
  | bang => some "!"
  | less => some "<"
  | lessEqual => some "<="
  | greater => some ">"
  | greaterEqual => some ">="
  | ampAmp => some "&&"
  | pipePipe => some "||"
  | plus => some "+"
  | minus => some "-"
  | star => some "*"
  | slash => some "/"
  | percent => some "%"
  | whitespace | newline | lineComment | blockComment | ident | intLiteral
  | decimalLiteral | stringLiteral | error | eof => none

/-- The name of a kind, as outlines write it. -/
def name : TokenKind → String
  | whitespace => "Whitespace"
  | newline => "Newline"
  | lineComment => "LineComment"
  | blockComment => "BlockComment"
  | ident => "Ident"
  | intLiteral => "IntLiteral"
  | decimalLiteral => "DecimalLiteral"
  | stringLiteral => "StringLiteral"
  | packageKw => "Package"
  | importKw => "Import"
  | asKw => "As"
  | classKw => "Class"
  | extendsKw => "Extends"
  | defKw => "Def"
  | varKw => "Var"
  | ifKw => "If"
  | elseKw => "Else"
  | whileKw => "While"
  | returnKw => "Return"
  | newKw => "New"
  | trueKw => "True"
  | falseKw => "False"
  | nullKw => "Null"
  | booleanType => "BooleanType"
  | intType => "IntType"
  | longType => "LongType"
  | doubleType => "DoubleType"
  | decimalType => "DecimalType"
  | stringType => "StringType"
  | listType => "ListType"
  | mapType => "MapType"
  | leftParen => "LeftParen"
  | rightParen => "RightParen"
  | leftBrace => "LeftBrace"
  | rightBrace => "RightBrace"
  | leftSquare => "LeftSquare"
  | rightSquare => "RightSquare"
  | comma => "Comma"
  | semicolon => "Semicolon"
  | dot => "Dot"
  | colon => "Colon"
  | question => "Question"
  | arrow => "Arrow"
  | equal => "Equal"
  | equalEqual => "EqualEqual"
  | bangEqual => "BangEqual"
  | bang => "Bang"
  | less => "Less"
  | lessEqual => "LessEqual"
  | greater => "Greater"
  | greaterEqual => "GreaterEqual"
  | ampAmp => "AmpAmp"
  | pipePipe => "PipePipe"
  | plus => "Plus"
  | minus => "Minus"
  | star => "Star"
  | slash => "Slash"
  | percent => "Percent"
  | error => "Error"
  | eof => "Eof"

/-- The keywords, names of builtin types included. -/
def keywords : List TokenKind :=
  [packageKw, importKw, asKw, classKw, extendsKw, defKw, varKw, ifKw, elseKw, whileKw,
   returnKw, newKw, trueKw, falseKw, nullKw,
   booleanType, intType, longType, doubleType, decimalType, stringType, listType, mapType]

/-- The kind of a whole word: the keyword it spells, or a name. -/
def ofWord (word : String) : TokenKind :=
  (keywords.find? fun kind => kind.spelling == some word).getD ident

end TokenKind

structure Token where
  kind : TokenKind
  span : Span
deriving DecidableEq, Repr, Inhabited

namespace Token

def offset (t : Token) : Nat := t.span.start

def isTrivia (t : Token) : Bool := t.kind.isTrivia

def textIn (t : Token) (source : String) : String := t.span.textIn source

end Token

end ScriptAnalysis
