/-!
# The values of literals

What the text of a number or a string stands for.
-/

namespace ScriptAnalysis

/-- Drops the characters of a class from the end. -/
def dropTrailing (p : Char → Bool) (cs : List Char) : List Char := (cs.reverse.dropWhile p).reverse

def digitsValue (cs : List Char) : Nat := cs.foldl (fun n c => 10 * n + (c.toNat - '0'.toNat)) 0

/-- The integers that fit into 64 bits with a sign are below this bound. -/
def integerBound : Nat := 0x8000000000000000

/-- The value of an integer literal, whose digits may be followed by `l`, if it is below the
    bound. -/
def intValue? (text : String) : Option Int :=
  let digits := dropTrailing (fun c => c == 'l' || c == 'L') text.toList
  let value := digitsValue digits
  if !digits.isEmpty && digits.all Char.isDigit && value < integerBound then some value else none

/-- The digits of a decimal literal, without the `d` that may follow them. -/
def decimalDigits (text : String) : String :=
  String.ofList (dropTrailing (fun c => c == 'd' || c == 'D') text.toList)

def unescapeChar : Char → Char
  | 'n' => '\n'
  | 't' => '\t'
  | 'r' => '\r'
  | c => c

/-- Replaces each backslash and the character after it by the character they stand for. -/
def unescape : List Char → List Char
  | [] => []
  | ['\\'] => ['\\']
  | '\\' :: c :: cs => unescapeChar c :: unescape cs
  | c :: cs => c :: unescape cs

/-- The value of a string literal: what stands between the quotes, without escapes. -/
def stringValue (text : String) : String :=
  String.ofList (unescape (text.toList.drop 1).dropLast)

end ScriptAnalysis
