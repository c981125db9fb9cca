import ScriptAnalysis.Text.Invisible

/-!
# Quoted text

A text in quotes, with every character visible: the quote and the backslash are preceded by a
backslash, the common controls have a letter, and other invisible characters are written by
their code point in hexadecimal.
-/

namespace ScriptAnalysis.Quoted

def escape (c : Char) : String :=
  match c with
  | '"' => "\\\""
  | '\\' => "\\\\"
  | '\n' => "\\n"
  | '\r' => "\\r"
  | '\t' => "\\t"
  | '\x00' => "\\0"
  | c =>
    if isInvisible c then "\\u\x7b" ++ String.ofList (Nat.toDigits 16 c.toNat) ++ "\x7d"
    else c.toString

def encode (text : String) : String := "\"" ++ String.join (text.toList.map escape) ++ "\""

end ScriptAnalysis.Quoted
