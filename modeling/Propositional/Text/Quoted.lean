import Propositional.Text.Blank

/-!
# Quoted text

Text between double quotes, with the characters that would end it or could not be seen written as
escapes: in the form of JSON strings, and in the form of the diagnostic records.
-/

namespace Propositional

def quoteWith (escape : Char → String) (text : String) : String :=
  "\"" ++ String.join (text.toList.map escape) ++ "\""

def hex (n : Nat) : String :=
  String.ofList (Nat.toDigits 16 n)

/-- JSON requires an escape for quotes, backslashes and the controls below the blank. -/
def jsonEscape (c : Char) : String :=
  match c with
  | '"' => "\\\""
  | '\\' => "\\\\"
  | '\x08' => "\\b"
  | '\t' => "\\t"
  | '\n' => "\\n"
  | '\x0c' => "\\f"
  | '\r' => "\\r"
  | c =>
    if c.toNat < 0x10 then "\\u000" ++ hex c.toNat
    else if c.toNat < 0x20 then "\\u00" ++ hex c.toNat
    else c.toString

/-- A record shows controls and the blanks other than the space by their code points. -/
def recordEscape (c : Char) : String :=
  match c with
  | '"' => "\\\""
  | '\\' => "\\\\"
  | '\x00' => "\\0"
  | '\t' => "\\t"
  | '\n' => "\\n"
  | '\r' => "\\r"
  | ' ' => " "
  | c =>
    if c.toNat < 0x20 || c.toNat == 0x7f || 0x80 ≤ c.toNat && c.toNat < 0xa0 || isBlank c then
      "\\u\x7b" ++ hex c.toNat ++ "\x7d"
    else c.toString

def quoteJson : String → String :=
  quoteWith jsonEscape

def quoteRecord : String → String :=
  quoteWith recordEscape

end Propositional
