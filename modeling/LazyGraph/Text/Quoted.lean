import LazyGraph.Text.Unprintable

/-! Quoted text: a string between double quotes, on one line whatever it holds. -/

set_option autoImplicit false

namespace LazyGraph.Text

def hex (n : Nat) : String :=
  String.ofList (Nat.toDigits 16 n)

/-- A character inside quoted text. The single quote needs no escape. -/
def quotedChar (c : Char) : String :=
  if c = '"' then "\\\""
  else if c = '\\' then "\\\\"
  else if c = '\t' then "\\t"
  else if c = '\r' then "\\r"
  else if c = '\n' then "\\n"
  else if c.toNat = 0 then "\\0"
  else if isUnprintable c then "\\u\x7b" ++ hex c.toNat ++ "\x7d"
  else c.toString

def quoted (text : String) : String :=
  "\"" ++ String.join (text.toList.map quotedChar) ++ "\""

end LazyGraph.Text
