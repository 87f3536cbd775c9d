import LazyGraph.Decimal.Layout
import LazyGraph.Text.Column

/-! Structured reports and their JSON text, compact or indented. -/

set_option autoImplicit false

namespace LazyGraph

inductive Document where
  | null
  | bool (value : Bool)
  | nat (value : Nat)
  | double (value : Float)
  | text (value : String)
  | list (items : List Document)
  | record (fields : List (String × Document))

namespace Document

def escapedChar (c : Char) : String :=
  if c = '"' then "\\\""
  else if c = '\\' then "\\\\"
  else if c.toNat = 8 then "\\b"
  else if c.toNat = 12 then "\\f"
  else if c = '\n' then "\\n"
  else if c = '\r' then "\\r"
  else if c = '\t' then "\\t"
  else if c.toNat < 0x20 then
    let digits := Nat.toDigits 16 c.toNat
    "\\u" ++ String.ofList (List.replicate (4 - digits.length) '0' ++ digits)
  else c.toString

def textLiteral (value : String) : String :=
  "\"" ++ String.join (value.toList.map escapedChar) ++ "\""

/-- Shortest digits, positional while the point lies within five places before or
sixteen after the first digit, with a power of ten beyond. A number without digits
has no literal and is written as null. -/
def doubleLiteral (value : Float) : String :=
  match Decimal.Number.ofFloat value with
  | .finite negative b =>
    let digits := b.shortest .toEven
    let magnitude :=
      if digits.point ≤ -5 ∨ 16 < digits.point then digits.scientific
      else if 0 ≤ digits.exponent then digits.positional ++ ".0"
      else digits.positional
    (if negative then "-" else "") ++ magnitude
  | _ => "null"

mutual

def compact : Document → String
  | .null => "null"
  | .bool value => if value then "true" else "false"
  | .nat value => toString value
  | .double value => doubleLiteral value
  | .text value => textLiteral value
  | .list items => "[" ++ ",".intercalate (compactItems items) ++ "]"
  | .record fields => "\x7b" ++ ",".intercalate (compactFields fields) ++ "\x7d"

def compactItems : List Document → List String
  | [] => []
  | item :: rest => item.compact :: compactItems rest

def compactFields : List (String × Document) → List String
  | [] => []
  | (key, item) :: rest => (textLiteral key ++ ":" ++ item.compact) :: compactFields rest

end

/-- Entries between brackets, one to a line, two spaces deeper than the brackets. -/
def block (opening closing : String) (depth : Nat) (entries : List String) : String :=
  if entries.isEmpty then opening ++ closing
  else
    let margin := "\n" ++ Text.spaces (2 * (depth + 1))
    opening ++ margin ++ ("," ++ margin).intercalate entries ++ "\n" ++ Text.spaces (2 * depth) ++ closing

mutual

def prettyAt (depth : Nat) : Document → String
  | .list items => block "[" "]" depth (prettyItems (depth + 1) items)
  | .record fields => block "\x7b" "\x7d" depth (prettyFields (depth + 1) fields)
  | .null => "null"
  | .bool value => if value then "true" else "false"
  | .nat value => toString value
  | .double value => doubleLiteral value
  | .text value => textLiteral value

def prettyItems (depth : Nat) : List Document → List String
  | [] => []
  | item :: rest => item.prettyAt depth :: prettyItems depth rest

def prettyFields (depth : Nat) : List (String × Document) → List String
  | [] => []
  | (key, item) :: rest => (textLiteral key ++ ": " ++ item.prettyAt depth) :: prettyFields depth rest

end

def pretty (document : Document) : String :=
  document.prettyAt 0

end Document

end LazyGraph
