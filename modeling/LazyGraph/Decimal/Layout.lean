import LazyGraph.Decimal.Shortest

/-! How digits are written: positionally, with an exponent, or to fixed places. -/

set_option autoImplicit false

namespace LazyGraph.Decimal

def zeros (n : Nat) : String :=
  String.ofList (List.replicate n '0')

namespace Digits

def text (d : Digits) : String :=
  toString d.digits

/-- Where the decimal point falls, counted from the front of the digits. -/
def point (d : Digits) : Int :=
  d.text.length + d.exponent

def positional (d : Digits) : String :=
  let digits := d.text
  if 0 ≤ d.exponent then digits ++ zeros d.exponent.toNat
  else if 0 < d.point then
    let whole := d.point.toNat
    String.ofList (digits.toList.take whole) ++ "." ++ String.ofList (digits.toList.drop whole)
  else "0." ++ zeros (-d.point).toNat ++ digits

/-- One digit before the point, then the power of ten with its sign. -/
def scientific (d : Digits) : String :=
  let power := (if 0 < d.point then "+" else "") ++ toString (d.point - 1)
  match d.text.toList with
  | [] => "0"
  | [digit] => digit.toString ++ "e" ++ power
  | digit :: rest => digit.toString ++ "." ++ String.ofList rest ++ "e" ++ power

end Digits

/-- The quotient rounded to the nearest natural number, a half to the even one. -/
def roundDiv (numerator denominator : Nat) : Nat :=
  let quotient := numerator / denominator
  let twice := 2 * (numerator % denominator)
  if twice < denominator then quotient
  else if denominator < twice then quotient + 1
  else if quotient % 2 == 0 then quotient else quotient + 1

def Binary.fixed (b : Binary) (places : Nat) : String :=
  let one := Nat.pow 10 places
  let scaled := roundDiv (b.numerator * one) b.denominator
  let fraction := toString (scaled % one)
  toString (scaled / one) ++ "." ++ zeros (places - fraction.length) ++ fraction

/-- Writes the sign and the names of the numbers that have no digits. -/
def Number.text (number : Number) (magnitude : Binary → String) : String :=
  match number with
  | .nan => "NaN"
  | .infinite negative => if negative then "-inf" else "inf"
  | .finite negative b => (if negative then "-" else "") ++ magnitude b

/-- A double as a value of the program: whole numbers in full and with `.0`, so that
they never read as integers, all others by their shortest digits. -/
def showDouble (value : Float) : String :=
  (Number.ofFloat value).text fun b =>
    if b.isInteger then b.fixed 1 else (b.shortest .up).positional

/-- A double to a fixed number of places, a half going to the even neighbour. -/
def showFixed (places : Nat) (value : Float) : String :=
  (Number.ofFloat value).text fun b => b.fixed places

end LazyGraph.Decimal
