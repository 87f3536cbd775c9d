/-! Doubles as exact numbers: a sign and m · 2^q. -/

set_option autoImplicit false

namespace LazyGraph.Decimal

/-- A finite magnitude m · 2^q. `narrow` marks a power of two whose lower neighbour
is only half as far away as its upper one. -/
structure Binary where
  mantissa : Nat
  exponent : Int
  narrow : Bool
  deriving DecidableEq, Repr

namespace Binary

def numerator (b : Binary) : Nat :=
  b.mantissa * Nat.pow 2 b.exponent.toNat

def denominator (b : Binary) : Nat :=
  Nat.pow 2 (-b.exponent).toNat

def isInteger (b : Binary) : Bool :=
  b.numerator % b.denominator == 0

end Binary

inductive Number where
  | nan
  | infinite (negative : Bool)
  | finite (negative : Bool) (magnitude : Binary)
  deriving DecidableEq, Repr

/-- Reads the sign, the eleven exponent bits and the 52 fraction bits. -/
def Number.ofBits (bits : UInt64) : Number :=
  let word : Nat := bits.toNat
  let negative := word >>> 63 == 1
  let field : Nat := word >>> 52 % 2048
  let fraction : Nat := word % Nat.pow 2 52
  if field = 2047 then
    if fraction = 0 then .infinite negative else .nan
  else if field = 0 then
    .finite negative ⟨fraction, -1074, false⟩
  else
    .finite negative ⟨Nat.pow 2 52 + fraction, (field : Int) - 1075, fraction == 0 && field > 1⟩

def Number.ofFloat (value : Float) : Number :=
  .ofBits value.toBits

end LazyGraph.Decimal
