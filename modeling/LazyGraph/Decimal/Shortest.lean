import LazyGraph.Decimal.Binary

/-! The fewest decimal digits that read back as the same double.

The reals that round to a double form an interval around it, ends included when
its mantissa is even. On the grid of n-digit decimals the two neighbours of the
value are tried; the first grid with a neighbour in the interval wins, and of two
neighbours the nearer one. All comparisons are exact: quantities are scaled by
10^400 and by four times the denominator, which makes them natural numbers. -/

set_option autoImplicit false

namespace LazyGraph.Decimal

/-- Which of two equally near decimals is taken. -/
inductive Tie where
  | toEven
  | up
  deriving DecidableEq, Repr

structure Digits where
  digits : Nat
  exponent : Int
  deriving DecidableEq, Repr

/-- No decimal exponent of a double reaches this far below the point. -/
def scale : Nat := 400

def Digits.trim (d : Digits) : Digits :=
  if h : d.digits ≠ 0 ∧ d.digits % 10 = 0 then
    trim ⟨d.digits / 10, d.exponent + 1⟩
  else d
termination_by d.digits
decreasing_by omega

/-- Value and interval of a magnitude, scaled to natural numbers. -/
structure Interval where
  lower : Nat
  value : Nat
  upper : Nat
  closed : Bool
  -- What 10^-scale becomes.
  unit : Nat

def Binary.interval (b : Binary) : Interval :=
  let factor := Nat.pow 2 b.exponent.toNat * Nat.pow 10 scale
  { lower := (4 * b.mantissa - if b.narrow then 1 else 2) * factor
    value := 4 * b.mantissa * factor
    upper := (4 * b.mantissa + 2) * factor
    closed := b.mantissa % 2 == 0
    unit := 4 * b.denominator }

def Interval.contains (i : Interval) (x : Nat) : Bool :=
  if i.closed then i.lower ≤ x && x ≤ i.upper else i.lower < x && x < i.upper

def Interval.leading (i : Interval) : Nat :=
  (Nat.toDigits 10 (i.value / i.unit)).length - 1

/-- The best decimal on the grid of multiples of 10^place, if one reads back. -/
def Interval.onGrid (i : Interval) (tie : Tie) (place : Nat) : Option Nat :=
  let step := Nat.pow 10 place * i.unit
  let below := i.value / step
  let above := below + 1
  let distanceBelow := i.value - below * step
  let distanceAbove := above * step - i.value
  match i.contains (below * step), i.contains (above * step) with
  | false, false => none
  | true, false => some below
  | false, true => some above
  | true, true =>
    if distanceBelow < distanceAbove then some below
    else if distanceAbove < distanceBelow then some above
    else match tie with
      | .toEven => some (if below % 2 == 0 then below else above)
      | .up => some above

/-- Tries grids of `n`, `n + 1`, … digits, `fuel` of them. Seventeen always suffice. -/
def Interval.search (i : Interval) (tie : Tie) : (fuel n : Nat) → Digits
  | 0, _ => ⟨i.value / i.unit, -scale⟩
  | fuel + 1, n =>
    let place := i.leading + 1 - n
    match i.onGrid tie place with
    | some digits => ⟨digits, (place : Int) - scale⟩
    | none => i.search tie fuel (n + 1)

def Binary.shortest (b : Binary) (tie : Tie) : Digits :=
  if b.mantissa = 0 then ⟨0, 0⟩ else (b.interval.search tie 17 1).trim

end LazyGraph.Decimal
