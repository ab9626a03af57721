import PseudoBoolean.Binary64

/-! # The shortest decimal of a double

A finite double other than zero stands for the interval of the reals that are
rounded to it. Of the decimals in that interval the one with the fewest digits is
chosen, of several such the nearest to the double, and of two equally near ones the
larger. All comparisons are made on whole numbers over a common denominator.
-/

namespace PseudoBoolean

/-- The number `0.d₁d₂…dₙ * 10 ^ point`. -/
structure Decimal where
  digits : List Char
  point : Int

namespace Decimal

/-- A positive number and an interval around it, as numerators over `den`. The ends
belong to the interval where it is closed. -/
structure Interval where
  value : Nat
  low : Nat
  high : Nat
  den : Nat
  closed : Bool

namespace Interval

/-- The reals that are rounded to `mantissa * 2 ^ exponent`: half a unit of the last
place to either side, a quarter below a power of two, whose lower neighbour is nearer.
A real halfway between two doubles is rounded to the one with an even mantissa. -/
def ofFinite (mantissa : Nat) (exponent : Int) : Interval :=
  let below := if mantissa = Binary64.leadingBit ∧ -1074 < exponent then 1 else 2
  let factor := Nat.pow 2 (exponent - 2).toNat
  { value := 4 * mantissa * factor
    low := (4 * mantissa - below) * factor
    high := (4 * mantissa + 2) * factor
    den := Nat.pow 2 (2 - exponent).toNat
    closed := mantissa % 2 == 0 }

def inUnits (i : Interval) (unit : Int) : Interval :=
  let factor := Nat.pow 10 (-unit).toNat
  { i with
    value := i.value * factor
    low := i.low * factor
    high := i.high * factor
    den := i.den * Nat.pow 10 unit.toNat }

def holds (i : Interval) (n : Nat) : Bool :=
  if i.closed then i.low ≤ n * i.den && n * i.den ≤ i.high
  else i.low < n * i.den && n * i.den < i.high

/-- The whole number in the interval that is nearest to the value, the larger one of
two that are equally near. Only the neighbours of the value can be nearest. -/
def nearest? (i : Interval) : Option Nat :=
  let n := i.value / i.den
  match i.holds n, i.holds (n + 1) with
  | true, true => if 2 * i.value < (2 * n + 1) * i.den then some n else some (n + 1)
  | true, false => some n
  | false, true => some (n + 1)
  | false, false => none

/-- The number of digits before the point: `10 ^ (p - 1) ≤ value < 10 ^ p`. -/
def places (i : Interval) : Int :=
  if i.den ≤ i.value then (Nat.toDigits 10 (i.value / i.den)).length
  else
    let k := (Nat.toDigits 10 (i.den / i.value)).length
    if i.value * Nat.pow 10 (k - 1) = i.den then 2 - (k : Int) else 1 - (k : Int)

end Interval

def ofNat (n : Nat) (unit : Int) : Decimal :=
  let digits := Nat.toDigits 10 n
  ⟨(digits.reverse.dropWhile (· == '0')).reverse, digits.length + unit⟩

/-- The shortest decimal of `mantissa * 2 ^ exponent`. Seventeen digits tell all
doubles apart, so a coarser unit has always been found by then. -/
def shortest (mantissa : Nat) (exponent : Int) : Decimal :=
  if mantissa = 0 then ⟨['0'], 1⟩
  else
    let interval := Interval.ofFinite mantissa exponent
    let units := (List.range 17).map fun (k : Nat) => interval.places - 1 - (k : Int)
    let found? := units.findSome? fun unit =>
      (interval.inUnits unit).nearest?.map fun n => ofNat n unit
    found?.getD ⟨['0'], 1⟩

end Decimal

end PseudoBoolean
