import PseudoBoolean.Binary64

/-! # Scalars

Coefficients, energies and penalties are taken from a type with the operations
below. Nothing is asked of the operations, so what is proved for every scalar
type holds of rounded arithmetic; the laws of arithmetic are available where
the scalars are the rationals. An evaluation to a scalar may fail.
-/

namespace PseudoBoolean

/-- Number-like values: the field operations, a test for equality and one for
order, of which no law is assumed. -/
class Scalar (α : Type) extends
    Zero α, One α, Add α, Sub α, Mul α, Neg α, Div α, NatCast α, BEq α, LT α where
  decideLT : (x y : α) → Decidable (x < y)
  /-- The natural number that a scalar is, if it is one. -/
  toNat? : α → Option Nat

-- A type that has operations of its own keeps them as the first choice.
attribute [instance (50)] Scalar.toZero Scalar.toOne Scalar.toAdd Scalar.toSub Scalar.toMul
  Scalar.toNeg Scalar.toDiv Scalar.toNatCast Scalar.toBEq Scalar.toLT

namespace Scalar

variable {α : Type} [Scalar α]

instance (x y : α) : Decidable (x < y) := decideLT x y

/-- `r * x ^ n`, with a multiplication for each binary digit 1 of `n` and a
squaring between two digits, from the lowest digit up. -/
def powerFrom (r x : α) (n : Nat) : α :=
  let r := if n % 2 = 1 then r * x else r
  if n / 2 = 0 then r else powerFrom r (x * x) (n / 2)
termination_by n
decreasing_by omega

/-- `x ^ e`, where a negative exponent takes the reciprocal of the power. -/
def power (x : α) (e : Int) : α :=
  if e < 0 then 1 / powerFrom 1 x e.natAbs else powerFrom 1 x e.natAbs

end Scalar

/-! ## Doubles and rationals -/

instance : Scalar Float where
  zero := 0
  one := 1
  add := Float.add
  sub := Float.sub
  mul := Float.mul
  neg := Float.neg
  div := Float.div
  natCast := Float.ofNat
  beq := Float.beq
  lt x y := Float.lt x y = true
  decideLT x y := inferInstanceAs (Decidable (Float.lt x y = true))
  toNat? x := (Binary64.ofFloat x).toNat?

/-- The exact reading of the arithmetic. -/
instance : Scalar Rat where
  zero := 0
  one := 1
  add := Rat.add
  sub := Rat.sub
  mul := Rat.mul
  neg := Rat.neg
  div := Rat.div
  natCast n := Rat.ofInt n
  beq x y := decide (x = y)
  lt := (· < ·)
  decideLT x y := inferInstanceAs (Decidable (x < y))
  toNat? x := if x.den = 1 ∧ 0 ≤ x.num then some x.num.toNat else none

/-! ## Failures of evaluation -/

/-- Why an expression, a polynomial or a quadratic form has no value. -/
inductive EvalError where
  /-- The feed has no value for a placeholder. -/
  | missingPlaceholder (label : String)
  /-- The feed is empty, but there are placeholders. -/
  | emptyFeed
  /-- A variable has no value. -/
  | missingVariable (label : String)
deriving DecidableEq

def EvalError.message : EvalError → String
  | .missingPlaceholder label => "placeholder `" ++ label ++ "` is not specified in the feed dict"
  | .emptyFeed =>
    "no placeholder values are given, but the coefficient depends on placeholders"
  | .missingVariable label => "variable `" ++ label ++ "` is not assigned"

end PseudoBoolean
