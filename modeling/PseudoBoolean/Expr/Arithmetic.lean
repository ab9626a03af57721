import PseudoBoolean.Expr.Basic

/-! # Arithmetic on expressions

The operators compute with numbers at once, drop a zero from a sum and keep sums flat.
They do not simplify otherwise.
-/

namespace PseudoBoolean

inductive BuildError (α : Type) where
  | invalidPower (exponent : α)
  | notDivisible (divisor : Expr α)

namespace Expr

variable {α : Type} [Scalar α]

instance (n : Nat) : OfNat (Expr α) n := ⟨num (n : α)⟩

def isZero : Expr α → Bool
  | num x => x == 0
  | _ => false

/-- Appends the terms of the right sum to those of the left one. A single term goes to
the end of a sum on either side of it. -/
def join : Expr α → Expr α → Expr α
  | sum v, sum w => sum (v ++ w)
  | sum v, e => sum (v ++ [e])
  | e, sum v => sum (v ++ [e])
  | d, e => sum [d, e]

protected def add : Expr α → Expr α → Expr α
  | num x, num y => num (x + y)
  | d, e => if d.isZero then e else if e.isZero then d else join d e

protected def mul : Expr α → Expr α → Expr α
  | num x, num y => num (x * y)
  | d, e => product d e

instance : Add (Expr α) := ⟨Expr.add⟩

instance : Mul (Expr α) := ⟨Expr.mul⟩

instance : Sub (Expr α) := ⟨fun d e => d + num (-1) * e⟩

instance : Neg (Expr α) := ⟨fun e => e * num (-1)⟩

def divNumber (e : Expr α) (x : α) : Expr α := e * num (1 / x)

def pow (e : Expr α) : Nat → Expr α
  | 0 => num 1
  | 1 => e
  | n + 2 => pow e (n + 1) * e

instance : Pow (Expr α) Nat := ⟨pow⟩

def total (l : List (Expr α)) : Expr α := l.foldl (· + ·) (num 0)

/-- The operators that may take the place of their left operand. -/
inductive Assignment where
  | add
  | sub
  | mul

def Assignment.apply : Assignment → Expr α → Expr α → Expr α
  | .add, d, e => d + e
  | .sub, d, e => d - e
  | .mul, d, e => d * e

/-- Replaces an expression by what an operator makes of it and `e`. -/
def assign (op : Assignment) (e : Expr α) : StateM (Expr α) Unit := modify fun d => op.apply d e

/-- The greatest exponent of a power, `2 ^ 32 - 1`. -/
def maxExponent : Nat := 4294967295

/-- The power with an exponent that is given as a scalar. It has to be a natural number
from 1 up to the greatest exponent. -/
def tryPow (e : Expr α) (exponent : α) : Except (BuildError α) (Expr α) :=
  match Scalar.toNat? exponent with
  | some n => if 1 ≤ n ∧ n ≤ maxExponent then .ok (e ^ n) else .error (.invalidPower exponent)
  | none => .error (.invalidPower exponent)

def tryDiv (e divisor : Expr α) : Except (BuildError α) (Expr α) :=
  match divisor with
  | num x => if x == 0 then .error (.notDivisible divisor) else .ok (e.divNumber x)
  | _ => .error (.notDivisible divisor)

end Expr

end PseudoBoolean
