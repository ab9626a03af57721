import PseudoBoolean.Coefficient

/-! # Weights

The weight of a monomial is a number as long as no placeholder has entered it, and a
coefficient from then on.
-/

namespace PseudoBoolean

/-- A number, or a coefficient that may depend on placeholders. -/
inductive Weight (α : Type) where
  | number (x : α)
  | symbolic (c : Coefficient α)

namespace Weight

variable {α : Type} [Scalar α]

instance : BEq (Weight α) where
  beq
    | number x, number y => x == y
    | symbolic c, symbolic d => c == d
    | _, _ => false

instance : Zero (Weight α) := ⟨number 0⟩

def placeholder (label : String) : Weight α := symbolic (Coefficient.placeholder label)

def number? : Weight α → Option α
  | number x => some x
  | symbolic _ => none

def toCoefficient : Weight α → Coefficient α
  | number x => Coefficient.constant x
  | symbolic c => c

/-- Numbers add up to a number, all else to a coefficient. -/
protected def add : Weight α → Weight α → Weight α
  | number x, number y => number (x + y)
  | v, w => symbolic (v.toCoefficient + w.toCoefficient)

instance : Add (Weight α) := ⟨Weight.add⟩

def scale : Weight α → α → Weight α
  | number x, y => number (x * y)
  | symbolic c, y => symbolic (c.scale y)

protected def mul : Weight α → Weight α → Weight α
  | v, number y => v.scale y
  | number x, symbolic d => symbolic (d.scale x)
  | symbolic c, symbolic d => symbolic (c * d)

instance : Mul (Weight α) := ⟨Weight.mul⟩

instance : Neg (Weight α) := ⟨fun v => v.scale (-1)⟩

def eval (feed : Feed α) : Weight α → Except EvalError α
  | number x => .ok x
  | symbolic c => c.eval feed

end Weight

end PseudoBoolean
