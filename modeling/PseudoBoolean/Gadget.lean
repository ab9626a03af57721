import PseudoBoolean.Expr.Arithmetic

/-! # Boolean gadgets

Over expressions with the values 0 and 1, a connective is an expression for the value of
a Boolean function. A relation is a constraint that is 0 where the relation holds, and
positive elsewhere.
-/

namespace PseudoBoolean.Gadget

variable {α : Type} [Scalar α]

def not (a : Expr α) : Expr α := .named "Not" (1 - a)

def and (a b : Expr α) : Expr α := .named "And" (a * b)

def or (a b : Expr α) : Expr α := .named "Or" (not (and (not a) (not b)))

def xor (a b : Expr α) : Expr α := .named "Xor" (a + b - a * b * 2)

def requireNot (label : String) (a b : Expr α) : Expr α :=
  .constraint label (a * b * 2 - a - b + 1)

def requireAnd (label : String) (a b c : Expr α) : Expr α :=
  .constraint label (a * b - (a + b) * c * 2 + c * 3)

def requireOr (label : String) (a b c : Expr α) : Expr α :=
  .constraint label (a * b + (a + b) * (1 - c * 2) + c)

/-- The label of the variable that `requireXor` introduces. -/
def xorLabel (label : String) : String := "aux_" ++ label

/-- Requires that `c` is the exclusive disjunction of `a` and `b`. Where it is, the
constraint is 0 for one of the values of `aux`. -/
def requireXorWith (label : String) (aux : Variable) (a b c : Expr α) : Expr α :=
  let x := .var .binary aux
  let s := a + b
  .constraint label (a * b * 2 - s * c * 2 - s * x * 4 + x * c * 4 + s + c + x * 4)

def requireXor (label : String) (a b c : Expr α) : Supply (Expr α) := do
  let aux ← Supply.newVariable (xorLabel label)
  return requireXorWith label aux a b c

end PseudoBoolean.Gadget
