import PseudoBoolean.Expr.Basic

/-! # Equality of expressions

Two expressions are equal if they are built alike, up to the order of the factors of a
product and up to the order and the repetitions of the terms of a sum. Variables are
compared by domain and label.
-/

namespace PseudoBoolean.Expr

variable {α : Type} [Scalar α]

mutual

/-- Equality up to swapped factors and up to the arrangement of sums. -/
protected def beq : Expr α → Expr α → Bool
  | num x, num y => x == y
  | var d v, var d' v' => d == d' && v == v'
  | placeholder p, placeholder q => p == q
  | product l r, product l' r' =>
    Expr.beq l l' && Expr.beq r r' || Expr.beq l r' && Expr.beq r l'
  | sum v, sum w => allIn v w && w.all (hasEqual v)
  | constraint l e, constraint l' e' => l == l' && Expr.beq e e'
  | named n e, named n' e' => n == n' && Expr.beq e e'
  | penalized l e p, penalized l' e' p' => l == l' && Expr.beq e e' && Expr.beq p p'
  | _, _ => false

def allIn : List (Expr α) → List (Expr α) → Bool
  | [], _ => true
  | e :: rest, w => w.any (Expr.beq e) && allIn rest w

def hasEqual : List (Expr α) → Expr α → Bool
  | [], _ => false
  | d :: rest, e => Expr.beq d e || hasEqual rest e

end

instance : BEq (Expr α) := ⟨Expr.beq⟩

end PseudoBoolean.Expr
