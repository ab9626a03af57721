import PseudoBoolean.Quadratization.Frequency

/-! # Steps of a quadratization

A step introduces an auxiliary variable `p` for the product of two variables `a` and
`b`. It puts `p` in the place of both factors and adds the penalty
`strength * (3p - 2ap - 2bp + ab)`, which is 0 where `p = ab` and either `strength` or
three times that elsewhere.

The factors may be auxiliary variables themselves. The label of `p` lists the variables of
the whole product in ascending order with stars between them, so it depends only on these.
-/

namespace PseudoBoolean

/-! ## Labels of auxiliary variables -/

/-- The parts of a label between its stars. -/
def labelParts (label : String) : List String := (label.toList.splitOn '*').map String.ofList

/-- The label with its parts in ascending order. -/
def canonicalLabel (label : String) : String :=
  String.intercalate "*" ((labelParts label).mergeSort fun s t => (compare s t).isLE)

def auxiliaryLabel (a b : String) : String := canonicalLabel (a ++ "*" ++ b)

/-! ## Steps -/

/-- The introduction of `product` for the factors `first` and `second`, which occur
together in `count` monomials. -/
structure Step where
  first : String
  second : String
  product : String
  count : Nat
deriving DecidableEq

namespace Step

variable {α : Type} [Scalar α]

/-- Puts the auxiliary variable in the place of the two factors, where both occur. -/
def contract (s : Step) (m : Monomial) : Monomial :=
  if m.contains s.first && m.contains s.second then m.substitute s.first s.second s.product else m

def penalty (strength : Weight α) (s : Step) : Polynomial α :=
  Polynomial.ofList
    [(Monomial.ofList [s.product], strength.scale ((3 : Nat) : α)),
      (Monomial.ofList [s.second, s.product], strength.scale (-((2 : Nat) : α))),
      (Monomial.ofList [s.first, s.product], strength.scale (-((2 : Nat) : α))),
      (Monomial.ofList [s.first, s.second], strength)]

def constraintLabel (s : Step) : String :=
  "AND(" ++ s.first ++ "," ++ s.second ++ ")=" ++ s.product

end Step

namespace Polynomial

variable {α : Type} [Scalar α]

/-- The step for the commonest pair, as long as a monomial has a degree above 2. -/
def nextStep? (p : Polynomial α) : Option Step :=
  p.commonestPair?.map fun (pair, count) =>
    { first := pair.row, second := pair.col, product := auxiliaryLabel pair.row pair.col, count }

/-- Contracts every monomial and adds up the terms that have become alike. -/
def contract (p : Polynomial α) (s : Step) : Polynomial α :=
  ofList (p.terms.entries.map fun e => (s.contract e.1, e.2))

def apply (strength : Weight α) (p : Polynomial α) (s : Step) : Polynomial α :=
  p.contract s + s.penalty strength

end Polynomial

end PseudoBoolean
