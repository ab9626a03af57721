import PseudoBoolean.OrderedSet
import PseudoBoolean.Scalar

/-! # Monomials

A variable with the values 0 and 1 equals its powers, so a product of such variables is
the set of its factors. Monomials are ordered like the ascending lists of their labels.
-/

namespace PseudoBoolean

/-- A product of distinct variables, given by their labels. -/
@[ext] structure Monomial where
  factors : OrderedSet String
deriving DecidableEq

namespace Monomial

instance : Ord Monomial := ⟨compareOn fun m => m.factors.elems⟩

instance : Std.TransOrd Monomial :=
  inferInstanceAs (Std.TransCmp (compareOn fun m : Monomial => m.factors.elems))

instance : Std.LawfulEqOrd Monomial where
  eq_of_compare h := Monomial.ext (OrderedSet.ext (Std.LawfulEqOrd.eq_of_compare h))

def labels (m : Monomial) : List String := m.factors.elems

def ofList (l : List String) : Monomial := ⟨OrderedSet.ofList l⟩

instance : One Monomial := ⟨⟨∅⟩⟩

instance : Mul Monomial := ⟨fun m n => ⟨m.factors ∪ n.factors⟩⟩

def degree (m : Monomial) : Nat := m.factors.size

def isConstant (m : Monomial) : Bool := m.labels.isEmpty

def contains (m : Monomial) (label : String) : Bool := decide (label ∈ m.factors)

/-- Replaces the factors `a` and `b` by the single factor `p`. -/
def substitute (m : Monomial) (a b p : String) : Monomial :=
  ⟨(m.factors.filter fun label => label ≠ a && label ≠ b).insert p⟩

/-- The value of the product; the first label without a value fails. -/
def eval {α : Type} [Scalar α] (values : String → Option α) (m : Monomial) : Except EvalError α :=
  m.labels.foldlM
    (fun product label =>
      match values label with
      | some x => .ok (product * x)
      | none => .error (.missingVariable label))
    1

def text (m : Monomial) : String :=
  if m.isConstant then "const" else String.intercalate "*" m.labels

end Monomial

end PseudoBoolean
