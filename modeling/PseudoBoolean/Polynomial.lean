import PseudoBoolean.Monomial
import PseudoBoolean.Weight

/-! # Multilinear polynomials

A polynomial is a table from monomials to weights. A weight that has become zero keeps
its monomial, so every monomial that an expansion produced stays visible.
-/

namespace PseudoBoolean

/-- A sum of weighted monomials, each monomial occurring once. -/
@[ext] structure Polynomial (α : Type) where
  terms : Table Monomial (Weight α)

namespace Polynomial

variable {α : Type} [Scalar α]

instance : BEq (Polynomial α) := ⟨fun p q => p.terms == q.terms⟩

instance : EmptyCollection (Polynomial α) := ⟨⟨∅⟩⟩

/-- Adds `w` to the weight of `m`, or enters it where `m` has none. -/
def addTerm (p : Polynomial α) (m : Monomial) (w : Weight α) : Polynomial α :=
  ⟨p.terms.upsert m fun
    | some v => v + w
    | none => w⟩

def addTerms (p : Polynomial α) (l : List (Monomial × Weight α)) : Polynomial α :=
  l.foldl (fun p e => p.addTerm e.1 e.2) p

def ofList (l : List (Monomial × Weight α)) : Polynomial α := addTerms ∅ l

def single (m : Monomial) (w : Weight α) : Polynomial α := ofList [(m, w)]

def constant (w : Weight α) : Polynomial α := single 1 w

def weight? (p : Polynomial α) (m : Monomial) : Option (Weight α) := p.terms.find? m

def monomials (p : Polynomial α) : List Monomial := p.terms.keys

def size (p : Polynomial α) : Nat := p.terms.size

def isEmpty (p : Polynomial α) : Bool := p.terms.isEmpty

def degree (p : Polynomial α) : Nat := (p.monomials.map Monomial.degree).foldr max 0

def labels (p : Polynomial α) : OrderedSet String :=
  p.monomials.foldl (fun s m => s ∪ m.factors) ∅

/-- Adds the terms of the polynomial with fewer of them to the other one. -/
instance : Add (Polynomial α) :=
  ⟨fun p q => if p.size < q.size then q.addTerms p.terms.entries else p.addTerms q.terms.entries⟩

/-- The products of the terms of both, in the order of the left ones and then of the
right ones. -/
instance : Mul (Polynomial α) :=
  ⟨fun p q => ofList <| p.terms.entries.flatMap fun e =>
    q.terms.entries.map fun f => (e.1 * f.1, e.2 * f.2)⟩

/-- The value of the polynomial. In each term the monomial is evaluated before the
weight, and the first failure is the result. -/
def energy (values : String → Option α) (feed : Feed α) (p : Polynomial α) : Except EvalError α :=
  p.terms.entries.foldlM
    (fun sum e => do
      let product ← e.1.eval values
      let weight ← e.2.eval feed
      return sum + product * weight)
    0

end Polynomial

abbrev Constraints (α : Type) := Table String (Polynomial α)

end PseudoBoolean
