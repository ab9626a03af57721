import PseudoBoolean.PowerProduct

/-! # Coefficients that depend on placeholders

A coefficient is a polynomial in placeholders, `Σ scalar * power product`. It has a
value once the placeholders are fed.
-/

namespace PseudoBoolean

/-- A polynomial in placeholders, as a table from power products to their factors. -/
@[ext] structure Coefficient (α : Type) where
  terms : Table PowerProduct α

namespace Coefficient

variable {α : Type} [Scalar α]

instance : BEq (Coefficient α) := ⟨fun c d => c.terms == d.terms⟩

instance : EmptyCollection (Coefficient α) := ⟨⟨∅⟩⟩

/-- Adds `x` to the factor of `p`, which is 0 where there is none. -/
def addTerm (c : Coefficient α) (p : PowerProduct) (x : α) : Coefficient α :=
  ⟨c.terms.upsert p fun old => old.getD 0 + x⟩

def addTerms (c : Coefficient α) (l : List (PowerProduct × α)) : Coefficient α :=
  l.foldl (fun c e => c.addTerm e.1 e.2) c

def ofList (l : List (PowerProduct × α)) : Coefficient α := addTerms ∅ l

def constant (x : α) : Coefficient α := ofList [(1, x)]

def placeholder (label : String) : Coefficient α := ofList [(PowerProduct.placeholder label, 1)]

def isConstant (c : Coefficient α) : Bool := c.terms.keys.all PowerProduct.isConstant

instance : Add (Coefficient α) := ⟨fun c d => c.addTerms d.terms.entries⟩

def scale (c : Coefficient α) (x : α) : Coefficient α := ⟨c.terms.mapValues (· * x)⟩

/-- The products of the terms of both, in the order of the left ones and then of the
right ones. -/
instance : Mul (Coefficient α) :=
  ⟨fun c d => ofList <| c.terms.entries.flatMap fun e =>
    d.terms.entries.map fun f => (e.1 * f.1, e.2 * f.2)⟩

/-- The value of the coefficient. An empty feed is a failure of its own unless the
coefficient is constant. -/
def eval (feed : Feed α) (c : Coefficient α) : Except EvalError α :=
  if feed.isEmpty && !c.isConstant then .error .emptyFeed
  else
    c.terms.entries.foldlM
      (fun sum e => do
        let product ← e.1.eval feed
        return sum + e.2 * product)
      0

end Coefficient

end PseudoBoolean
