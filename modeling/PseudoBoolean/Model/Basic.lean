import PseudoBoolean.Ising
import PseudoBoolean.Layout
import PseudoBoolean.Solution

/-! # Models

A model is a quadratic form together with what is needed to read solutions: the layout
of the variables and the polynomials of the constraints. Its variables are those of the
form, in ascending order, and the index of a variable is its place in this order.
-/

namespace PseudoBoolean

/-- A quadratic form that is ready for a solver. -/
structure Model (α : Type) where
  form : Qubo α
  layout : Layout
  constraints : Constraints α

namespace Model

variable {α : Type} [Scalar α]

def order (m : Model α) : List String := m.form.diagonal

def indexOf? (m : Model α) (label : String) : Option Nat := m.order.idxOf? label

def toQubo (m : Model α) (feed : Feed α) : Except EvalError (QuadraticForm String α) :=
  m.form.eval feed

def toQuboIndex (m : Model α) (feed : Feed α) : Except EvalError (QuadraticForm Nat α) :=
  (m.toQubo feed).map fun f => f.relabel fun label => m.order.idxOf label

def toIsing (m : Model α) (feed : Feed α) : Except EvalError (Ising String α) :=
  (m.toQubo feed).map Ising.ofForm

def toIsingIndex (m : Model α) (feed : Feed α) : Except EvalError (Ising Nat α) :=
  (m.toQuboIndex feed).map Ising.ofForm

/-- The bits of a solution. Labels that only the layout knows may have a value. -/
def bits (m : Model α) (domain : Domain) (s : Solution α) :
    Except (SolutionError α) (Table String α) :=
  s.bits m.order m.layout.contains domain

def bitEnergy (m : Model α) (bits : Table String α) (feed : Feed α) :
    Except (SolutionError α) α :=
  match m.toQubo feed with
  | .ok f => .ok (f.energy fun label => (bits.find? label).getD 0)
  | .error e => .error (.eval e)

def energy (m : Model α) (domain : Domain) (s : Solution α) (feed : Feed α) :
    Except (SolutionError α) α := do
  let bits ← m.bits domain s
  m.bitEnergy bits feed

end Model

end PseudoBoolean
