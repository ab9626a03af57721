import PseudoBoolean.Cell
import PseudoBoolean.Polynomial

/-! # Quadratic forms

A quadratic form is a matrix with an offset. The entry in row `i` and column `j`, where
`i ≤ j`, belongs to the product of the variables `i` and `j`, and an entry on the
diagonal to the variable by itself. Entries are weights as long as the placeholders are
open, and numbers once they are fed.
-/

namespace PseudoBoolean

/-- A matrix of values over pairs of variables, and an offset. -/
structure QuadraticForm (κ ν : Type) [Ord κ] where
  entries : Table (Cell κ) ν
  offset : ν

/-- A quadratic form over labelled variables whose placeholders are open. -/
abbrev Qubo (α : Type) := QuadraticForm String (Weight α)

namespace QuadraticForm

variable {κ ω ν α : Type} [Ord κ] [Ord ω] [Scalar α]

def size (f : QuadraticForm κ ν) : Nat := f.entries.size

def isEmpty (f : QuadraticForm κ ν) : Bool := f.entries.isEmpty

/-- The variables with an entry on the diagonal, in ascending order. -/
def diagonal [DecidableEq κ] (f : QuadraticForm κ ν) : List κ :=
  f.entries.keys.filterMap fun c => if c.row = c.col then some c.row else none

def relabel [Std.TransOrd ω] (name : κ → ω) (f : QuadraticForm κ ν) : QuadraticForm ω ν where
  entries := Table.ofList (f.entries.entries.map fun e => (⟨name e.1.row, name e.1.col⟩, e.2))
  offset := f.offset

def energy (x : κ → α) (f : QuadraticForm κ α) : α :=
  f.entries.entries.foldl (fun sum e => sum + e.2 * x e.1.row * x e.1.col) f.offset

end QuadraticForm

namespace Qubo

variable {α : Type} [Scalar α]

def addEntry (f : Qubo α) (c : Cell String) (w : Weight α) : Qubo α :=
  { f with entries := f.entries.upsert c fun
      | some v => v + w
      | none => w }

/-- Adds a weighted monomial. One of degree above 2 has no place in a quadratic form. -/
def addTerm (f : Qubo α) (m : Monomial) (w : Weight α) : Qubo α :=
  match m.labels with
  | [] => { f with offset := f.offset + w }
  | [a] => f.addEntry ⟨a, a⟩ w
  | [a, b] => f.addEntry ⟨a, b⟩ w
  | _ => f

def labels (f : Qubo α) : OrderedSet String :=
  OrderedSet.ofList (f.entries.keys.flatMap fun c => [c.row, c.col])

def fillDiagonal (f : Qubo α) : Qubo α :=
  { f with entries := f.labels.elems.foldl (fun t a => t.insertNew ⟨a, a⟩ 0) f.entries }

def addTerms (f : Qubo α) (l : List (Monomial × Weight α)) : Qubo α :=
  l.foldl (fun (f : Qubo α) e => f.addTerm e.1 e.2) f

/-- The form of a quadratic polynomial, with an entry on the diagonal for each of its
variables. -/
def ofPolynomial (p : Polynomial α) : Qubo α :=
  (addTerms ⟨∅, 0⟩ p.terms.entries).fillDiagonal

/-- Evaluates the entries in order and then the offset; the first failure is the result. -/
def eval (feed : Feed α) (f : Qubo α) : Except EvalError (QuadraticForm String α) := do
  let entries ← f.entries.entries.mapM fun e => do
    let x ← e.2.eval feed
    return (e.1, x)
  let offset ← f.offset.eval feed
  return ⟨Table.ofList entries, offset⟩

end Qubo

end PseudoBoolean
