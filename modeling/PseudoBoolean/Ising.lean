import PseudoBoolean.QuadraticForm.Basic

/-! # Ising models

A quadratic form in the bits `x` is a quadratic form in the spins `s`, where
`x = (s + 1) / 2`. A product of a bit with itself is the bit, so an entry on the
diagonal is linear.
-/

namespace PseudoBoolean

/-- Linear and quadratic terms in spins, and an offset. -/
structure Ising (κ α : Type) [Ord κ] where
  linear : Table κ α
  quadratic : Table (Cell κ) α
  offset : α
deriving DecidableEq

namespace Ising

variable {κ α : Type} [Ord κ] [Std.TransOrd κ] [DecidableEq κ] [Scalar α]

def addLinear (linear : Table κ α) (k : κ) (x : α) : Table κ α :=
  linear.upsert k fun old => old.getD 0 + x

def addEntry (m : Ising κ α) (c : Cell κ) (x : α) : Ising κ α :=
  if c.row = c.col then
    let half := x / ((2 : Nat) : α)
    { m with linear := addLinear m.linear c.row half, offset := m.offset + half }
  else
    let quarter := x / ((4 : Nat) : α)
    { linear := addLinear (addLinear m.linear c.row quarter) c.col quarter
      quadratic := m.quadratic.insert c quarter
      offset := m.offset + quarter }

/-- A quadratic form as one in spins, made from its entries in order. -/
def ofForm (f : QuadraticForm κ α) : Ising κ α :=
  f.entries.entries.foldl (fun m e => m.addEntry e.1 e.2) ⟨∅, ∅, f.offset⟩

end Ising

end PseudoBoolean
