import PseudoBoolean.Layout
import PseudoBoolean.Scalar

/-! # Variables, their domains and families

Variables that are made together, such as the cells of a matrix, form a family with one
layout, so that a model knows every member of it. Two families are the same only if
they were made at once, whatever their layouts are; an identity tells them apart.
-/

namespace PseudoBoolean

/-! ## Domains -/

/-- The values of a variable: 0 and 1, or -1 and 1. -/
inductive Domain where
  | binary
  | spin
deriving DecidableEq

namespace Domain

variable {α : Type} [Scalar α]

/-- The bit that a value stands for, if it lies in the domain. A spin `s` stands for
the bit `(s + 1) / 2`. -/
def toBit? : Domain → α → Option α
  | binary, x => if x == 0 || x == 1 then some x else none
  | spin, x => if x == -1 || x == 1 then some ((x + 1) / (2 : Nat)) else none

def ofBit : Domain → α → α
  | binary, x => x
  | spin, x => (2 : Nat) * x - 1

end Domain

/-! ## Families -/

/-- A group of variables with a common layout. -/
structure Family where
  id : Nat
  layout : Layout
deriving DecidableEq

/-- A decision variable. Its label alone says which variable it is. -/
structure Variable where
  label : String
  family : Family

namespace Variable

instance : BEq Variable := ⟨fun v w => v.label == w.label⟩

def ofLabel (id : Nat) (label : String) : Variable :=
  ⟨label, ⟨id, Table.single label [.name label]⟩⟩

end Variable

/-- A run that hands out identities, each of them once. -/
abbrev Supply := StateM Nat

namespace Supply

/-- A family unlike all that were made before. -/
def newFamily (layout : Layout) : Supply Family := do
  let id ← get
  set (id + 1)
  return ⟨id, layout⟩

def newVariable (label : String) : Supply Variable := do
  let id ← get
  set (id + 1)
  return Variable.ofLabel id label

end Supply

end PseudoBoolean
