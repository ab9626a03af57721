import PseudoBoolean.Ordering

/-! # Cells

The entries of a quadratic form, and the pairs of factors that are counted in its
making, stand at a row and a column. Cells are ordered by row and then by column.
-/

namespace PseudoBoolean

@[ext] structure Cell (κ : Type) where
  row : κ
  col : κ
deriving DecidableEq

namespace Cell

variable {κ : Type} [Ord κ]

instance : Ord (Cell κ) := ⟨fun c d => comparePairs (c.row, c.col) (d.row, d.col)⟩

instance [Std.TransOrd κ] : Std.TransOrd (Cell κ) :=
  have order : Std.TransCmp (comparePairs : κ × κ → κ × κ → Ordering) := inferInstance
  { eq_swap := order.eq_swap, isLE_trans := order.isLE_trans }

instance [Std.LawfulEqOrd κ] : Std.LawfulEqOrd (Cell κ) :=
  have order : Std.LawfulEqCmp (comparePairs : κ × κ → κ × κ → Ordering) := inferInstance
  { compare_self := order.compare_self
    eq_of_compare := fun h =>
      have same := order.eq_of_compare h
      Cell.ext (congrArg Prod.fst same) (congrArg Prod.snd same) }

end Cell

end PseudoBoolean
