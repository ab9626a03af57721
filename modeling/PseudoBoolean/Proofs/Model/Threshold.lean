import PseudoBoolean.Compilation
import PseudoBoolean.Proofs.Expr.Polynomial

/-! # The threshold of long sums

From which number of terms on a sum counts as long makes no difference to an expansion,
nor to what is compiled from it. Both ways through a sum add the same polynomials in the
same order, so this holds of rounded arithmetic too.
-/

namespace PseudoBoolean.Expr

variable {α : Type} [Scalar α]

/-- The terms of a sum, expanded apart from each other and joined in their order, make the
polynomial and the table that are handed on from term to term. -/
theorem join_expandApart_eq_expandSum (threshold₁ threshold₂ : Nat) (terms : List (Expr α))
    (table : Constraints α) :
    let parts := expandApart threshold₁ terms
    (parts.foldl (fun p part => p + part.1) ∅,
      parts.foldl (fun table part => table.extend part.2) table)
      = expandSum threshold₂ ∅ table terms := by
  rw [expandSum_eq (fun e _ => expandInto_eq threshold₂ e)]
  exact join_expandApart (fun e _ => expandInto_eq threshold₁ e) table

theorem compilation_eq_of_strength_eq {o₁ o₂ : Options α} (h : o₁.strength = o₂.strength)
    (e : Expr α) : e.compilation o₁ = e.compilation o₂ := by
  unfold compilation
  rw [expand_eq, expand_eq, h]

theorem expansion_eq_of_thresholds (threshold₁ threshold₂ : Nat) :
    (∀ (e : Expr α) table, expandInto threshold₁ table e = expandInto threshold₂ table e) ∧
    (∀ (terms : List (Expr α)) table, let parts := expandApart threshold₁ terms
      (parts.foldl (fun p part => p + part.1) ∅,
        parts.foldl (fun table part => table.extend part.2) table)
        = expandSum threshold₂ ∅ table terms) ∧
    ∀ (e : Expr α) strength,
      e.compilation ⟨strength, threshold₁⟩ = e.compilation ⟨strength, threshold₂⟩ := by
  refine ⟨fun e table => ?_, join_expandApart_eq_expandSum threshold₁ threshold₂,
    fun e strength => ?_⟩
  · rw [expandInto_eq, expandInto_eq]
  · apply compilation_eq_of_strength_eq
    rfl

end PseudoBoolean.Expr
