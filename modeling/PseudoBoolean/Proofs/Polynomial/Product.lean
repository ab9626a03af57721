import Mathlib
import PseudoBoolean.Proofs.Polynomial.Value
import PseudoBoolean.Proofs.Weight.Product

/-! # Products of polynomials

Over the rationals polynomials form a commutative semiring, and they do so as they are kept:
the laws are about the terms, zero weights included, and not about values only. The number 1
as a constant is neutral, and the polynomial without terms absorbs.
-/

namespace PseudoBoolean

namespace Monomial

theorem eq_of_mem_labels_iff {m n : Monomial} (h : ∀ l, l ∈ m.labels ↔ l ∈ n.labels) : m = n :=
  Monomial.ext (OrderedSet.ext_mem h)

instance : CommMonoid Monomial where
  mul_assoc k m n := by
    apply eq_of_mem_labels_iff
    intro l
    simp only [mem_labels_mul, or_assoc]
  mul_comm m n := by
    apply eq_of_mem_labels_iff
    intro l
    rw [mem_labels_mul, mem_labels_mul, or_comm]
  one_mul m := by
    apply eq_of_mem_labels_iff
    intro l
    rw [mem_labels_mul]
    exact or_iff_right List.not_mem_nil
  mul_one m := by
    apply eq_of_mem_labels_iff
    intro l
    rw [mem_labels_mul]
    exact or_iff_left List.not_mem_nil

end Monomial

namespace Polynomial

theorem terms_mul (p q : Polynomial Rat) : (p * q).terms = p.terms * q.terms := by
  have h : p * q = _ := ofList_eq_sum _
  rw [h, terms_sum, List.map_map, List.map_flatMap]
  simp only [List.map_map]
  rfl

instance : One (Polynomial Rat) := ⟨constant 1⟩

theorem terms_one : (1 : Polynomial Rat).terms = 1 := rfl

instance : CommSemiring (Polynomial Rat) where
  mul_assoc p q r := by
    apply Polynomial.ext
    simp only [terms_mul, mul_assoc]
  mul_comm p q := by
    apply Polynomial.ext
    rw [terms_mul, terms_mul, mul_comm]
  left_distrib p q r := by
    apply Polynomial.ext
    simp only [terms_mul, terms_add, mul_add]
  right_distrib p q r := by
    apply Polynomial.ext
    simp only [terms_mul, terms_add, add_mul]
  zero_mul p := by
    apply Polynomial.ext
    rw [terms_mul, terms_zero, zero_mul]
  mul_zero p := by
    apply Polynomial.ext
    rw [terms_mul, terms_zero, mul_zero]
  one_mul p := by
    apply Polynomial.ext
    rw [terms_mul, terms_one, one_mul]
  mul_one p := by
    apply Polynomial.ext
    rw [terms_mul, terms_one, mul_one]

/-- The terms of either summand may be added to the other one. -/
theorem addTerms_entries (p q : Polynomial Rat) : p.addTerms q.terms.entries = p + q := by
  apply Polynomial.ext
  rw [addTerms_eq, terms_add]
  rfl

theorem ofList_eq_of_perm {l l' : List (Monomial × Weight Rat)} (h : l.Perm l') :
    ofList l = ofList l' := by
  rw [ofList_eq_sum, ofList_eq_sum]
  exact (h.map _).sum_eq

end Polynomial

end PseudoBoolean
