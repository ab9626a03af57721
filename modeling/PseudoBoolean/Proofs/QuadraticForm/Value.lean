import Mathlib
import PseudoBoolean.Proofs.QuadraticForm.Cells

/-! # Values of quadratic forms

The form of a quadratic polynomial has the value of the polynomial. The entries that
complete the diagonal are 0.
-/

namespace PseudoBoolean.Qubo

variable {φ : PowerProduct → Rat} {z : String → Bool}

def value (z : String → Bool) (φ : PowerProduct → Rat) (f : Qubo Rat) : Rat :=
  f.offset.value φ
    + (f.entries.entries.map fun e => bit (z e.1.row && z e.1.col) * e.2.value φ).sum

theorem value_add_entry (h1 : φ 1 = 1) (t : Table (Cell String) (Weight Rat)) (x w : Weight Rat)
    (c : Cell String) :
    value z φ ⟨t + Table.entry c w, x⟩
      = value z φ ⟨t, x⟩ + bit (z c.row && z c.col) * w.value φ := by
  let total := Table.total
    (fun (c : Cell String) (w : Weight Rat) => bit (z c.row && z c.col) * w.value φ)
    (fun c v w => by rw [Weight.value_add h1, mul_add])
  have h : total (t + Table.entry c w) = total t + bit (z c.row && z c.col) * w.value φ := by
    rw [map_add, Table.total_entry]
  exact (congrArg (x.value φ + ·) h).trans (add_assoc _ _ _).symm

theorem value_addTerm (h1 : φ 1 = 1) (f : Qubo Rat) {m : Monomial} (hm : m.degree ≤ 2)
    (w : Weight Rat) : (f.addTerm m w).value z φ = f.value z φ + bit (m.holds z) * w.value φ := by
  obtain ⟨hlabels, h⟩ | ⟨c, hlabels, h⟩ := f.addTerm_cases hm w
  · have hholds : m.holds z = true := by rw [Monomial.holds, hlabels, List.all_nil]
    rw [h, hholds, bit, one_mul, value, value, Weight.value_add h1, add_right_comm]
  · have hholds : m.holds z = (z c.row && z c.col) := by
      rw [Bool.eq_iff_iff, Monomial.holds_iff, Bool.and_eq_true]
      simp only [hlabels.mem_labels, forall_eq_or_imp, forall_eq]
    rw [h, hholds, value_add_entry h1]

theorem value_addTerms (h1 : φ 1 = 1) (f : Qubo Rat) {l : List (Monomial × Weight Rat)}
    (h : ∀ e ∈ l, e.1.degree ≤ 2) : (f.addTerms l).value z φ
      = f.value z φ + (l.map fun e => bit (e.1.holds z) * e.2.value φ).sum := by
  induction l generalizing f with
  | nil =>
    rw [List.map_nil, List.sum_nil, add_zero]
    rfl
  | cons e rest ih =>
    rw [addTerms_cons, ih _ fun d hd => h d (List.mem_cons_of_mem _ hd),
      value_addTerm h1 f (h e List.mem_cons_self), List.map_cons, List.sum_cons, add_assoc]

theorem value_insertNew (h1 : φ 1 = 1) (t : Table (Cell String) (Weight Rat)) (x : Weight Rat)
    (c : Cell String) : value z φ ⟨t.insertNew c 0, x⟩ = value z φ ⟨t, x⟩ := by
  by_cases hc : c ∈ t.keys
  · rw [Table.insertNew_of_mem_keys hc]
  · have hzero : (0 : Weight Rat).value φ = 0 := rfl
    rw [Table.insertNew_eq_add hc, value_add_entry h1, hzero, mul_zero, add_zero]

theorem value_fillDiagonal (h1 : φ 1 = 1) (f : Qubo Rat) :
    f.fillDiagonal.value z φ = f.value z φ := by
  have hfold : ∀ (l : List String) (t : Table (Cell String) (Weight Rat)),
      value z φ ⟨l.foldl (fun t a => t.insertNew ⟨a, a⟩ 0) t, f.offset⟩
        = value z φ ⟨t, f.offset⟩ := by
    intro l
    induction l with
    | nil => exact fun t => rfl
    | cons a rest ih =>
      intro t
      rw [List.foldl_cons, ih, value_insertNew h1]
  exact hfold f.labels.elems f.entries

theorem value_ofPolynomial (h1 : φ 1 = 1) {p : Polynomial Rat}
    (h : ∀ m ∈ p.monomials, m.degree ≤ 2) : (ofPolynomial p).value z φ = p.value z φ := by
  have hzero : value z φ ⟨∅, 0⟩ = 0 := add_zero (0 : Rat)
  rw [ofPolynomial, value_fillDiagonal h1,
    value_addTerms h1 _ fun e he => h e.1 (List.mem_map_of_mem he), hzero, zero_add, Polynomial.value]

end PseudoBoolean.Qubo
