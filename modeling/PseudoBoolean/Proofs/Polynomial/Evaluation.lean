import Mathlib
import PseudoBoolean.Proofs.Polynomial.Support
import PseudoBoolean.Proofs.Weight.Evaluation

/-! # Evaluation of polynomials

A polynomial has an energy exactly if its variables have values and the feed covers its
weights. At bits this energy is the value of the polynomial.
-/

namespace PseudoBoolean

open PowerProduct (wordValue)

section
variable {α : Type} [Scalar α] {values : String → Option α} {feed : Feed α}

theorem Monomial.exists_value_of_eval {m : Monomial} {x : α} (h : m.eval values = .ok x) :
    ∀ l ∈ m.labels, ∃ y, values l = some y := by
  refine forall_of_foldlM_eq_ok ?_ h
  intro l a b hab
  split at hab
  · next y hy => exact ⟨y, hy⟩
  · cases hab

theorem Polynomial.eval_terms_of_energy {p : Polynomial α} {x : α}
    (h : p.energy values feed = .ok x) :
    ∀ e ∈ p.terms.entries, (∃ y, e.1.eval values = .ok y) ∧ ∃ w, e.2.eval feed = .ok w := by
  refine forall_of_foldlM_eq_ok ?_ h
  intro e a b hab
  obtain ⟨product, hproduct, hab⟩ := bind_eq_ok hab
  obtain ⟨weight, hweight, -⟩ := bind_eq_ok hab
  exact ⟨⟨product, hproduct⟩, weight, hweight⟩

theorem Polynomial.exists_value_of_energy {p : Polynomial α} {x : α}
    (h : p.energy values feed = .ok x) : ∀ l ∈ p.labels, ∃ y, values l = some y := by
  intro l hl
  obtain ⟨m, hm, hlm⟩ := mem_labels.mp hl
  obtain ⟨e, he, rfl⟩ := List.mem_map.mp hm
  obtain ⟨⟨y, hy⟩, -⟩ := eval_terms_of_energy h e he
  exact Monomial.exists_value_of_eval hy l hlm

end

variable {values : String → Option Rat} {z : String → Bool} {feed : Feed Rat}

theorem prod_bit (z : String → Bool) (l : List String) :
    (l.map fun x => bit (z x)).prod = bit (l.all z) := by
  induction l with
  | nil => rfl
  | cons x rest ih => rw [List.map_cons, List.prod_cons, ih, List.all_cons, bit_and]

namespace Monomial

theorem eval_of_bits {m : Monomial} (h : ∀ l ∈ m.labels, values l = some (bit (z l))) :
    m.eval values = .ok (bit (m.holds z)) := by
  unfold eval
  rw [foldlM_eq_ok (g := fun product l => product * bit (z l)), foldl_mul_eq_prod, prod_bit]
  · exact congrArg Except.ok (one_mul _)
  · intro l hl a
    rw [h l hl]

end Monomial

namespace Polynomial

theorem energy_of_bits {p : Polynomial Rat} (hvalues : ∀ l ∈ p.labels, values l = some (bit (z l)))
    (hp : p.AllWeights (Weight.Covered feed)) :
    p.energy values feed = .ok (p.value z (wordValue feed)) := by
  unfold energy
  rw [foldlM_eq_ok (g := fun sum e => sum + bit (e.1.holds z) * e.2.value (wordValue feed)),
    foldl_add_eq_sum, zero_add]
  · rfl
  · intro e he a
    rw [Monomial.eval_of_bits fun l hl =>
      hvalues l (mem_labels.mpr ⟨e.1, List.mem_map_of_mem he, hl⟩),
      Weight.eval_of_covered (hp e he)]
    rfl

theorem exists_value_and_covered_of_energy {p : Polynomial Rat} {x : Rat}
    (h : p.energy values feed = .ok x) :
    (∀ l ∈ p.labels, ∃ y, values l = some y) ∧ p.AllWeights (Weight.Covered feed) := by
  refine ⟨exists_value_of_energy h, fun e he => ?_⟩
  obtain ⟨-, w, hw⟩ := eval_terms_of_energy h e he
  exact Weight.covered_of_eval hw

end Polynomial

end PseudoBoolean
