import Mathlib
import PseudoBoolean.Proofs.Polynomial.Value

/-! # Polynomials are known from their values

The value of a polynomial at the assignment that sets exactly the variables of a monomial
is the sum of the weights of all monomials that divide it. So the values at all
assignments determine the value of every weight, where a missing monomial counts as 0.
-/

namespace PseudoBoolean

theorem Monomial.holds_mem_labels {m n : Monomial} :
    n.holds (fun l => decide (l ∈ m.labels)) = true ↔ n.labels.toFinset ⊆ m.labels.toFinset := by
  rw [holds_iff, Finset.subset_iff]
  simp only [decide_eq_true_iff, List.mem_toFinset]

theorem Monomial.eq_of_toFinset_eq {m n : Monomial} (h : n.labels.toFinset = m.labels.toFinset) :
    n = m := by
  apply Monomial.ext
  apply OrderedSet.ext_mem
  intro l
  exact List.mem_toFinset.symm.trans ((Finset.ext_iff.mp h l).trans List.mem_toFinset)

/-- Where a combination of monomials is 0 at all assignments, all its coefficients are. -/
theorem eq_zero_of_sum_holds {S : Finset Monomial} {c : Monomial → Rat}
    (h : ∀ z : String → Bool, ∑ n ∈ S, bit (n.holds z) * c n = 0) : ∀ m ∈ S, c m = 0 := by
  intro m hm
  induction hlabels : m.labels.toFinset using Finset.strongInduction generalizing m with
  | H labels ih =>
    subst hlabels
    have hsum := h fun l => decide (l ∈ m.labels)
    have hself : m.holds (fun l => decide (l ∈ m.labels)) = true :=
      Monomial.holds_mem_labels.mpr (Finset.Subset.refl _)
    rw [Finset.sum_eq_single_of_mem m hm, hself, bit, one_mul] at hsum
    · exact hsum
    · intro n hn hne
      cases hholds : n.holds fun l => decide (l ∈ m.labels) with
      | false => exact zero_mul _
      | true =>
        -- A monomial other than `m` that divides it has fewer labels.
        have hsubset := Monomial.holds_mem_labels.mp hholds
        have hproper := hsubset.ssubset_of_ne fun heq => hne (Monomial.eq_of_toFinset_eq heq)
        rw [ih _ hproper n hn rfl, mul_zero]

namespace Polynomial

variable {φ : PowerProduct → Rat} {p q : Polynomial Rat}

/-- The value of the weight of a monomial, which is 0 where the monomial is missing. -/
def weightValue (φ : PowerProduct → Rat) (p : Polynomial Rat) (m : Monomial) : Rat :=
  ((p.weight? m).map (Weight.value φ)).getD 0

theorem weightValue_of_not_mem {m : Monomial} (h : ¬ m ∈ p.monomials) : p.weightValue φ m = 0 := by
  have hnone : p.weight? m = none := by
    rw [monomials, Table.mem_keys_iff_isSome] at h
    exact Option.not_isSome_iff_eq_none.mp h
  rw [weightValue, hnone]
  rfl

theorem value_eq_sum {S : Finset Monomial} (hS : ∀ m ∈ p.monomials, m ∈ S) (z : String → Bool) :
    p.value z φ = ∑ m ∈ S, bit (m.holds z) * p.weightValue φ m := by
  have hkeys : p.value z φ
      = (p.monomials.map fun m => bit (m.holds z) * p.weightValue φ m).sum := by
    rw [value, monomials, Table.keys, List.map_map]
    refine congrArg List.sum (List.map_congr_left fun e he => ?_)
    have hfind : p.weight? e.1 = some e.2 := Table.find?_eq_some_iff.mpr he
    simp only [Function.comp_apply, weightValue, hfind, Option.map_some, Option.getD_some]
  have hnodup : p.monomials.Nodup := p.terms.keys_nodup
  rw [hkeys, ← List.sum_toFinset _ hnodup]
  apply Finset.sum_subset
  · intro m hm
    exact hS m (List.mem_toFinset.mp hm)
  · intro m _ hm
    rw [weightValue_of_not_mem fun hmem => hm (List.mem_toFinset.mpr hmem), mul_zero]

/-- Two polynomials have the same values exactly if their weights have. -/
theorem value_eq_iff_weightValue_eq :
    (∀ z, p.value z φ = q.value z φ) ↔ ∀ m, p.weightValue φ m = q.weightValue φ m := by
  let S := p.monomials.toFinset ∪ q.monomials.toFinset
  have hp : ∀ m ∈ p.monomials, m ∈ S :=
    fun m hm => Finset.mem_union_left _ (List.mem_toFinset.mpr hm)
  have hq : ∀ m ∈ q.monomials, m ∈ S :=
    fun m hm => Finset.mem_union_right _ (List.mem_toFinset.mpr hm)
  constructor
  · intro h m
    have hzero : ∀ z : String → Bool,
        ∑ n ∈ S, bit (n.holds z) * (p.weightValue φ n - q.weightValue φ n) = 0 := by
      intro z
      simp only [mul_sub, Finset.sum_sub_distrib]
      rw [← value_eq_sum hp, ← value_eq_sum hq, h z, sub_self]
    by_cases hm : m ∈ S
    · exact sub_eq_zero.mp (eq_zero_of_sum_holds hzero m hm)
    · rw [weightValue_of_not_mem fun hmem => hm (hp m hmem),
        weightValue_of_not_mem fun hmem => hm (hq m hmem)]
  · intro h z
    rw [value_eq_sum hp, value_eq_sum hq]
    exact Finset.sum_congr rfl fun m _ => by rw [h m]

end Polynomial

end PseudoBoolean
