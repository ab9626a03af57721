import Mathlib
import PseudoBoolean.Proofs.QuadraticForm.Cells
import PseudoBoolean.Proofs.Quadratization.Value

/-! # Patterns of polynomials

The monomials of a sum, of a product and of a quadratization are known from those of the
polynomials that it is made of: no operation looks at a weight, not even to drop one that
has become zero. So polynomials with the same monomials are quadratized in the same
steps, whatever their weights and the strengths are and whatever scalars they are over.
-/

namespace PseudoBoolean

variable {α β : Type}

namespace Polynomial

theorem monomials_eq_of_mem_iff {p : Polynomial α} {q : Polynomial β}
    (h : ∀ m, m ∈ p.monomials ↔ m ∈ q.monomials) : p.monomials = q.monomials :=
  Table.keys_eq_of_mem_iff h

theorem labels_congr {p : Polynomial α} {q : Polynomial β} (h : p.monomials = q.monomials) :
    p.labels = q.labels := by
  rw [labels, labels, h]

variable [Scalar α] [Scalar β] {p p' : Polynomial α} {q q' : Polynomial β}

theorem monomials_add_congr (h : p.monomials = q.monomials) (h' : p'.monomials = q'.monomials) :
    (p + p').monomials = (q + q').monomials := by
  apply monomials_eq_of_mem_iff
  intro m
  rw [mem_monomials_add, mem_monomials_add, h, h']

theorem monomials_mul_congr (h : p.monomials = q.monomials) (h' : p'.monomials = q'.monomials) :
    (p * p').monomials = (q * q').monomials := by
  apply monomials_eq_of_mem_iff
  intro m
  rw [mem_monomials_mul, mem_monomials_mul, h, h']

theorem monomials_rename_congr (h : p.monomials = q.monomials) (r : Monomial → Monomial) :
    (p.rename r).monomials = (q.rename r).monomials := by
  apply monomials_eq_of_mem_iff
  intro m
  rw [mem_monomials_rename, mem_monomials_rename, h]

theorem monomials_ofList_congr {l : List (Monomial × Weight α)} {k : List (Monomial × Weight β)}
    (h : l.map Prod.fst = k.map Prod.fst) : (ofList l).monomials = (ofList k).monomials := by
  apply monomials_eq_of_mem_iff
  intro m
  rw [ofList, ofList, mem_monomials_addTerms, mem_monomials_addTerms, h]
  rfl

/-! ## Quadratization -/

theorem monomials_penalty (s : Step) (v : Weight α) (w : Weight β) :
    (s.penalty v).monomials = (s.penalty w).monomials := monomials_ofList_congr rfl

theorem monomials_apply_congr (h : p.monomials = q.monomials) (v : Weight α) (w : Weight β)
    (s : Step) : (p.apply v s).monomials = (q.apply w s).monomials := by
  rw [apply, apply, contract_eq_rename, contract_eq_rename]
  exact monomials_add_congr (monomials_rename_congr h s.contract) (monomials_penalty s v w)

theorem quadratize_congr (h : p.monomials = q.monomials) (v : Weight α) (w : Weight β) :
    (p.quadratize v).1.monomials = (q.quadratize w).1.monomials ∧
      (p.quadratize v).2 = (q.quadratize w).2 := by
  induction hn : p.excess using Nat.strongRecOn generalizing p q with
  | ind n ih =>
    have hnext : p.nextStep? = q.nextStep? := nextStep?_congr h
    cases hs : p.nextStep? with
    | none =>
      rw [quadratize_of_none hs, quadratize_of_none (hnext.symm.trans hs)]
      exact ⟨h, rfl⟩
    | some s =>
      have hlt : (p.apply v s).excess < n := hn ▸ excess_apply_lt v hs
      obtain ⟨hmonomials, hsteps⟩ := ih _ hlt (monomials_apply_congr h v w s) rfl
      rw [quadratize_of_some hs, quadratize_of_some (hnext.symm.trans hs)]
      exact ⟨hmonomials, congrArg (s :: ·) hsteps⟩

end Polynomial

/-! ## Constraints of the steps, and the quadratic form -/

variable [Scalar α] [Scalar β]

theorem monomials_auxiliaryConstraints (steps : List Step) (v : Weight α) (w : Weight β) :
    (auxiliaryConstraints v steps).mapValues Polynomial.monomials
      = (auxiliaryConstraints w steps).mapValues Polynomial.monomials := by
  rw [auxiliaryConstraints, auxiliaryConstraints, Table.mapValues_ofList, Table.mapValues_ofList,
    List.map_map, List.map_map]
  refine congrArg Table.ofList (List.map_congr_left fun s _ => ?_)
  rw [Function.comp_apply, Function.comp_apply, Polynomial.monomials_penalty s v w]

theorem Qubo.keys_ofPolynomial_congr {p : Polynomial α} {q : Polynomial β}
    (h : p.monomials = q.monomials) (hdegree : ∀ m ∈ p.monomials, m.degree ≤ 2) :
    (ofPolynomial p).entries.keys = (ofPolynomial q).entries.keys := by
  apply Table.keys_eq_of_mem_iff
  intro c
  rw [mem_keys_ofPolynomial hdegree, mem_keys_ofPolynomial (h ▸ hdegree), h,
    Polynomial.labels_congr h]

end PseudoBoolean
