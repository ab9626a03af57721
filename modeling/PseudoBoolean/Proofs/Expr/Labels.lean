import Mathlib
import PseudoBoolean.Proofs.Expr.Leaves
import PseudoBoolean.Proofs.Expr.Polynomial
import PseudoBoolean.Proofs.Polynomial.Value

/-! # Labels of expanded expressions

Every label in the polynomial of an expression is a variable of the expression.
-/

namespace PseudoBoolean.Expr

variable {α : Type} [Scalar α]

theorem mem_monomials_sumPolynomial {p : Polynomial α} {terms : List (Expr α)} {m : Monomial} :
    m ∈ (sumPolynomial p terms).monomials
      ↔ m ∈ p.monomials ∨ ∃ e ∈ terms, m ∈ e.polynomial.monomials := by
  induction terms generalizing p with
  | nil => exact (or_iff_left fun ⟨e, he, _⟩ => List.not_mem_nil he).symm
  | cons e rest ih =>
    rw [sumPolynomial, ih, Polynomial.mem_monomials_add, List.exists_mem_cons_iff, or_assoc]

theorem labels_constant {w : Weight α} {m : Monomial}
    (hm : m ∈ (Polynomial.constant w).monomials) (l : String) : ¬ l ∈ m.labels := by
  rw [List.mem_singleton.mp hm]
  exact List.not_mem_nil

theorem mem_labels_variablePolynomial {d : Domain} {label l : String} {m : Monomial}
    (hm : m ∈ (variablePolynomial d label : Polynomial α).monomials) (hl : l ∈ m.labels) :
    l = label := by
  have hsingle : ∀ w : Weight α,
      m ∈ (Polynomial.single (Monomial.ofList [label]) w).monomials → l = label := by
    intro w hm
    rw [List.mem_singleton.mp hm] at hl
    exact List.mem_singleton.mp (Monomial.mem_labels_ofList.mp hl)
  cases d with
  | binary => exact hsingle _ hm
  | spin =>
    obtain hm | rfl := Polynomial.mem_monomials_addTerm.mp hm
    · exact hsingle _ hm
    · exact absurd hl List.not_mem_nil

theorem mem_labels_of_mem_polynomial (e : Expr α) {m : Monomial}
    (hm : m ∈ e.polynomial.monomials) {l : String} (hl : l ∈ m.labels) : l ∈ e.labels := by
  have hleaf : ∃ d v, var d v ∈ e.leaves ∧ v.label = l := by
    induction e using Expr.induction generalizing m with
    | num x => exact absurd hl (labels_constant hm l)
    | var d v => exact ⟨d, v, List.mem_singleton_self _, (mem_labels_variablePolynomial hm hl).symm⟩
    | placeholder p => exact absurd hl (labels_constant hm l)
    | product left right ihl ihr =>
      rw [polynomial] at hm
      obtain ⟨k, hk, n, hn, rfl⟩ := Polynomial.mem_monomials_mul.mp hm
      obtain hl | hl := Monomial.mem_labels_mul.mp hl
      · obtain ⟨d, v, hv, hlabel⟩ := ihl hk hl
        exact ⟨d, v, List.mem_append_left _ hv, hlabel⟩
      · obtain ⟨d, v, hv, hlabel⟩ := ihr hn hl
        exact ⟨d, v, List.mem_append_right _ hv, hlabel⟩
    | sum terms ih =>
      rw [polynomial] at hm
      obtain hm | ⟨e, he, hm⟩ := mem_monomials_sumPolynomial.mp hm
      · exact absurd hm List.not_mem_nil
      · obtain ⟨d, v, hv, hlabel⟩ := ih e he hm hl
        exact ⟨d, v, mem_termLeaves.mpr ⟨e, he, hv⟩, hlabel⟩
    | constraint label e ih => exact ih hm hl
    | named name e ih => exact ih hm hl
    | penalized label e p ihe ihp =>
      rw [polynomial] at hm
      obtain hm | hm := Polynomial.mem_monomials_add.mp hm
      · obtain ⟨d, v, hv, hlabel⟩ := ihe hm hl
        exact ⟨d, v, List.mem_append_left _ hv, hlabel⟩
      · obtain ⟨d, v, hv, hlabel⟩ := ihp hm hl
        exact ⟨d, v, List.mem_append_right _ hv, hlabel⟩
  exact mem_labels.mpr hleaf

end PseudoBoolean.Expr
