import Mathlib
import PseudoBoolean.Proofs.Expr.Nodes
import PseudoBoolean.Proofs.Polynomial.Product

/-! # Rearranged expressions

The terms of a sum may be permuted, the factors of a product swapped, and sums put into
sums or taken out of them, at any depth. With exact arithmetic the polynomial of an
expression does not depend on such an arrangement, and neither do its named polynomials,
though they may come in another order.
-/

namespace PseudoBoolean.Expr

/-- The least congruence that permutes the terms of sums, swaps the factors of products and
dissolves sums in sums. -/
inductive Rearranged {α : Type} : Expr α → Expr α → Prop where
  | refl (e : Expr α) : Rearranged e e
  | symm {d e : Expr α} : Rearranged d e → Rearranged e d
  | trans {d e f : Expr α} : Rearranged d e → Rearranged e f → Rearranged d f
  | permute {v w : List (Expr α)} : v.Perm w → Rearranged (sum v) (sum w)
  | swap (l r : Expr α) : Rearranged (product l r) (product r l)
  | flatten (before inner after : List (Expr α)) :
      Rearranged (sum (before ++ sum inner :: after)) (sum (before ++ inner ++ after))
  | unwrap (e : Expr α) : Rearranged (sum [e]) e
  | term {d e : Expr α} (before after : List (Expr α)) : Rearranged d e →
      Rearranged (sum (before ++ d :: after)) (sum (before ++ e :: after))
  | product {l r l' r' : Expr α} : Rearranged l l' → Rearranged r r' →
      Rearranged (product l r) (product l' r')
  | constraint {d e : Expr α} (label : String) : Rearranged d e →
      Rearranged (constraint label d) (constraint label e)
  | named {d e : Expr α} (name : String) : Rearranged d e →
      Rearranged (named name d) (named name e)
  | penalized {d e p q : Expr α} (label : String) : Rearranged d e → Rearranged p q →
      Rearranged (penalized label d p) (penalized label e q)

variable {d e : Expr Rat}

theorem polynomial_sum (terms : List (Expr Rat)) :
    (sum terms).polynomial = (terms.map polynomial).sum := by
  rw [polynomial, sumPolynomial_eq, List.sum_eq_foldl]
  rfl

theorem polynomial_sum_append (v w : List (Expr Rat)) :
    (sum (v ++ w)).polynomial = (sum v).polynomial + (sum w).polynomial := by
  rw [polynomial_sum, polynomial_sum, polynomial_sum, List.map_append, List.sum_append]

theorem polynomial_sum_cons (e : Expr Rat) (w : List (Expr Rat)) :
    (sum (e :: w)).polynomial = e.polynomial + (sum w).polynomial := by
  rw [polynomial_sum, polynomial_sum, List.map_cons, List.sum_cons]

theorem Rearranged.polynomial_eq (h : Rearranged d e) : d.polynomial = e.polynomial := by
  induction h with
  | refl e => rfl
  | symm _ ih => exact ih.symm
  | trans _ _ ih ih' => exact ih.trans ih'
  | permute h =>
    rw [polynomial_sum, polynomial_sum]
    exact (h.map Expr.polynomial).sum_eq
  | swap l r => rw [Expr.polynomial, Expr.polynomial, mul_comm]
  | flatten before inner after =>
    rw [polynomial_sum_append, polynomial_sum_cons, polynomial_sum_append, polynomial_sum_append,
      add_assoc]
  | unwrap e => rw [polynomial_sum, List.map_singleton, List.sum_singleton]
  | term before after _ ih =>
    rw [polynomial_sum_append, polynomial_sum_append, polynomial_sum_cons, polynomial_sum_cons, ih]
  | product _ _ ihl ihr => rw [Expr.polynomial, Expr.polynomial, ihl, ihr]
  | constraint label _ ih => rw [Expr.polynomial, Expr.polynomial, ih]
  | named name _ ih => rw [Expr.polynomial, Expr.polynomial, ih]
  | penalized label _ _ ihe ihp => rw [Expr.polynomial, Expr.polynomial, ihe, ihp]

theorem Rearranged.namedPolynomials_perm (h : Rearranged d e) :
    d.namedPolynomials.Perm e.namedPolynomials := by
  induction h with
  | refl e => exact .refl _
  | symm _ ih => exact ih.symm
  | trans _ _ ih ih' => exact ih.trans ih'
  | permute h =>
    rw [namedPolynomials_sum, namedPolynomials_sum]
    exact h.flatMap_right _
  | swap l r =>
    rw [namedPolynomials, namedPolynomials]
    exact List.perm_append_comm
  | flatten before inner after =>
    simp only [namedPolynomials_sum, List.flatMap_append, List.flatMap_cons, List.append_assoc]
    exact .refl _
  | unwrap e => rw [namedPolynomials_sum, List.flatMap_singleton]
  | term before after _ ih =>
    simp only [namedPolynomials_sum, List.flatMap_append, List.flatMap_cons]
    exact (ih.append_right _).append_left _
  | product _ _ ihl ihr =>
    rw [namedPolynomials, namedPolynomials]
    exact ihl.append ihr
  | constraint label h ih =>
    rw [namedPolynomials, namedPolynomials, h.polynomial_eq]
    exact ih.append_right _
  | named name _ ih =>
    rw [namedPolynomials, namedPolynomials]
    exact ih
  | penalized label _ hp ihe ihp =>
    rw [namedPolynomials, namedPolynomials, hp.polynomial_eq]
    exact (ihe.append ihp).append_right _

/-- Among distinct labels no requirement can take the place of another. -/
theorem Rearranged.ofList_namedPolynomials_eq (h : Rearranged d e)
    (hlabels : (d.requirements.map Prod.fst).Nodup) :
    Table.ofList d.namedPolynomials = Table.ofList e.namedPolynomials := by
  rw [← map_fst_namedPolynomials] at hlabels
  exact Table.ofList_eq_of_perm h.namedPolynomials_perm hlabels

end PseudoBoolean.Expr
