import Mathlib
import PseudoBoolean.Proofs.Expr.Value

/-! # Fed expressions

Placeholders may be replaced by their values before expansion. The expansion of the fed
expression is that of the original one with settled weights, with the same monomials
and the same constraints.
-/

namespace PseudoBoolean.Expr

mutual

/-- The expression with numbers in the place of its placeholders. -/
def fed (feed : Feed Rat) : Expr Rat → Expr Rat
  | num x => num x
  | var d v => var d v
  | placeholder p => num ((feed.find? p).getD 0)
  | product l r => product (fed feed l) (fed feed r)
  | sum terms => sum (fedTerms feed terms)
  | constraint label e => constraint label (fed feed e)
  | named name e => named name (fed feed e)
  | penalized label e p => penalized label (fed feed e) (fed feed p)

def fedTerms (feed : Feed Rat) : List (Expr Rat) → List (Expr Rat)
  | [] => []
  | e :: rest => fed feed e :: fedTerms feed rest

end

open PowerProduct (powerValue)

variable {feed : Feed Rat}

theorem settle_variablePolynomial {φ : PowerProduct → Rat} (h1 : φ 1 = 1) (d : Domain)
    (label : String) :
    (variablePolynomial d label : Polynomial Rat).settle φ = variablePolynomial d label := by
  cases d with
  | binary => rfl
  | spin =>
    rw [variablePolynomial, Polynomial.addTerm_eq_add, Polynomial.settle_add h1]
    rfl

theorem settle_sumPolynomial {φ : PowerProduct → Rat} (h1 : φ 1 = 1) {terms : List (Expr Rat)}
    (h : ∀ e ∈ terms, (fed feed e).polynomial = e.polynomial.settle φ) (p : Polynomial Rat) :
    sumPolynomial (p.settle φ) (fedTerms feed terms) = (sumPolynomial p terms).settle φ := by
  induction terms generalizing p with
  | nil => rfl
  | cons e rest ih =>
    rw [fedTerms, sumPolynomial, sumPolynomial, h e List.mem_cons_self, ← Polynomial.settle_add h1]
    exact ih (fun d hd => h d (List.mem_cons_of_mem _ hd)) (p + e.polynomial)

theorem polynomial_fed (e : Expr Rat) :
    (e.fed feed).polynomial = e.polynomial.settle (powerValue feed) := by
  have h1 : PowerProduct.powerValue feed 1 = 1 := PowerProduct.powerValue_one
  have hmul : ∀ p q, PowerProduct.powerValue feed (p * q)
      = PowerProduct.powerValue feed p * PowerProduct.powerValue feed q :=
    PowerProduct.powerValue_mul
  induction e using Expr.induction with
  | num x => rw [fed, polynomial]; rfl
  | var d v => rw [fed, polynomial, settle_variablePolynomial h1]
  | placeholder p =>
    have hsettle : (Polynomial.constant (Weight.placeholder p)).settle (powerValue feed)
        = Polynomial.constant ((Weight.placeholder p).settle (powerValue feed)) := rfl
    rw [fed, polynomial, polynomial, hsettle, Weight.settle, Weight.value_placeholder]
  | product l r ihl ihr =>
    rw [fed, polynomial, polynomial, ihl, ihr, Polynomial.settle_mul h1 hmul]
  | sum terms ih =>
    rw [fed, polynomial, polynomial]
    exact settle_sumPolynomial h1 ih ∅
  | constraint label e ih => rw [fed, polynomial, polynomial, ih]
  | named name e ih => rw [fed, polynomial, polynomial, ih]
  | penalized label e p ihe ihp =>
    rw [fed, polynomial, polynomial, ihe, ihp, Polynomial.settle_add h1]

theorem namedPolynomials_fed (e : Expr Rat) :
    (e.fed feed).namedPolynomials
      = e.namedPolynomials.map fun c => (c.1, c.2.settle (powerValue feed)) := by
  induction e using Expr.induction with
  | num x => rw [fed, namedPolynomials]; rfl
  | var d v => rw [fed, namedPolynomials]; rfl
  | placeholder p => rw [fed, namedPolynomials, namedPolynomials]; rfl
  | product l r ihl ihr =>
    rw [fed, namedPolynomials, namedPolynomials, ihl, ihr, List.map_append]
  | sum terms ih =>
    have hterms : ∀ l : List (Expr Rat), (∀ e ∈ l, (fed feed e).namedPolynomials
        = e.namedPolynomials.map fun c => (c.1, c.2.settle (powerValue feed))) →
        termNamedPolynomials (fedTerms feed l)
          = (termNamedPolynomials l).map fun c => (c.1, c.2.settle (powerValue feed)) := by
      intro l
      induction l with
      | nil => exact fun _ => rfl
      | cons e rest ihrest =>
        intro h
        rw [fedTerms, termNamedPolynomials, termNamedPolynomials, h e List.mem_cons_self,
          ihrest fun d hd => h d (List.mem_cons_of_mem _ hd), List.map_append]
    rw [fed, namedPolynomials, namedPolynomials]
    exact hterms terms ih
  | constraint label e ih =>
    rw [fed, namedPolynomials, namedPolynomials, ih, polynomial_fed, List.map_append]
    rfl
  | named name e ih => rw [fed, namedPolynomials, namedPolynomials, ih]
  | penalized label e p ihe ihp =>
    rw [fed, namedPolynomials, namedPolynomials, ihe, ihp, polynomial_fed, List.map_append,
      List.map_append]
    rfl

end PseudoBoolean.Expr
