import Mathlib
import PseudoBoolean.Proofs.Expr.Polynomial
import PseudoBoolean.Proofs.Quadratization.Pattern

/-! # Skeletons of expressions

The skeleton of an expression is its tree without the numbers: leaves that are numbers or
placeholders become blanks. It is itself an expression, over scalars that tell nothing,
and its expansion has the monomials of the expansion of the expression.
-/

namespace PseudoBoolean

/-- Scalars that tell nothing. -/
instance : Scalar Unit where
  zero := ()
  one := ()
  add _ _ := ()
  sub _ _ := ()
  mul _ _ := ()
  neg _ := ()
  div _ _ := ()
  natCast _ := ()
  beq _ _ := true
  lt _ _ := False
  decideLT _ _ := inferInstanceAs (Decidable False)
  toNat? _ := none

namespace Expr

section
variable {α : Type}

mutual

/-- The tree with blanks in the place of its numbers and placeholders. -/
def skeleton : Expr α → Expr Unit
  | num _ | placeholder _ => num ()
  | var d v => var d v
  | product l r => product (skeleton l) (skeleton r)
  | sum terms => sum (termSkeletons terms)
  | constraint label e => constraint label (skeleton e)
  | named name e => named name (skeleton e)
  | penalized label e p => penalized label (skeleton e) (skeleton p)

def termSkeletons : List (Expr α) → List (Expr Unit)
  | [] => []
  | e :: rest => skeleton e :: termSkeletons rest

end

end

variable {α : Type} [Scalar α]

theorem monomials_variablePolynomial (d : Domain) (label : String) :
    (variablePolynomial d label : Polynomial Unit).monomials
      = (variablePolynomial d label : Polynomial α).monomials := by
  cases d with
  | binary => exact Polynomial.monomials_ofList_congr rfl
  | spin =>
    apply Polynomial.monomials_eq_of_mem_iff
    intro m
    rw [variablePolynomial, variablePolynomial, Polynomial.mem_monomials_addTerm,
      Polynomial.mem_monomials_addTerm]
    rfl

theorem monomials_sumPolynomial_skeleton {terms : List (Expr α)}
    (h : ∀ e ∈ terms, e.skeleton.polynomial.monomials = e.polynomial.monomials)
    {p : Polynomial Unit} {q : Polynomial α} (hpq : p.monomials = q.monomials) :
    (sumPolynomial p (termSkeletons terms)).monomials = (sumPolynomial q terms).monomials := by
  induction terms generalizing p q with
  | nil => exact hpq
  | cons e rest ih =>
    rw [termSkeletons, sumPolynomial, sumPolynomial]
    apply ih fun d hd => h d (List.mem_cons_of_mem _ hd)
    exact Polynomial.monomials_add_congr hpq (h e List.mem_cons_self)

theorem monomials_polynomial_skeleton (e : Expr α) :
    e.skeleton.polynomial.monomials = e.polynomial.monomials := by
  induction e using Expr.induction with
  | num x => rfl
  | var d v => exact monomials_variablePolynomial d v.label
  | placeholder p => rfl
  | product l r ihl ihr =>
    rw [skeleton, polynomial, polynomial]
    exact Polynomial.monomials_mul_congr ihl ihr
  | sum terms ih =>
    rw [skeleton, polynomial, polynomial]
    exact monomials_sumPolynomial_skeleton ih rfl
  | constraint label e ih => exact ih
  | named name e ih => exact ih
  | penalized label e p ihe ihp =>
    rw [skeleton, polynomial, polynomial]
    exact Polynomial.monomials_add_congr ihe ihp

/-- The names of the constraints and penalties with the monomials of each, in the order in
which they are entered. -/
def namedMonomials (e : Expr α) : List (String × List Monomial) :=
  e.namedPolynomials.map fun c => (c.1, c.2.monomials)

theorem namedMonomials_skeleton (e : Expr α) : e.skeleton.namedMonomials = e.namedMonomials := by
  simp only [namedMonomials]
  induction e using Expr.induction with
  | num x => rfl
  | var d v => rfl
  | placeholder p => rfl
  | product l r ihl ihr =>
    rw [skeleton, namedPolynomials, namedPolynomials, List.map_append, List.map_append, ihl, ihr]
  | sum terms ih =>
    rw [skeleton, namedPolynomials, namedPolynomials]
    induction terms with
    | nil => rfl
    | cons e rest ihrest =>
      rw [termSkeletons, termNamedPolynomials, termNamedPolynomials, List.map_append,
        List.map_append, ih e List.mem_cons_self,
        ihrest fun d hd => ih d (List.mem_cons_of_mem _ hd)]
  | constraint label e ih =>
    rw [skeleton, namedPolynomials, namedPolynomials, List.map_append, List.map_append, ih,
      List.map_singleton, List.map_singleton, monomials_polynomial_skeleton]
  | named name e ih => exact ih
  | penalized label e p ihe ihp =>
    rw [skeleton, namedPolynomials, namedPolynomials, List.map_append, List.map_append,
      List.map_append, List.map_append, ihe, ihp, List.map_singleton, List.map_singleton,
      monomials_polynomial_skeleton]

theorem mapValues_ofList_namedPolynomials (e : Expr α) :
    (Table.ofList e.namedPolynomials).mapValues Polynomial.monomials
      = Table.ofList e.namedMonomials := Table.mapValues_ofList _ _

end Expr

end PseudoBoolean
