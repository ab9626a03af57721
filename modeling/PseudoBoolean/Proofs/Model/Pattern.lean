import Mathlib
import PseudoBoolean.Proofs.Compilation
import PseudoBoolean.Proofs.Expr.Skeleton

/-! # The pattern of a model

Where a model has entries is settled by the skeleton of the expression alone: no number
in it, no placeholder and no strength has a say in the monomials, the steps, the variables,
the cells or the constraints. So a model may be fed anew, or be compiled anew with other
weights, and every index keeps its meaning.
-/

namespace PseudoBoolean.Expr

variable {α β : Type} [Scalar α] [Scalar β] {d : Expr α} {e : Expr β}

theorem monomials_polynomial_of_skeleton_eq (h : d.skeleton = e.skeleton) :
    d.polynomial.monomials = e.polynomial.monomials := by
  rw [← monomials_polynomial_skeleton, h, monomials_polynomial_skeleton]

theorem mapValues_namedPolynomials_of_skeleton_eq (h : d.skeleton = e.skeleton) :
    (Table.ofList d.namedPolynomials).mapValues Polynomial.monomials
      = (Table.ofList e.namedPolynomials).mapValues Polynomial.monomials := by
  rw [mapValues_ofList_namedPolynomials, mapValues_ofList_namedPolynomials,
    ← namedMonomials_skeleton, h, namedMonomials_skeleton]

/-- Expressions with the same skeleton are compiled to the same pattern, under any options. -/
theorem pattern_of_skeleton_eq (h : d.skeleton = e.skeleton) (o : Options α) (o' : Options β) :
    let c := d.compilation o
    let c' := e.compilation o'
    let m := d.compile o
    let m' := e.compile o'
    (d.expand o.threshold).1.monomials = (e.expand o'.threshold).1.monomials ∧
    (d.expand o.threshold).2.mapValues Polynomial.monomials
      = (e.expand o'.threshold).2.mapValues Polynomial.monomials ∧
    c.steps = c'.steps ∧ m.order = m'.order ∧ m.form.entries.keys = m'.form.entries.keys ∧
    m.constraints.keys = m'.constraints.keys ∧
    m.constraints.mapValues Polynomial.monomials
      = m'.constraints.mapValues Polynomial.monomials := by
  intro c c' m m'
  have hpolynomial := monomials_polynomial_of_skeleton_eq h
  have hnamed := mapValues_namedPolynomials_of_skeleton_eq h
  obtain ⟨hquadratic, hsteps⟩ :=
    Polynomial.quadratize_congr hpolynomial o.strength o'.strength
  have hcells : m.form.entries.keys = m'.form.entries.keys := by
    rw [compile_form, compile_form]
    exact Qubo.keys_ofPolynomial_congr hquadratic degree_le_of_mem_quadratic
  have hconstraints : m.constraints.mapValues Polynomial.monomials
      = m'.constraints.mapValues Polynomial.monomials := by
    have hsteps' : d.steps o = e.steps o' := hsteps
    rw [compile_constraints, compile_constraints, Table.mapValues_extend, Table.mapValues_extend,
      hnamed, hsteps', monomials_auxiliaryConstraints _ o.strength o'.strength]
  have hlabels := congrArg Table.keys hconstraints
  rw [Table.keys_mapValues, Table.keys_mapValues] at hlabels
  refine ⟨?_, ?_, ?_, ?_, hcells, hlabels, hconstraints⟩
  · rw [expand_fst, expand_fst]
    exact hpolynomial
  · rw [expand_eq, expand_eq]
    exact hnamed
  · rw [compilation_steps, compilation_steps]
    exact hsteps
  · rw [Model.order, Model.order, QuadraticForm.diagonal, QuadraticForm.diagonal, hcells]

/-- A cubic term added to itself with a weight, and a limit on the weight. -/
def weighedCubics (w : Expr Float) : Expr Float :=
  let a := var .binary (.ofLabel 0 "a")
  let cubic := product (product a (var .spin (.ofLabel 1 "b"))) (var .binary (.ofLabel 2 "c"))
  .sum [cubic, .product w cubic, .constraint "limit" (.sum [w, a])]

/-- The terms may cancel, or the weight be no number at all. -/
theorem pattern_weighedCubics :
    let d := weighedCubics (.num (-1))
    let e := weighedCubics (.placeholder "w")
    let o : Options Float := ⟨.number (0 / 0), 1⟩
    let o' : Options Float := ⟨Weight.placeholder "m", 64⟩
    d.skeleton = e.skeleton ∧ (d.compilation o).steps = (e.compilation o').steps ∧
      (d.compile o).form.entries.keys = (e.compile o').form.entries.keys ∧
      (d.compile o).constraints.keys = (e.compile o').constraints.keys := by
  intro d e o o'
  have h : d.skeleton = e.skeleton := rfl
  obtain ⟨-, -, hsteps, -, hcells, hlabels, -⟩ := pattern_of_skeleton_eq h o o'
  exact ⟨h, hsteps, hcells, hlabels⟩

end PseudoBoolean.Expr
