import PseudoBoolean.Compilation
import PseudoBoolean.Proofs.Expr.Polynomial
import PseudoBoolean.Proofs.QuadraticForm.Cells
import PseudoBoolean.Proofs.Quadratization.Run

/-! # Parts of a compilation

Compilation quadratizes the polynomial of an expression. What it leaves behind is told by
this polynomial, the named polynomials and the steps, for any kind of scalars.
-/

namespace PseudoBoolean.Expr

variable {α : Type} [Scalar α]

/-- The quadratic polynomial that an expression is compiled to. -/
def quadratic (o : Options α) (e : Expr α) : Polynomial α :=
  (e.polynomial.quadratize o.strength).1

def steps (o : Options α) (e : Expr α) : List Step := (e.polynomial.quadratize o.strength).2

theorem expand_fst (threshold : Nat) (e : Expr α) : (e.expand threshold).1 = e.polynomial := by
  rw [expand_eq]

theorem compilation_eq (o : Options α) (e : Expr α) :
    e.compilation o =
      { expanded := e.polynomial
        named := Table.ofList e.namedPolynomials
        steps := e.steps o
        model :=
          { form := Qubo.ofPolynomial (e.quadratic o)
            layout := e.layout
            constraints := (Table.ofList e.namedPolynomials).extend
              (auxiliaryConstraints o.strength (e.steps o)) } } := by
  unfold compilation
  rw [expand_eq]
  rfl

theorem compilation_steps (o : Options α) (e : Expr α) :
    (e.compilation o).steps = e.steps o := by
  rw [compilation_eq]

theorem compile_form (o : Options α) (e : Expr α) :
    (e.compile o).form = Qubo.ofPolynomial (e.quadratic o) := by
  rw [compile, compilation_eq]

theorem compile_constraints (o : Options α) (e : Expr α) :
    (e.compile o).constraints = (Table.ofList e.namedPolynomials).extend
      (auxiliaryConstraints o.strength (e.steps o)) := by
  rw [compile, compilation_eq]

/-- An expression whose polynomial is quadratic is compiled without auxiliary variables. -/
theorem compile_of_quadratic {o : Options α} {e : Expr α} (h : e.polynomial.nextStep? = none) :
    e.steps o = [] ∧ e.compile o =
      { form := Qubo.ofPolynomial e.polynomial
        layout := e.layout
        constraints := Table.ofList e.namedPolynomials } := by
  have hquadratize : e.polynomial.quadratize o.strength = (e.polynomial, []) :=
    Polynomial.quadratize_of_none h
  rw [compile, compilation_eq, quadratic, steps, hquadratize]
  exact ⟨rfl, rfl⟩

theorem degree_le_of_mem_quadratic {o : Options α} {e : Expr α} :
    ∀ m ∈ (e.quadratic o).monomials, m.degree ≤ 2 :=
  fun _ hm => Polynomial.degree_le_of_mem_quadratize hm

theorem mem_order_of_mem_form {o : Options α} {e : Expr α} :
    ∀ c ∈ (e.compile o).form.entries.keys,
      c.row ∈ (e.compile o).order ∧ c.col ∈ (e.compile o).order := by
  rw [Model.order, compile_form]
  exact fun c hc => Qubo.mem_diagonal_of_mem_ofPolynomial degree_le_of_mem_quadratic hc

/-- The variables of a model are those of the quadratic polynomial. -/
theorem mem_order {o : Options α} {e : Expr α} {l : String} :
    l ∈ (e.compile o).order ↔ l ∈ (e.quadratic o).labels := by
  rw [Model.order, compile_form]
  exact Qubo.mem_diagonal_ofPolynomial degree_le_of_mem_quadratic

end PseudoBoolean.Expr
