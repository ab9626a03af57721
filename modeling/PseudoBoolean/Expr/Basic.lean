import PseudoBoolean.Variable

/-! # Expressions

Expressions over binary variables, spins and placeholders, as they are written down.
Sums are lists of terms. Three kinds of nodes carry names: constraints, which have to
become 0 in a valid solution, named parts, which mean what their body means, and bodies
with a penalty, which is added to the body and constrained to become 0.
-/

namespace PseudoBoolean

inductive Expr (α : Type) where
  | num (x : α)
  | var (domain : Domain) (v : Variable)
  | placeholder (label : String)
  | product (left right : Expr α)
  | sum (terms : List (Expr α))
  | constraint (label : String) (body : Expr α)
  | named (name : String) (body : Expr α)
  | penalized (label : String) (body penalty : Expr α)

namespace Expr

variable {α : Type}

/-- Induction where a sum may use the statement for each of its terms. -/
theorem induction {motive : Expr α → Prop}
    (num : ∀ x, motive (num x))
    (var : ∀ domain v, motive (var domain v))
    (placeholder : ∀ label, motive (placeholder label))
    (product : ∀ left right, motive left → motive right → motive (product left right))
    (sum : ∀ terms, (∀ e ∈ terms, motive e) → motive (sum terms))
    (constraint : ∀ label body, motive body → motive (constraint label body))
    (named : ∀ name body, motive body → motive (named name body))
    (penalized : ∀ label body penalty, motive body → motive penalty →
      motive (penalized label body penalty)) :
    ∀ e, motive e := by
  intro e
  refine @Expr.rec α motive (fun terms => ∀ e ∈ terms, motive e) num var placeholder product sum
    constraint named penalized (fun _ h => nomatch h) (fun e rest he hrest e' he' => ?_) e
  obtain rfl | he' := List.mem_cons.mp he'
  · exact he
  · exact hrest e' he'

end Expr

end PseudoBoolean
