import PseudoBoolean.Expr.Expansion
import PseudoBoolean.Expr.Layout
import PseudoBoolean.Model.Basic
import PseudoBoolean.Quadratization.Basic

/-! # Compilation

An expression is expanded, quadratized and brought into a quadratic form. The model has
the named constraints of the expression and those of the auxiliary variables, which take
precedence over named ones of the same label.
-/

namespace PseudoBoolean

/-- Settings of a compilation. -/
structure Options (α : Type) where
  /-- Weight of the penalties of auxiliary variables. It has to be large enough that no
  wrong auxiliary value pays, and may depend on placeholders. -/
  strength : Weight α
  /-- The number of terms from which on a sum is long, so that its terms are expanded
  apart from each other. -/
  threshold : Nat

namespace Options

variable {α : Type} [Scalar α]

def standard : Options α := ⟨.number ((5 : Nat) : α), 64⟩

def withStrength (o : Options α) (strength : Weight α) : Options α := { o with strength }

/-- No sum without terms is made long. -/
def withThreshold (o : Options α) (threshold : Nat) : Options α :=
  { o with threshold := max threshold 1 }

end Options

structure Compilation (α : Type) where
  expanded : Polynomial α
  named : Constraints α
  steps : List Step
  model : Model α

namespace Expr

variable {α : Type} [Scalar α]

def compilation (o : Options α) (e : Expr α) : Compilation α :=
  let (expanded, table) := e.expand o.threshold
  let (quadratic, steps) := expanded.quadratize o.strength
  { expanded, named := table, steps
    model :=
      { form := Qubo.ofPolynomial quadratic
        layout := e.layout
        constraints := table.extend (auxiliaryConstraints o.strength steps) } }

def compile (o : Options α) (e : Expr α) : Model α := (e.compilation o).model

end Expr

end PseudoBoolean
