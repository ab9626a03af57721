import PseudoBoolean.Expr.Basic

/-! # The layout of an expression

An expression is surveyed from left to right, a body before its penalty. Each family joins
its layout to the one so far where it is first met, and its paths take precedence there.
Later members of the family are passed over.
-/

namespace PseudoBoolean

/-- The families that were met, and the layout that they make. -/
structure Survey where
  met : List Family
  layout : Layout

namespace Survey

def start : Survey := ⟨[], ∅⟩

def visit (s : Survey) (family : Family) : Survey :=
  if family ∈ s.met then s else ⟨family :: s.met, s.layout.extend family.layout⟩

end Survey

namespace Expr

variable {α : Type}

mutual

def survey (s : Survey) : Expr α → Survey
  | num _ | placeholder _ => s
  | var _ v => s.visit v.family
  | product l r => survey (survey s l) r
  | sum terms => surveyTerms s terms
  | constraint _ e | named _ e => survey s e
  | penalized _ e p => survey (survey s e) p

def surveyTerms (s : Survey) : List (Expr α) → Survey
  | [] => s
  | e :: rest => surveyTerms (survey s e) rest

end

def layout (e : Expr α) : Layout := (survey .start e).layout

end Expr

end PseudoBoolean
