import PseudoBoolean.Decimal.Style
import PseudoBoolean.Expr.Arithmetic
import PseudoBoolean.QuadraticForm.Basic

/-! # Printed expressions, weights and forms

`text` writes an expression as a formula, `listing` as its tree of nodes with their
fields. Weights are written term by term, and quadratic forms entry by entry.
-/

namespace PseudoBoolean

def Domain.text : Domain → String
  | .binary => "Binary"
  | .spin => "Spin"

namespace Expr

mutual

def text : Expr Float → String
  | num x => "Num(" ++ NumberStyle.plain.write x ++ ")"
  | var d v => d.text ++ "(" ++ v.label ++ ")"
  | placeholder p => "Placeholder(" ++ p ++ ")"
  | product l r => "(" ++ text l ++ "*" ++ text r ++ ")"
  | sum terms => "(" ++ String.intercalate "+" (texts terms) ++ ")"
  | constraint label e => "Constraint(" ++ label ++ ", " ++ text e ++ ")"
  | named name e => name ++ "(" ++ text e ++ ")"
  | penalized label e p =>
    "WithPenalty(" ++ text e ++ ", " ++ text p ++ ", " ++ label ++ ")"

def texts : List (Expr Float) → List String
  | [] => []
  | e :: rest => text e :: texts rest

end

mutual

/-- The tree of nodes with their fields. -/
def listing : Expr Float → String
  | num x => "Num(" ++ NumberStyle.listing.write x ++ ")"
  | var d v => d.text ++ "(" ++ v.label ++ ")"
  | placeholder p => "Placeholder(" ++ Text.quote p ++ ")"
  | product l r => "Mul(" ++ listing l ++ ", " ++ listing r ++ ")"
  | sum terms => "Add([" ++ String.intercalate ", " (listings terms) ++ "])"
  | constraint label e =>
    "Constraint \x7b label: " ++ Text.quote label ++ ", expr: " ++ listing e ++ " \x7d"
  | named name e =>
    "UserDefined \x7b name: " ++ Text.quote name ++ ", expr: " ++ listing e ++ " \x7d"
  | penalized label e p =>
    "WithPenalty \x7b label: " ++ Text.quote label ++ ", expr: " ++ listing e
      ++ ", penalty: " ++ listing p ++ " \x7d"

def listings : List (Expr Float) → List String
  | [] => []
  | e :: rest => listing e :: listings rest

end

end Expr

def BuildError.message : BuildError Float → String
  | .invalidPower exponent =>
    "power of " ++ NumberStyle.plain.write exponent
      ++ " cannot be taken, the exponent must be an integer >= 1"
  | .notDivisible divisor => "expression cannot be divided by " ++ divisor.text

/-! ## Weights and forms -/

/-- The terms of a coefficient, each as its factor times its power product. -/
def Coefficient.text (c : Coefficient Float) : String :=
  let terms := c.terms.entries.map fun e => NumberStyle.plain.write e.2 ++ "*" ++ e.1.text
  "Coefficient(" ++ String.intercalate " + " terms ++ ")"

def Weight.text : Weight Float → String
  | .number x => NumberStyle.listing.write x
  | .symbolic c => c.text

def Qubo.text (f : Qubo Float) : String :=
  let entries := f.entries.entries.map fun e =>
    "(" ++ e.1.row ++ ", " ++ e.1.col ++ "): " ++ e.2.text
  "CompiledQubo(\x7b" ++ String.intercalate ", " entries ++ "\x7d, offset=" ++ f.offset.text ++ ")"

end PseudoBoolean
