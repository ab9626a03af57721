import PseudoBoolean.Decimal.Style
import PseudoBoolean.Table
import PseudoBoolean.Variable

/-! # Solutions

A solver answers with the values of the variables: as a list in the order of the
variables, by label, or by index. A solution is accepted if it gives every variable of
the model a value of its domain and names nothing that the model does not know.
-/

namespace PseudoBoolean

inductive Solution (α : Type) where
  | list (values : List α)
  | labels (values : Table String α)
  | indices (values : Table Nat α)

/-- Why a solution is not accepted, or why it cannot be judged. -/
inductive SolutionError (α : Type) where
  | unknownLabel (label : String)
  | unknownIndex (index : Nat)
  | lengthMismatch (expected got : Nat)
  | outsideDomain (label : String) (value : α)
  | negativeConstraint (label : String) (energy : α)
  | eval (e : EvalError)

def SolutionError.message : SolutionError Float → String
  | .unknownLabel label => "variable `" ++ label ++ "` is not part of the model"
  | .unknownIndex index => "variable `" ++ toString index ++ "` is not part of the model"
  | .lengthMismatch expected got =>
    "solution has " ++ toString got ++ " variables, but the model has " ++ toString expected
  | .outsideDomain label value =>
    "value " ++ NumberStyle.plain.write value ++ " of `" ++ label
      ++ "` is outside the domain of the variable type"
  | .negativeConstraint label energy =>
    "energy of constraint `" ++ label ++ "` is " ++ NumberStyle.plain.write energy
      ++ ", but constraint energies must not be negative"
  | .eval e => e.message

namespace Solution

variable {α : Type}

/-- The values by label, where `order` lists the variables of the model. A solution by
label may also name the labels in `extra`. The order of a model is strictly ascending
(`Model.Regular.ascending`), so a label is a member of it exactly if a binary search finds
it there. -/
def entries (order : List String) (extra : String → Bool) :
    Solution α → Except (SolutionError α) (List (String × α))
  | list values =>
    if values.length = order.length then .ok (order.zip values)
    else .error (.lengthMismatch order.length values.length)
  | labels values =>
    values.entries.mapM fun e =>
      if order.contains e.1 || extra e.1 then .ok e else .error (.unknownLabel e.1)
  | indices values =>
    values.entries.mapM fun e =>
      match order[e.1]? with
      | some label => .ok (label, e.2)
      | none => .error (.unknownIndex e.1)

def bit [Scalar α] (domain : Domain) (e : String × α) : Except (SolutionError α) (String × α) :=
  match domain.toBit? e.2 with
  | some b => .ok (e.1, b)
  | none => .error (.outsideDomain e.1 e.2)

/-- The bits by label. Unknown names are found first, then values outside the domain,
and variables without a value last. -/
def bits [Scalar α] (order : List String) (extra : String → Bool) (domain : Domain)
    (s : Solution α) : Except (SolutionError α) (Table String α) := do
  let entries ← s.entries order extra
  let bits ← entries.mapM (bit domain)
  let table := Table.ofList bits
  let assigned := (order.filter table.contains).length
  if assigned = order.length then return table
  else .error (.lengthMismatch order.length assigned)

end Solution

/-- A solution with the energy that the solver reported for it. -/
structure Sample (α : Type) where
  solution : Solution α
  /-- The bits of a double. It is only ranked, and even values that are not numbers are told
  apart by their bits then. -/
  energy : UInt64

end PseudoBoolean
