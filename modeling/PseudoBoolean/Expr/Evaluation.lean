import PseudoBoolean.Expr.Basic
import PseudoBoolean.PowerProduct

/-! # Direct evaluation

An expression is evaluated from left to right, and the first label without a value is
the result. Nodes with names are worth their body, to which a penalty is added.
-/

namespace PseudoBoolean.Expr

variable {α : Type} [Scalar α]

def bitValue : Domain → Bool → α
  | _, true => 1
  | .spin, false => -1
  | .binary, false => 0

mutual

/-- The value of an expression, given the bits of its variables and the values of its
placeholders. -/
def eval (bits : String → Option Bool) (feed : Feed α) : Expr α → Except EvalError α
  | num x => .ok x
  | var d v =>
    match bits v.label with
    | some b => .ok (bitValue d b)
    | none => .error (.missingVariable v.label)
  | placeholder p =>
    match feed.find? p with
    | some x => .ok x
    | none => .error (.missingPlaceholder p)
  | product l r => do
    let x ← eval bits feed l
    let y ← eval bits feed r
    return x * y
  | sum terms => evalSum bits feed 0 terms
  | constraint _ e => eval bits feed e
  | named _ e => eval bits feed e
  | penalized _ e p => do
    let x ← eval bits feed e
    let y ← eval bits feed p
    return x + y

def evalSum (bits : String → Option Bool) (feed : Feed α) (x : α) :
    List (Expr α) → Except EvalError α
  | [] => .ok x
  | e :: rest => do
    let y ← eval bits feed e
    evalSum bits feed (x + y) rest

end

end PseudoBoolean.Expr
