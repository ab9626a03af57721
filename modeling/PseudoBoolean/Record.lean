import PseudoBoolean.Compilation
import PseudoBoolean.Model.Decoding

/-! # Log records

A compilation reports its stages, and decoding reports every broken constraint that it
finds, also where it fails later.
-/

namespace PseudoBoolean

/-- An event worth a line in a log. -/
inductive Record (α : Type) where
  | expanded (terms degree constraints : Nat)
  | reduced (s : Step)
  | compiled (entries : Nat)
  | broken (label : String) (penalty : α)

namespace Record

/-- The steps of a quadratization are of less interest than the other events. -/
def level {α : Type} : Record α → String
  | reduced _ => "TRACE"
  | _ => "DEBUG"

def text : Record Float → String
  | expanded terms degree constraints =>
    "expanded into " ++ toString terms ++ " terms of degree <= " ++ toString degree ++ ", "
      ++ toString constraints ++ " named constraints"
  | reduced s =>
    "reducing " ++ s.first ++ " and " ++ s.second ++ " into " ++ s.product ++ " ("
      ++ toString s.count ++ " terms)"
  | compiled entries => "compiled QUBO has " ++ toString entries ++ " entries"
  | broken label penalty =>
    "constraint " ++ label ++ " is broken (penalty " ++ NumberStyle.plain.write penalty ++ ")"

def line (r : Record Float) : String := r.level ++ " " ++ r.text

end Record

variable {α : Type} [Scalar α]

def Compilation.log (c : Compilation α) : List (Record α) :=
  .expanded c.expanded.size c.expanded.degree c.named.size
    :: c.steps.map .reduced ++ [.compiled c.model.form.size]

namespace Model

def decodeLog (m : Model α) (domain : Domain) (s : Solution α) (feed : Feed α) : List (Record α) :=
  match m.bits domain s with
  | .error _ => []
  | .ok bits => (m.audit bits feed).broken.map fun e => .broken e.1 e.2.penalty

def logUntilFailure (m : Model α) (domain : Domain) (feed : Feed α) :
    List (Sample α) → List (Record α)
  | [] => []
  | s :: rest =>
    m.decodeLog domain s.solution feed ++
      match m.decode domain s.solution feed with
      | .ok _ => logUntilFailure m domain feed rest
      | .error _ => []

def decodeSamplesLog (m : Model α) (domain : Domain) (k? : Option Nat)
    (samples : List (Sample α)) (feed : Feed α) : List (Record α) :=
  m.logUntilFailure domain feed (bestSamples k? samples)

end Model

end PseudoBoolean
