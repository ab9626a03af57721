import PseudoBoolean.Decoded
import PseudoBoolean.Model.Basic

/-! # Decoding

Decoding places the values of a solution under the paths of the layout and audits the
constraints. A constraint is broken where its polynomial is positive. A negative value
shows that it is no penalty, and ends the audit. Values within a billionth of 0 count as
rounding errors.
-/

namespace PseudoBoolean

/-- A constraint with a positive penalty, and the bits of its variables. -/
structure BrokenConstraint (α : Type) where
  bits : Table String α
  penalty : α

structure DecodedSolution (α : Type) where
  tree : Decoded α
  broken : Table String (BrokenConstraint α)
  energy : α

/-- The broken constraints up to the first failure, and the failure if there is one. -/
structure Audit (α : Type) where
  broken : List (String × BrokenConstraint α)
  failure? : Option (SolutionError α)

namespace Audit

variable {α : Type} [Scalar α]

/-- The distance from 0 up to which a penalty is a rounding error. -/
def tolerance : α := 1 / ((1000000000 : Nat) : α)

def restrict (bits : Table String α) (p : Polynomial α) : Table String α :=
  Table.ofList (p.labels.elems.filterMap fun label =>
    (bits.find? label).map fun b => (label, b))

def ofConstraints (bits : Table String α) (feed : Feed α) :
    List (String × Polynomial α) → Audit α
  | [] => ⟨[], none⟩
  | (label, p) :: rest =>
    match p.energy bits.find? feed with
    | .error e => ⟨[], some (.eval e)⟩
    | .ok penalty =>
      if penalty < -tolerance then ⟨[], some (.negativeConstraint label penalty)⟩
      else
        let audit := ofConstraints bits feed rest
        if tolerance < penalty then
          { audit with broken := (label, ⟨restrict bits p, penalty⟩) :: audit.broken }
        else audit

def result (a : Audit α) : Except (SolutionError α) (Table String (BrokenConstraint α)) :=
  match a.failure? with
  | some e => .error e
  | none => .ok (Table.ofList a.broken)

end Audit

namespace Model

variable {α : Type} [Scalar α]

/-- Judges the constraints of the model in ascending order of their labels. -/
def audit (m : Model α) (bits : Table String α) (feed : Feed α) : Audit α :=
  Audit.ofConstraints bits feed m.constraints.entries

/-- Places bits under the paths of the layout, in ascending order of the labels. -/
def place (m : Model α) (domain : Domain) (bits : Table String α) : Decoded α :=
  m.layout.entries.foldl
    (fun d e =>
      match bits.find? e.1 with
      | some b => d.insert (domain.ofBit b) e.2
      | none => d)
    ∅

/-- Reads a solution. The constraints are audited before the energy is taken. -/
def decode (m : Model α) (domain : Domain) (s : Solution α) (feed : Feed α) :
    Except (SolutionError α) (DecodedSolution α) := do
  let bits ← m.bits domain s
  let broken ← (m.audit bits feed).result
  let energy ← m.bitEnergy bits feed
  return ⟨m.place domain bits, broken, energy⟩

/-- The samples in ascending order of their reported energies, those with equal energies
in the order in which they came. -/
def rankSamples (samples : List (Sample α)) : List (Sample α) :=
  samples.mergeSort fun s t => (Binary64.rank s.energy t.energy).isLE

def bestSamples (k? : Option Nat) (samples : List (Sample α)) : List (Sample α) :=
  (rankSamples samples).take (k?.getD samples.length)

def decodeSamples (m : Model α) (domain : Domain) (k? : Option Nat) (samples : List (Sample α))
    (feed : Feed α) : Except (SolutionError α) (List (DecodedSolution α)) :=
  (bestSamples k? samples).mapM fun s => m.decode domain s.solution feed

end Model

end PseudoBoolean
