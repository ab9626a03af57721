import Mathlib
import PseudoBoolean.Proofs.Model.Audit
import PseudoBoolean.Proofs.Model.Energy
import PseudoBoolean.Proofs.Polynomial.Evaluation
import PseudoBoolean.Proofs.Scalar.Bits

/-! # The bits of accepted solutions

An accepted solution gives every variable of the model the bit 0 or 1. Polynomials and
models are evaluated at these numbers, expressions at the Booleans that they stand for.
-/

namespace PseudoBoolean

theorem Domain.eq_zero_or_one_of_toBit? {domain : Domain} {x b : Rat}
    (h : domain.toBit? x = some b) : b = 0 ∨ b = 1 :=
  (LawfulBits.zero_or_one_of_toBit? h).imp of_decide_eq_true of_decide_eq_true

/-- Whether a table gives bits, and one to each variable in `order`. -/
structure BitsOf (order : List String) (bits : Table String Rat) : Prop where
  zero_or_one : bits.AllValues fun x => x = 0 ∨ x = 1
  assigned : ∀ l ∈ order, l ∈ bits.keys

theorem Solution.bitsOf {order : List String} {extra : String → Bool} {domain : Domain}
    {s : Solution Rat} {bits : Table String Rat} (h : s.bits order extra domain = .ok bits) :
    BitsOf order bits := by
  refine ⟨Table.allValues_iff.mpr fun l b hb => ?_, mem_keys_of_bits h⟩
  obtain ⟨x, hx⟩ := exists_toBit?_of_bits h hb
  exact Domain.eq_zero_or_one_of_toBit? hx

/-- The Boolean that a label has in a table of bits. -/
def bitAt (bits : Table String Rat) (l : String) : Option Bool :=
  (bits.find? l).map fun x => decide (x = 1)

/-- Some assignment of Booleans to all labels has the bits of a solution. -/
theorem BitsOf.exists_assignment {order : List String} {bits : Table String Rat}
    (h : BitsOf order bits) :
    ∃ z : String → Bool, ∀ l ∈ bits.keys,
      bitAt bits l = some (z l) ∧ bits.find? l = some (bit (z l)) := by
  refine ⟨fun l => (bitAt bits l).getD false, fun l hl => ?_⟩
  obtain ⟨x, hx⟩ := Table.mem_keys_iff.mp hl
  simp only [bitAt, hx, Option.map_some, Option.getD_some, true_and]
  obtain rfl | rfl := Table.allValues_iff.mp h.zero_or_one l x hx
  · rfl
  · rfl

theorem Model.exists_assignment {m : Model Rat} {domain : Domain} {s : Solution Rat}
    {bits : Table String Rat} (h : m.bits domain s = .ok bits) :
    ∃ z : String → Bool, ∀ l ∈ m.order,
      bitAt bits l = some (z l) ∧ bits.find? l = some (bit (z l)) := by
  obtain ⟨z, hz⟩ := (Solution.bitsOf h).exists_assignment
  exact ⟨z, fun l hl => hz l ((Solution.bitsOf h).assigned l hl)⟩

theorem Model.covered_of_bitEnergy {m : Model Rat} {bits : Table String Rat} {feed : Feed Rat}
    {x : Rat} (h : m.bitEnergy bits feed = .ok x) :
    m.form.AllWeights (Weight.Covered feed) := by
  rw [bitEnergy] at h
  split at h
  · next q hq => exact Qubo.covered_of_eval hq
  · cases h

end PseudoBoolean
