import Mathlib
import PseudoBoolean.Proofs.Compilation
import PseudoBoolean.Proofs.Expr.Value
import PseudoBoolean.Proofs.QuadraticForm.Evaluation
import PseudoBoolean.Proofs.Quadratization.Value
import PseudoBoolean.Proofs.Solution

/-! # Energies of models

A solution that gives every variable of a model a bit is accepted, and its energy is the
value of the form. For a compiled expression this is the value of the quadratized
polynomial, and the value of the expression is that of the polynomial itself.
-/

namespace PseudoBoolean

open PowerProduct (wordValue)

/-- The solution that gives the variables of a model the bits of `z`. -/
def assignment (order : List String) (z : String → Bool) : Solution Rat :=
  .labels (Table.ofList (order.map fun l => (l, bit (z l))))

theorem find?_assignment (order : List String) (z : String → Bool) (l : String) :
    (Table.ofList (order.map fun l => (l, bit (z l)))).find? l
      = if l ∈ order then some (bit (z l)) else none :=
  Table.find?_ofList_map (fun l => bit (z l)) order l

theorem toBit?_bit (b : Bool) : Domain.toBit? .binary (bit b) = some (bit b) := by
  cases b <;> rfl

theorem bits_assignment (order : List String) (extra : String → Bool) (z : String → Bool) :
    (assignment order z).bits order extra .binary
      = .ok (Table.ofList (order.map fun l => (l, bit (z l)))) := by
  let table := Table.ofList (order.map fun l => (l, bit (z l)))
  have hentry : ∀ e ∈ table.entries, e.1 ∈ order ∧ e.2 = bit (z e.1) := by
    intro e he
    have hfind := find?_assignment order z e.1
    rw [Table.find?_eq_some_iff.mpr he] at hfind
    split at hfind
    · next hmem => exact ⟨hmem, Option.some.inj hfind⟩
    · cases hfind
  have hentries : (assignment order z).entries order extra = .ok (table.entries.map id) := by
    apply mapM_eq_ok
    intro e he
    rw [List.contains_iff_mem.mpr (hentry e he).1]
    rfl
  have hbits : table.entries.mapM (Solution.bit .binary) = .ok (table.entries.map id) := by
    apply mapM_eq_ok
    intro e he
    rw [Solution.bit, (hentry e he).2, toBit?_bit]
    exact congrArg Except.ok (Prod.ext rfl (hentry e he).2.symm)
  rw [List.map_id] at hentries hbits
  have hkeys : ∀ l ∈ order, l ∈ table.entries.map Prod.fst := by
    intro l hl
    have hmem : l ∈ table.keys := Table.mem_keys_ofList.mpr (by simpa using hl)
    exact hmem
  have haccepted := Solution.bits_eq_ok hentries hbits hkeys
  rw [Table.ofList_entries] at haccepted
  exact haccepted

namespace Model

variable {m : Model Rat} {feed : Feed Rat} {z : String → Bool}

theorem bitEnergy_eq {bits : Table String Rat} (hfeed : m.form.AllWeights (Weight.Covered feed))
    (horder : ∀ c ∈ m.form.entries.keys, c.row ∈ m.order ∧ c.col ∈ m.order)
    (hbits : ∀ l ∈ m.order, bits.find? l = some (bit (z l))) :
    m.bitEnergy bits feed = .ok (m.form.value z (wordValue feed)) := by
  rw [bitEnergy, toQubo, Qubo.eval_of_covered hfeed, ← Qubo.energy_numbers]
  refine congrArg Except.ok (QuadraticForm.energy_congr fun c hc => ?_)
  rw [Qubo.numbers, Table.keys_mapValues] at hc
  obtain ⟨hrow, hcol⟩ := horder c hc
  rw [hbits _ hrow, hbits _ hcol]
  exact ⟨rfl, rfl⟩

theorem energy_assignment (hfeed : m.form.AllWeights (Weight.Covered feed))
    (horder : ∀ c ∈ m.form.entries.keys, c.row ∈ m.order ∧ c.col ∈ m.order)
    (z : String → Bool) :
    m.energy .binary (assignment m.order z) feed = .ok (m.form.value z (wordValue feed)) := by
  have hbits : m.bits .binary (assignment m.order z)
      = .ok (Table.ofList (m.order.map fun l => (l, bit (z l)))) := bits_assignment m.order _ z
  rw [energy, hbits]
  apply bitEnergy_eq hfeed horder
  intro l hl
  rw [find?_assignment, if_pos hl]

end Model

namespace Expr

variable {feed : Feed Rat}

theorem covered_quadratic {o : Options Rat} {e : Expr Rat}
    (hfeed : ∀ p ∈ e.placeholders, p ∈ feed.keys) (hstrength : o.strength.Covered feed) :
    (e.quadratic o).AllWeights (Weight.Covered feed) := by
  have hscale : ∀ w x, Weight.Covered feed w → Weight.Covered feed (w.scale x) :=
    fun _ x hw => Weight.covered_scale hw x
  exact Polynomial.allWeights_quadratize (fun _ _ => Weight.covered_add) hscale hstrength
    (e.covered_expansion hfeed).1

theorem covered_form {o : Options Rat} {e : Expr Rat}
    (hfeed : ∀ p ∈ e.placeholders, p ∈ feed.keys) (hstrength : o.strength.Covered feed) :
    (e.compile o).form.AllWeights (Weight.Covered feed) := by
  rw [compile_form]
  exact Qubo.allWeights_ofPolynomial (Weight.covered_number 0) (fun _ _ => Weight.covered_add)
    (covered_quadratic hfeed hstrength) degree_le_of_mem_quadratic

/-- The energy of a compiled expression is the value of its quadratic polynomial. -/
theorem energy_compile {o : Options Rat} {e : Expr Rat}
    (hfeed : ∀ p ∈ e.placeholders, p ∈ feed.keys) (hstrength : o.strength.Covered feed)
    (z : String → Bool) :
    (e.compile o).energy .binary (assignment (e.compile o).order z) feed
      = .ok ((e.quadratic o).value z (wordValue feed)) := by
  rw [Model.energy_assignment (covered_form hfeed hstrength) mem_order_of_mem_form, compile_form,
    Qubo.value_ofPolynomial PowerProduct.wordValue_one degree_le_of_mem_quadratic]

theorem eval_eq_wordValue {e : Expr Rat} {bits : String → Option Bool} {z : String → Bool}
    (hfits : e.polynomial.AllWeights Weight.FitsWord)
    (hbits : ∀ l ∈ e.labels, bits l = some (z l))
    (hfeed : ∀ p ∈ e.placeholders, p ∈ feed.keys) :
    e.eval bits feed = .ok (e.polynomial.value z (wordValue feed)) := by
  rw [eval_eq_value e hbits hfeed]
  refine congrArg Except.ok (Polynomial.value_congr fun d hd => ?_)
  exact (Weight.value_eq_of_fitsWord (hfits d hd)).symm

end Expr

end PseudoBoolean
