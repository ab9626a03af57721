import Mathlib
import PseudoBoolean.Proofs.QuadraticForm.Feed
import PseudoBoolean.Proofs.QuadraticForm.Value
import PseudoBoolean.Proofs.Weight.Evaluation

/-! # Evaluation of quadratic forms

A feed that covers the placeholders of a form gives numbers for all its entries, and the
energy of these numbers at an assignment of bits is the value of the form. Settling the
weights of a polynomial settles its form.
-/

namespace PseudoBoolean.Qubo

open PowerProduct (wordValue)

variable {φ : PowerProduct → Rat} {feed : Feed Rat}

/-! ## Evaluated forms -/

/-- The form of the values of the weights. -/
def numbers (φ : PowerProduct → Rat) (f : Qubo Rat) : QuadraticForm String Rat :=
  ⟨f.entries.mapValues (Weight.value φ), f.offset.value φ⟩

theorem eval_of_covered {f : Qubo Rat} (hf : AllWeights (Weight.Covered feed) f) :
    f.eval feed = .ok (f.numbers (wordValue feed)) := by
  have hentries : (f.entries.entries.mapM fun e => do
      let x ← e.2.eval feed
      return (e.1, x))
      = (.ok (f.entries.mapValues (Weight.value (wordValue feed))).entries :
        Except EvalError (List (Cell String × Rat))) := by
    apply mapM_eq_ok
    intro e he
    rw [Weight.eval_of_covered (hf.entries e he)]
    rfl
  rw [eval, hentries, Weight.eval_of_covered hf.offset]
  show Except.ok (QuadraticForm.mk (Table.ofList (Table.entries _)) _) = _
  rw [Table.ofList_entries]
  rfl

theorem energy_numbers (z : String → Bool) (f : Qubo Rat) :
    (f.numbers φ).energy (fun l => bit (z l)) = f.value z φ := by
  have hfold := foldl_add_eq_sum
    (fun e : Cell String × Rat => e.2 * bit (z e.1.row) * bit (z e.1.col)) (f.offset.value φ)
    (f.entries.mapValues (Weight.value φ)).entries
  refine hfold.trans (congrArg (f.offset.value φ + ·) ?_)
  rw [Table.entries_mapValues, List.map_map]
  refine congrArg List.sum (List.map_congr_left fun e _ => ?_)
  rw [Function.comp_apply, bit_and]
  ring

/-! ## Settled forms -/

def settle (φ : PowerProduct → Rat) (f : Qubo Rat) : Qubo Rat :=
  ⟨f.entries.mapValues (Weight.settle φ), f.offset.settle φ⟩

theorem settle_addTerm (h1 : φ 1 = 1) (f : Qubo Rat) (m : Monomial) (w : Weight Rat) :
    (f.addTerm m w).settle φ = (f.settle φ).addTerm m (w.settle φ) := by
  have hentry : ∀ c, (f.addEntry c w).settle φ = (f.settle φ).addEntry c (w.settle φ) := by
    intro c
    rw [addEntry_eq, addEntry_eq, settle, Table.mapValues_add (Weight.settle_add h1)]
    rfl
  unfold addTerm
  split
  · rw [settle, Weight.settle_add h1]
    rfl
  · exact hentry _
  · exact hentry _
  · rfl

theorem settle_addTerms (h1 : φ 1 = 1) (f : Qubo Rat) (l : List (Monomial × Weight Rat)) :
    (f.addTerms l).settle φ
      = (f.settle φ).addTerms (l.map fun e => (e.1, e.2.settle φ)) := by
  induction l generalizing f with
  | nil => rfl
  | cons e rest ih =>
    rw [addTerms_cons, ih, settle_addTerm h1]
    rfl

theorem settle_fillDiagonal (f : Qubo Rat) :
    f.fillDiagonal.settle φ = (f.settle φ).fillDiagonal := by
  have hlabels : (f.settle φ).labels = f.labels := by
    rw [labels, labels, settle, Table.keys_mapValues]
  have hfold : ∀ (l : List String) (t : Table (Cell String) (Weight Rat)),
      (l.foldl (fun t a => t.insertNew ⟨a, a⟩ 0) t).mapValues (Weight.settle φ)
        = l.foldl (fun t a => t.insertNew ⟨a, a⟩ 0) (t.mapValues (Weight.settle φ)) := by
    intro l
    induction l with
    | nil => exact fun t => rfl
    | cons a rest ih =>
      intro t
      rw [List.foldl_cons, ih, Table.mapValues_insertNew]
      rfl
  rw [fillDiagonal, fillDiagonal, hlabels, settle, hfold]
  rfl

theorem settle_ofPolynomial (h1 : φ 1 = 1) (p : Polynomial Rat) :
    (ofPolynomial p).settle φ = ofPolynomial (p.settle φ) := by
  rw [ofPolynomial, settle_fillDiagonal, settle_addTerms h1]
  rfl

theorem numbers_settle (ψ : PowerProduct → Rat) (f : Qubo Rat) :
    (f.settle φ).numbers ψ = f.numbers φ := by
  rw [numbers, settle, Table.mapValues_mapValues]
  rfl

theorem covered_settle (f : Qubo Rat) : AllWeights (Weight.Covered feed) (f.settle φ) where
  entries := by
    intro e he
    obtain ⟨d, -, rfl⟩ := List.mem_map.mp he
    exact Weight.covered_number _
  offset := Weight.covered_number _

theorem diagonal_settle (f : Qubo Rat) : (f.settle φ).diagonal = f.diagonal := by
  rw [QuadraticForm.diagonal, QuadraticForm.diagonal, settle, Table.keys_mapValues]

end PseudoBoolean.Qubo
