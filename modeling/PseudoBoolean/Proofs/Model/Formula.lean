import Mathlib
import PseudoBoolean.Proofs.Expr.Agreement
import PseudoBoolean.Proofs.Formula
import PseudoBoolean.Proofs.Model.Bits
import PseudoBoolean.Proofs.Model.Minimum

/-! # Formulas in a model

A formula is compiled to a model that is worth its truth value at every assignment where
the auxiliary variables are the products that they stand for. No strength of the penalties
changes this, since all penalties are 0 there.
-/

namespace PseudoBoolean

namespace Model

variable {m : Model Rat} {feed : Feed Rat}

/-- An energy that there is at all is the value of the form. -/
theorem eq_value_of_energy_assignment
    (horder : ∀ c ∈ m.form.entries.keys, c.row ∈ m.order ∧ c.col ∈ m.order) {z : String → Bool}
    {v : Rat} (h : m.energy .binary (assignment m.order z) feed = .ok v) :
    v = m.form.value z (PowerProduct.wordValue feed) := by
  obtain ⟨bits, -, henergy⟩ := bind_eq_ok h
  rw [energy_assignment (covered_of_bitEnergy henergy) horder] at h
  exact (Except.ok.inj h).symm

end Model

namespace Formula

open PowerProduct (wordValue)

variable {z : String → Bool} {bits : String → Option Bool} {feed : Feed Rat}

theorem value_polynomial_toExpr (f : Formula) (z : String → Bool) (feed : Feed Rat) :
    (f.toExpr : Expr Rat).polynomial.value z (wordValue feed) = bit (f.truth z) := by
  have hwhole := f.whole_toExpr
  have heval : (f.toExpr : Expr Rat).eval (fun l => some (z l)) feed = .ok (bit (f.truth z)) :=
    f.eval_toExpr fun _ _ => rfl
  rw [Expr.eval_eq_wordValue hwhole.fitsWord_polynomial (fun _ _ => rfl)
    fun p hp => absurd hp (hwhole.not_mem_placeholders p)] at heval
  exact Except.ok.inj heval

section
variable {o : Options Rat} {f : Formula} {y : String → Bool}
  (hholds : ∀ t ∈ (f.toExpr : Expr Rat).steps o, t.Holds y)
include hholds

theorem value_quadratic_toExpr :
    ((f.toExpr : Expr Rat).quadratic o).value y (wordValue feed) = bit (f.truth y) :=
  (Expr.quadratic_of_holds hholds).trans (f.value_polynomial_toExpr y feed)

theorem eq_truth_of_energy {v : Rat}
    (h : ((f.toExpr : Expr Rat).compile o).energy .binary
      (assignment ((f.toExpr : Expr Rat).compile o).order y) feed = .ok v) :
    v = bit (f.truth y) := by
  rw [Model.eq_value_of_energy_assignment Expr.mem_order_of_mem_form h, Expr.compile_form,
    Qubo.value_ofPolynomial PowerProduct.wordValue_one Expr.degree_le_of_mem_quadratic,
    value_quadratic_toExpr hholds]

theorem energy_toExpr {s : Rat} (hs : o.strength.eval feed = .ok s) :
    ((f.toExpr : Expr Rat).compile o).energy .binary
      (assignment ((f.toExpr : Expr Rat).compile o).order y) feed = .ok (bit (f.truth y)) := by
  have hwhole := f.whole_toExpr
  rw [Expr.energy_compile (fun p hp => absurd hp (hwhole.not_mem_placeholders p))
    (Weight.covered_of_eval hs), value_quadratic_toExpr hholds]

end

/-- The value of a formula is its truth value: evaluated as it is, after expansion to
a polynomial with whole weights, and as the energy of a model, whatever the strength of
its penalties, where the auxiliary variables are the products that they stand for. Where
no label has a star, they are so at the products of the variables in their labels. -/
theorem truth_compile (f : Formula) (z : String → Bool) (bits : String → Option Bool)
    (feed : Feed Rat) (hbits : ∀ l ∈ f.labels, bits l = some (z l)) :
    let e : Expr Rat := f.toExpr
    e.eval bits feed = .ok (bit (f.truth z)) ∧
      (∀ threshold, (e.expand threshold).1.AllWeights Weight.IsWhole ∧
        (e.expand threshold).1.energy (Expr.numbersOf bits) feed = .ok (bit (f.truth z))) ∧
      ∀ o : Options Rat,
        let m := e.compile o
        let steps := (e.compilation o).steps
        (∀ y : String → Bool, (∀ l ∈ f.labels, y l = z l) → (∀ t ∈ steps, t.Holds y) →
          (∀ v, m.energy .binary (assignment m.order y) feed = .ok v → v = bit (f.truth z)) ∧
          ∀ s, o.strength.eval feed = .ok s →
            m.energy .binary (assignment m.order y) feed = .ok (bit (f.truth z))) ∧
        ((∀ l ∈ f.labels, ¬ '*' ∈ l.toList) →
          (∀ l ∈ f.labels, (labelParts l).all z = z l) ∧
            ∀ t ∈ steps, t.Holds fun l => (labelParts l).all z) := by
  intro e
  have hwhole : e.Whole := f.whole_toExpr
  have hvalue : e.eval bits feed = .ok (bit (f.truth z)) := f.eval_toExpr hbits
  refine ⟨hvalue, fun threshold => ?_, fun o => ?_⟩
  · rw [Expr.expand_fst]
    refine ⟨hwhole.allWeights_polynomial, ?_⟩
    rw [(Expr.supplied_of_eval hvalue).energy_eq_eval hwhole.fitsWord_polynomial, hvalue]
  · intro m steps
    rw [show steps = e.steps o from Expr.compilation_steps o e]
    refine ⟨fun y hy hholds => ?_, fun hstar => ⟨fun l hl => ?_, Expr.holds_all_labelParts z⟩⟩
    · rw [← f.truth_congr hy]
      exact ⟨fun v hv => eq_truth_of_energy hholds hv, fun s hs => energy_toExpr hholds hs⟩
    · rw [labelParts_eq_singleton (hstar l hl), List.all_cons, List.all_nil, Bool.and_true]

/-- "b", unless "a" and "c" hold as well. The products of "a" and "b" cancel, that of all
three remains. -/
def unlessBoth : Formula :=
  let a := var (.ofLabel 0 "a")
  let b := var (.ofLabel 1 "b")
  let c := var (.ofLabel 2 "c")
  xor (and a b) (and (or (not a) c) b)

theorem truth_compile_unlessBoth :
    let z : String → Bool := fun l => l != "c"
    let feed : Feed Rat := Table.single "strength" (-7)
    let o : Options Rat := ⟨Weight.placeholder "strength", 64⟩
    let e : Expr Rat := unlessBoth.toExpr
    let m := e.compile o
    e.eval (fun l => some (z l)) feed = .ok 1 ∧
      (e.expand 64).1.AllWeights Weight.IsWhole ∧
      (e.expand 64).1.energy (Expr.numbersOf fun l => some (z l)) feed = .ok 1 ∧
      (e.compilation o).steps.length = 1 ∧
      m.energy .binary (assignment m.order fun l => (labelParts l).all z) feed = .ok 1 := by
  intro z feed o e m
  obtain ⟨hvalue, hexpanded, hcompiled⟩ :=
    truth_compile unlessBoth z (fun l => some (z l)) feed fun _ _ => rfl
  obtain ⟨hweights, henergy⟩ := hexpanded 64
  obtain ⟨hmodel, hproducts⟩ := hcompiled o
  obtain ⟨hlabels, hholds⟩ := hproducts (by decide +kernel)
  exact ⟨hvalue, hweights, henergy, by cbv,
    (hmodel _ hlabels hholds).2 (-7) (by decide +kernel)⟩

end Formula

end PseudoBoolean
