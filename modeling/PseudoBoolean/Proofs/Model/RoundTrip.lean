import Mathlib
import PseudoBoolean.Proofs.Expr.Labels
import PseudoBoolean.Proofs.Model.Energy
import PseudoBoolean.Proofs.Quadratization.Labels

/-! # The round trip through a model

A compiled expression has the energy that the expression has by itself, at the solution
where every auxiliary variable is the product that its label names. The strength of the
penalties plays no part there.
-/

namespace PseudoBoolean.Expr

open PowerProduct (wordValue)

variable {o : Options Rat} {e : Expr Rat}

theorem star_not_mem_polynomial (hstar : ∀ l ∈ e.labels, ¬ '*' ∈ l.toList) :
    ∀ m ∈ e.polynomial.monomials, ∀ l ∈ m.labels, ¬ '*' ∈ l.toList :=
  fun _ hm l hl => hstar l (mem_labels_of_mem_polynomial e hm hl)

theorem holds_all_labelParts (x : String → Bool) :
    ∀ s ∈ e.steps o, s.Holds fun l => (labelParts l).all x := by
  intro s hs
  have hproper := (Polynomial.reaches_quadratize e.polynomial).proper s hs
  rw [Step.Holds, hproper.product, all_labelParts_auxiliaryLabel]

theorem mem_labels_of_mem_order (hstar : ∀ l ∈ e.labels, ¬ '*' ∈ l.toList) {l x : String}
    (hl : l ∈ (e.compile o).order) (hx : x ∈ labelParts l) : x ∈ e.labels := by
  obtain ⟨m, hm, hlm⟩ := Polynomial.mem_labels.mp (mem_order.mp hl)
  have hf : ∀ m ∈ e.polynomial.monomials, ∀ l ∈ m.labels, ¬ '*' ∈ l.toList ∧ l ∈ e.labels :=
    fun m hm l hl => ⟨star_not_mem_polynomial hstar m hm l hl,
      mem_labels_of_mem_polynomial e hm hl⟩
  exact (Polynomial.reaches_quadratize e.polynomial).labelParts_mem hf m hm l hlm x hx

/-- Compilation keeps the energy. Every variable of the model is a product of variables
that have bits, and at these products the model has the value of the expression. -/
theorem energy_compile_eq_eval (o : Options Rat) (e : Expr Rat) (bits : String → Option Bool)
    (feed : Feed Rat) {v s : Rat} (hstar : ∀ l ∈ e.labels, ¬ '*' ∈ l.toList)
    (hfits : (e.expand o.threshold).1.AllWeights Weight.FitsWord)
    (heval : e.eval bits feed = .ok v) (hstrength : o.strength.eval feed = .ok s) :
    let order := (e.compile o).order
    (∀ l ∈ order, ∀ x ∈ labelParts l, ∃ b, bits x = some b) ∧
      (e.compile o).energy .binary
        (assignment order fun l => (labelParts l).all fun x => (bits x).getD false) feed =
          .ok v := by
  intro order
  have hplaceholders := placeholders_covered_of_eval heval
  constructor
  · intro l hl x hx
    exact labels_covered_of_eval heval x (mem_labels_of_mem_order hstar hl hx)
  · let z : String → Bool := fun l => (labelParts l).all fun x => (bits x).getD false
    -- A label without a star is its only part, so `z` agrees with the bits there.
    have hbits : ∀ l ∈ e.labels, bits l = some (z l) := by
      intro l hl
      obtain ⟨b, hb⟩ := labels_covered_of_eval heval l hl
      have hz : z l = b := by
        show (labelParts l).all _ = b
        rw [labelParts_eq_singleton (hstar l hl), List.all_cons, List.all_nil, Bool.and_true, hb]
        rfl
      rw [hz, hb]
    have hquadratic : (e.quadratic o).value z (wordValue feed)
        = e.polynomial.value z (wordValue feed) :=
      Polynomial.value_quadratize PowerProduct.wordValue_one (holds_all_labelParts _)
    rw [expand_fst] at hfits
    rw [eval_eq_wordValue hfits hbits hplaceholders] at heval
    rw [energy_compile hplaceholders (Weight.covered_of_eval hstrength)]
    exact congrArg Except.ok (hquadratic.trans (Except.ok.inj heval))

def weightedQuartic : Expr Rat :=
  .sum [.product
      (.product (.product (.var .binary (.ofLabel 0 "a")) (.var .binary (.ofLabel 1 "b")))
        (.product (.var .binary (.ofLabel 2 "c")) (.var .binary (.ofLabel 3 "d"))))
      (.placeholder "w"),
    .product (.num (-1)) (.var .spin (.ofLabel 0 "a"))]

def quarticPair : Step := ⟨"a", "b", "a*b", 1⟩

/-- The step after `quarticPair`, whose auxiliary variable is a factor of it. -/
def quarticNested : Step := ⟨"a*b", "c", "a*b*c", 1⟩

def quarticQuadratic : Polynomial Rat :=
  (weightedQuartic.polynomial.apply Options.standard.strength quarticPair).apply
    Options.standard.strength quarticNested

def quarticModel : Model Rat where
  form := Qubo.ofPolynomial quarticQuadratic
  layout := weightedQuartic.layout
  constraints := auxiliaryConstraints Options.standard.strength [quarticPair, quarticNested]

theorem compile_weightedQuartic :
    weightedQuartic.steps .standard = [quarticPair, quarticNested] ∧
      weightedQuartic.compile .standard = quarticModel := by
  have hpair : weightedQuartic.polynomial.nextStep? = some quarticPair := by cbv
  have hnested : (weightedQuartic.polynomial.apply Options.standard.strength
      quarticPair).nextStep? = some quarticNested := by cbv
  have hlast : quarticQuadratic.nextStep? = none := by cbv
  have hquadratize : weightedQuartic.polynomial.quadratize Options.standard.strength =
      (quarticQuadratic, [quarticPair, quarticNested]) :=
    ((Polynomial.Reaches.start.step hpair).step hnested).quadratize_eq hlast
  rw [compile, compilation_eq, quadratic, steps, hquadratize]
  exact ⟨rfl, rfl⟩

theorem energy_weightedQuartic :
    let bits : String → Option Bool := fun l => some (l != "d")
    let order := (weightedQuartic.compile .standard).order
    (weightedQuartic.compile .standard).energy .binary
      (assignment order fun l => (labelParts l).all fun x => (bits x).getD false)
      (Table.single "w" 3) = .ok (-1) := by
  have hfits : (weightedQuartic.expand 64).1.AllWeights Weight.FitsWord := by
    decide +kernel
  exact (energy_compile_eq_eval .standard weightedQuartic (fun l => some (l != "d"))
    (Table.single "w" 3) (by decide) hfits (by decide +kernel) (by rfl)).2

end PseudoBoolean.Expr
