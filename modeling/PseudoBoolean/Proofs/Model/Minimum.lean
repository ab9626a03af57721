import Mathlib
import PseudoBoolean.Proofs.Model.RoundTrip
import PseudoBoolean.Proofs.Quadratization.Gap

/-! # Minima of models

With a strength of at least the coupling of the expanded expression, no wrong auxiliary
value pays: the least energy over the auxiliary variables is the value of the expression.
With a greater strength it is attained only where every auxiliary variable is its product.
-/

namespace PseudoBoolean

open PowerProduct (wordValue)

variable {feed : Feed Rat}

namespace Polynomial

/-- The evaluated weights of the monomials of degree at least 2, as the sum of their
absolute values. -/
def evalCoupling (feed : Feed Rat) (p : Polynomial Rat) : Except EvalError Rat := do
  let weights ← (p.terms.entries.filter fun e => 2 ≤ e.1.degree).mapM fun e => e.2.eval feed
  return (weights.map fun w => |w|).sum

theorem evalCoupling_of_covered {p : Polynomial Rat} (hp : p.AllWeights (Weight.Covered feed)) :
    evalCoupling feed p = .ok (coupling (wordValue feed) p.terms.entries) := by
  have hweights : ((p.terms.entries.filter fun e => 2 ≤ e.1.degree).mapM fun e => e.2.eval feed)
      = (.ok ((p.terms.entries.filter fun e => 2 ≤ e.1.degree).map
        fun e => e.2.value (wordValue feed)) : Except EvalError (List Rat)) := by
    apply mapM_eq_ok
    exact fun e he => Weight.eval_of_covered (hp e (List.mem_filter.mp he).1)
  rw [evalCoupling, hweights]
  show Except.ok (List.map _ (List.map _ _)).sum = _
  rw [List.map_map]
  rfl

end Polynomial

namespace Expr

variable {o : Options Rat} {e : Expr Rat} {s : Rat}

theorem stage_steps (hstar : ∀ l ∈ e.labels, ¬ '*' ∈ l.toList) :
    Polynomial.Stage o.strength e.polynomial (e.steps o) (e.quadratic o) :=
  (Polynomial.reaches_quadratize e.polynomial).stage (star_not_mem_polynomial hstar)

theorem all_labelParts_of_mem_labels (hstar : ∀ l ∈ e.labels, ¬ '*' ∈ l.toList)
    (x : String → Bool) {l : String} (hl : l ∈ e.labels) : (labelParts l).all x = x l := by
  rw [labelParts_eq_singleton (hstar l hl), List.all_cons, List.all_nil, Bool.and_true]

theorem value_polynomial_congr {x z : String → Bool} (hzx : ∀ l ∈ e.labels, z l = x l) :
    e.polynomial.value z (wordValue feed) = e.polynomial.value x (wordValue feed) :=
  Polynomial.value_eq_of_agree fun _ hm l hl => hzx l (mem_labels_of_mem_polynomial e hm hl)

theorem quadratic_of_holds {z : String → Bool} (hz : ∀ s ∈ e.steps o, s.Holds z) :
    (e.quadratic o).value z (wordValue feed) = e.polynomial.value z (wordValue feed) :=
  Polynomial.value_quadratize PowerProduct.wordValue_one hz

section
variable (hstar : ∀ l ∈ e.labels, ¬ '*' ∈ l.toList) (hstrength : o.strength.eval feed = .ok s)

include hstar hstrength in
theorem quadratic_of_not_holds
    (hcoupling : Polynomial.coupling (wordValue feed) e.polynomial.terms.entries ≤ s)
    {z : String → Bool} {t : Step} (ht : t ∈ e.steps o) (hz : ¬ t.Holds z) :
    e.polynomial.value z (wordValue feed)
        - Polynomial.coupling (wordValue feed) e.polynomial.terms.entries + s
      ≤ (e.quadratic o).value z (wordValue feed) := by
  have hvalue := Weight.value_of_eval hstrength
  have hnonneg : 0 ≤ o.strength.value (wordValue feed) := by
    rw [hvalue]
    exact (Polynomial.coupling_nonneg _).trans hcoupling
  have hgap := (stage_steps hstar).le_value_of_not_holds PowerProduct.wordValue_one hnonneg ht hz
  rw [hvalue] at hgap
  exact hgap

include hstar hstrength in
theorem value_le_quadratic
    (hcoupling : Polynomial.coupling (wordValue feed) e.polynomial.terms.entries ≤ s)
    (z : String → Bool) :
    e.polynomial.value z (wordValue feed) ≤ (e.quadratic o).value z (wordValue feed) := by
  by_cases hz : ∀ t ∈ e.steps o, t.Holds z
  · exact (quadratic_of_holds hz).ge
  · obtain ⟨t, ht, hzt⟩ := by simpa only [not_forall] using hz
    have hgap := quadratic_of_not_holds hstar hstrength hcoupling ht hzt
    linarith

include hstar hstrength in
theorem holds_of_quadratic_eq
    (hcoupling : Polynomial.coupling (wordValue feed) e.polynomial.terms.entries < s)
    {z : String → Bool}
    (hz : (e.quadratic o).value z (wordValue feed) = e.polynomial.value z (wordValue feed)) :
    ∀ t ∈ e.steps o, t.Holds z := by
  intro t ht
  apply Classical.byContradiction
  intro hzt
  have hgap := quadratic_of_not_holds hstar hstrength hcoupling.le ht hzt
  linarith

include hstar in
theorem exists_quadratic_eq (o : Options Rat) (x : String → Bool) :
    ∃ z, (∀ l ∈ e.labels, z l = x l) ∧
      (e.quadratic o).value z (wordValue feed) = e.polynomial.value x (wordValue feed) := by
  have hlabels : ∀ l ∈ e.labels, (labelParts l).all x = x l :=
    fun _ hl => all_labelParts_of_mem_labels hstar x hl
  refine ⟨fun l => (labelParts l).all x, hlabels, ?_⟩
  rw [quadratic_of_holds (holds_all_labelParts x), value_polynomial_congr hlabels]

include hstar hstrength in
theorem isLeast_quadratic_of_labels
    (hcoupling : Polynomial.coupling (wordValue feed) e.polynomial.terms.entries ≤ s)
    (x : String → Bool) :
    IsLeast {y | ∃ z, (∀ l ∈ e.labels, z l = x l) ∧ (e.quadratic o).value z (wordValue feed) = y}
      (e.polynomial.value x (wordValue feed)) := by
  constructor
  · exact exists_quadratic_eq hstar o x
  · rintro y ⟨z, hzx, rfl⟩
    rw [← value_polynomial_congr hzx]
    exact value_le_quadratic hstar hstrength hcoupling z

include hstar hstrength in
theorem exists_isLeast_quadratic
    (hcoupling : Polynomial.coupling (wordValue feed) e.polynomial.terms.entries ≤ s) :
    ∃ v, IsLeast {y | ∃ x, e.polynomial.value x (wordValue feed) = y} v ∧
      IsLeast {y | ∃ z, (e.quadratic o).value z (wordValue feed) = y} v := by
  -- There are infinitely many labels to assign, but only finitely many values.
  obtain ⟨x, hx⟩ : ∃ x : String → Bool, ∀ z, e.polynomial.value x (wordValue feed)
      ≤ e.polynomial.value z (wordValue feed) := Polynomial.exists_least_value e.polynomial
  refine ⟨e.polynomial.value x (wordValue feed), ⟨⟨x, rfl⟩, ?_⟩, ?_, ?_⟩
  · rintro y ⟨x', rfl⟩
    exact hx x'
  · obtain ⟨z, -, hz⟩ := exists_quadratic_eq hstar o x
    exact ⟨z, hz⟩
  · rintro y ⟨z, rfl⟩
    exact (hx z).trans (value_le_quadratic hstar hstrength hcoupling z)

include hstar hstrength in
theorem eq_all_labelParts_of_quadratic_eq
    (hcoupling : Polynomial.coupling (wordValue feed) e.polynomial.terms.entries < s)
    {x z : String → Bool} (hzx : ∀ l ∈ e.labels, z l = x l)
    (hz : (e.quadratic o).value z (wordValue feed) = e.polynomial.value x (wordValue feed))
    {l : String} (hl : l ∈ (e.compile o).order) : z l = (labelParts l).all x := by
  rw [← value_polynomial_congr hzx] at hz
  have hholds := holds_of_quadratic_eq hstar hstrength hcoupling hz
  obtain ⟨m, hm, hlm⟩ := Polynomial.mem_labels.mp (mem_order.mp hl)
  have hproduct := (Polynomial.reaches_quadratize e.polynomial).eq_all_labelParts hholds
    (star_not_mem_polynomial hstar) m hm l hlm
  rw [hproduct, Bool.eq_iff_iff, List.all_eq_true, List.all_eq_true]
  apply forall₂_congr
  intro y hy
  rw [hzx y (mem_labels_of_mem_order hstar hl hy)]

end

/-- With a strength `s` of at least the coupling `M`, the model has the minima of the
expression, over all variables and over the auxiliary ones for each assignment of the
others. With a strength above `M`, every auxiliary variable of a minimum is the product
of the variables in its label. -/
theorem isLeast_energy_compile (o : Options Rat) (e : Expr Rat) (feed : Feed Rat) {s : Rat}
    (hstar : ∀ l ∈ e.labels, ¬ '*' ∈ l.toList)
    (hfits : (e.expand o.threshold).1.AllWeights Weight.FitsWord)
    (hfeed : ∀ p ∈ e.placeholders, p ∈ feed.keys) (hstrength : o.strength.eval feed = .ok s) :
    let order := (e.compile o).order
    let value := fun x : String → Bool => e.eval (fun l => some (x l)) feed
    let energy := fun z : String → Bool => (e.compile o).energy .binary (assignment order z) feed
    (∀ z, ∃ y, energy z = .ok y) ∧
    ∃ M, Polynomial.evalCoupling feed (e.expand o.threshold).1 = .ok M ∧
      (M ≤ s →
        (∀ x, ∃ v, value x = .ok v ∧
          IsLeast {y | ∃ z, (∀ l ∈ e.labels, z l = x l) ∧ energy z = .ok y} v) ∧
        ∃ v, IsLeast {y | ∃ x, value x = .ok y} v ∧ IsLeast {y | ∃ z, energy z = .ok y} v) ∧
      (M < s → ∀ x z v, (∀ l ∈ e.labels, z l = x l) → value x = .ok v → energy z = .ok v →
        ∀ l ∈ order, z l = (labelParts l).all x) := by
  intro order value energy
  rw [expand_fst] at hfits ⊢
  have henergy : ∀ z, energy z = .ok ((e.quadratic o).value z (wordValue feed)) :=
    energy_compile hfeed (Weight.covered_of_eval hstrength)
  have hvalue : ∀ x, value x = .ok (e.polynomial.value x (wordValue feed)) :=
    fun x => eval_eq_wordValue hfits (fun _ _ => rfl) hfeed
  simp only [henergy, hvalue, Except.ok.injEq]
  refine ⟨fun z => ⟨_, rfl⟩, Polynomial.coupling (wordValue feed) e.polynomial.terms.entries,
    Polynomial.evalCoupling_of_covered (e.covered_expansion hfeed).1, ?_, ?_⟩
  · intro hcoupling
    constructor
    · exact fun x => ⟨_, rfl, isLeast_quadratic_of_labels hstar hstrength hcoupling x⟩
    · exact exists_isLeast_quadratic hstar hstrength hcoupling
  · intro hcoupling x z v hzx hx hz l hl
    exact eq_all_labelParts_of_quadratic_eq hstar hstrength hcoupling hzx (hz.trans hx.symm) hl

/-- All four variables set cost their weight and gain 1 for `a`. No other values of the
auxiliary variables cost as little as their products, here and for any assignment. -/
theorem isLeast_energy_weightedQuartic :
    let feed : Feed Rat := Table.single "w" 3
    let order := (weightedQuartic.compile .standard).order
    let value := fun x : String → Bool => weightedQuartic.eval (fun l => some (x l)) feed
    let energy := fun z : String → Bool =>
      (weightedQuartic.compile .standard).energy .binary (assignment order z) feed
    (∃ v, IsLeast {y | ∃ x, value x = .ok y} v ∧ IsLeast {y | ∃ z, energy z = .ok y} v) ∧
    IsLeast {y | ∃ z, (∀ l ∈ weightedQuartic.labels, z l = true) ∧ energy z = .ok y} 2 ∧
    ∀ x z v, (∀ l ∈ weightedQuartic.labels, z l = x l) → value x = .ok v → energy z = .ok v →
      z "a*b" = (x "a" && x "b") ∧ z "a*b*c" = (x "a" && (x "b" && x "c")) := by
  intro feed order value energy
  obtain ⟨-, M, hM, hleast, hunique⟩ := isLeast_energy_compile .standard weightedQuartic
    feed (s := 5) (by decide) (by decide +kernel) (by decide) (by rfl)
  have hcoupling : Polynomial.evalCoupling feed (weightedQuartic.expand 64).1 = .ok 3 := by
    decide +kernel
  obtain rfl : M = 3 := Except.ok.inj (hM.symm.trans hcoupling)
  obtain ⟨heach, hglobal⟩ := hleast (by decide)
  refine ⟨hglobal, ?_, ?_⟩
  · obtain ⟨v, hv, hmin⟩ := heach fun _ => true
    have htwo : value (fun _ => true) = .ok 2 := by decide +kernel
    obtain rfl : v = 2 := Except.ok.inj (hv.symm.trans htwo)
    exact hmin
  · intro x z v hzx hx hz
    have horder : "a*b" ∈ order ∧ "a*b*c" ∈ order := by
      change "a*b" ∈ (weightedQuartic.compile .standard).order ∧
        "a*b*c" ∈ (weightedQuartic.compile .standard).order
      rw [compile_weightedQuartic.2]
      decide +kernel
    have hparts : labelParts "a*b" = ["a", "b"] ∧ labelParts "a*b*c" = ["a", "b", "c"] := by
      decide +kernel
    have hproduct := hunique (by decide) x z v hzx hx hz
    rw [hproduct _ horder.1, hproduct _ horder.2, hparts.1, hparts.2]
    simp only [List.all_cons, List.all_nil, Bool.and_true, and_self]

end Expr

end PseudoBoolean
