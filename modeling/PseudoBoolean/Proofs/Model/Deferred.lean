import Mathlib
import PseudoBoolean.Proofs.Expr.Fed
import PseudoBoolean.Proofs.Model.Energy

/-! # Deferred placeholders

A model with open placeholders may be fed after compilation, or the expression and the
strength before. Both ways lead to the same form, because the steps of a quadratization
depend on the monomials alone, and to constraints that are worth the same.
-/

namespace PseudoBoolean

open PowerProduct (wordValue powerValue)

variable {feed : Feed Rat}

theorem Polynomial.energy_settle {p : Polynomial Rat} (hp : p.AllWeights (Weight.Covered feed))
    (values : String → Option Rat) :
    (p.settle (wordValue feed)).energy values ∅ = p.energy values feed := by
  have hlist : ∀ (l : List (Monomial × Weight Rat)) (x : Rat),
      (∀ e ∈ l, Weight.Covered feed e.2) →
      (l.map fun e => (e.1, e.2.settle (wordValue feed))).foldlM
          (fun sum e => do
            let product ← e.1.eval values
            let weight ← e.2.eval ∅
            return sum + product * weight) x
        = (l.foldlM
          (fun sum e => do
            let product ← e.1.eval values
            let weight ← e.2.eval feed
            return sum + product * weight) x : Except EvalError Rat) := by
    intro l
    induction l with
    | nil => exact fun _ _ => rfl
    | cons e rest ih =>
      intro x hl
      have hrest := fun y => ih y fun d hd => hl d (List.mem_cons_of_mem _ hd)
      have hsettle : (e.2.settle (wordValue feed)).eval ∅ = .ok (e.2.value (wordValue feed)) := rfl
      rw [List.map_cons, List.foldlM_cons, List.foldlM_cons, hsettle,
        Weight.eval_of_covered (hl e List.mem_cons_self)]
      cases e.1.eval values with
      | error err => rfl
      | ok y => exact hrest _
  exact hlist p.terms.entries 0 hp

namespace Expr

theorem steps_fed {o o' : Options Rat} {e e' : Expr Rat} {φ : PowerProduct → Rat} (h1 : φ 1 = 1)
    (he : e'.polynomial = e.polynomial.settle φ) (ho : o'.strength = o.strength.settle φ) :
    e'.quadratic o' = (e.quadratic o).settle φ ∧ e'.steps o' = e.steps o := by
  have h : (e.polynomial.settle φ).quadratize (o.strength.settle φ)
      = ((e.quadratic o).settle φ, e.steps o) := Polynomial.quadratize_settle h1 e.polynomial
  rw [quadratic, steps, he, ho, h]
  exact ⟨rfl, rfl⟩

theorem auxiliaryConstraints_settle {φ : PowerProduct → Rat} (h1 : φ 1 = 1)
    (strength : Weight Rat) (steps : List Step) :
    auxiliaryConstraints (strength.settle φ) steps
      = (auxiliaryConstraints strength steps).mapValues (Polynomial.settle φ) := by
  rw [auxiliaryConstraints, auxiliaryConstraints, Table.mapValues_ofList, List.map_map]
  refine congrArg Table.ofList (List.map_congr_left fun s _ => ?_)
  rw [Function.comp_apply, s.settle_penalty h1]

theorem covered_constraints {o : Options Rat} {e : Expr Rat}
    (hfeed : ∀ p ∈ e.placeholders, p ∈ feed.keys) (hstrength : o.strength.Covered feed) :
    (e.compile o).constraints.AllValues fun p => p.AllWeights (Weight.Covered feed) := by
  have hscale : ∀ w x, Weight.Covered feed w → Weight.Covered feed (w.scale x) :=
    fun _ x hw => Weight.covered_scale hw x
  rw [compile_constraints]
  apply Table.allValues_extend
  · exact Table.allValues_ofList (e.covered_expansion hfeed).2
  · apply Table.allValues_ofList
    intro c hc
    obtain ⟨s, -, rfl⟩ := List.mem_map.mp hc
    exact s.allWeights_penalty (fun _ _ => Weight.covered_add) hscale hstrength

section
variable {o o' : Options Rat} {e : Expr Rat}
  (hfits : e.polynomial.AllWeights Weight.FitsWord)
  (hnamed : (Table.ofList e.namedPolynomials).AllValues fun p => p.AllWeights Weight.FitsWord)
  (hstrength : o'.strength = o.strength.settle (wordValue feed))

include hfits in
theorem polynomial_fed_wordValue :
    (e.fed feed).polynomial = e.polynomial.settle (wordValue feed) := by
  rw [polynomial_fed]
  exact Polynomial.settle_congr fun d hd => (Weight.value_eq_of_fitsWord (hfits d hd)).symm

include hnamed in
theorem namedPolynomials_fed_wordValue :
    Table.ofList (e.fed feed).namedPolynomials
      = (Table.ofList e.namedPolynomials).mapValues (Polynomial.settle (wordValue feed)) := by
  rw [namedPolynomials_fed, ← Table.mapValues_ofList]
  apply Table.mapValues_congr
  intro c hc
  exact Polynomial.settle_congr fun d hd => (Weight.value_eq_of_fitsWord (hnamed c hc d hd)).symm

include hfits hstrength in
theorem form_fed :
    ((e.fed feed).compile o').form = (e.compile o).form.settle (wordValue feed) := by
  have h1 : wordValue feed 1 = 1 := PowerProduct.wordValue_one
  rw [compile_form, compile_form, (steps_fed h1 (polynomial_fed_wordValue hfits) hstrength).1,
    Qubo.settle_ofPolynomial h1]

include hfits hnamed hstrength in
theorem constraints_fed :
    ((e.fed feed).compile o').constraints
      = (e.compile o).constraints.mapValues (Polynomial.settle (wordValue feed)) := by
  have h1 : wordValue feed 1 = 1 := PowerProduct.wordValue_one
  rw [compile_constraints, compile_constraints, namedPolynomials_fed_wordValue hnamed,
    (steps_fed h1 (polynomial_fed_wordValue hfits) hstrength).2, hstrength,
    auxiliaryConstraints_settle h1, Table.mapValues_extend]

end

/-- Feeding a model gives the same form as compiling the fed expression with the fed
strength. The variables and the constraints of both models are the same, and each
constraint has the same energy at all bits. -/
theorem toQubo_eq_toQubo_fed (o : Options Rat) (e : Expr Rat) (feed : Feed Rat)
    (hfits : (e.expand o.threshold).1.AllWeights Weight.FitsWord)
    (hnamed : (e.expand o.threshold).2.AllValues fun p => p.AllWeights Weight.FitsWord)
    (hfeed : ∀ p ∈ e.placeholders, p ∈ feed.keys)
    (hstrength : ∀ p ∈ o.strength.placeholders, p ∈ feed.keys) :
    ∃ s, o.strength.eval feed = .ok s ∧
      let late := e.compile o
      let early := (e.fed feed).compile (o.withStrength (.number s))
      (∃ q, late.toQubo feed = .ok q ∧ early.toQubo ∅ = .ok q) ∧
      late.order = early.order ∧ late.constraints.keys = early.constraints.keys ∧
      ∀ label p q, late.constraints.find? label = some p →
        early.constraints.find? label = some q →
          ∀ values, p.energy values feed = q.energy values ∅ := by
  rw [expand_eq] at hfits hnamed
  refine ⟨o.strength.value (wordValue feed), Weight.eval_of_covered hstrength, ?_⟩
  intro late early
  have hform : early.form = late.form.settle (wordValue feed) := form_fed hfits rfl
  have hconstraints : early.constraints
      = late.constraints.mapValues (Polynomial.settle (wordValue feed)) :=
    constraints_fed hfits hnamed rfl
  refine ⟨⟨late.form.numbers (wordValue feed), ?_, ?_⟩, ?_, ?_, ?_⟩
  · exact Qubo.eval_of_covered (covered_form hfeed hstrength)
  · rw [Model.toQubo, hform, Qubo.eval_of_covered (Qubo.covered_settle _), Qubo.numbers_settle]
  · rw [Model.order, Model.order, hform, Qubo.diagonal_settle]
  · rw [hconstraints, Table.keys_mapValues]
  · intro label p q hp hq values
    rw [hconstraints, Table.find?_mapValues, hp, Option.map_some] at hq
    have hcovered := Table.allValues_iff.mp (covered_constraints hfeed hstrength) label p hp
    rw [← Option.some.inj hq, Polynomial.energy_settle hcovered]

def penalizedCubic : Expr Rat :=
  .penalized "limit"
    (.product (.product (.var .binary (.ofLabel 0 "a")) (.var .binary (.ofLabel 1 "b")))
      (.product (.var .binary (.ofLabel 2 "c")) (.placeholder "w")))
    (.product (.placeholder "w") (.product (.placeholder "w") (.var .spin (.ofLabel 0 "a"))))

theorem toQubo_fed_penalizedCubic :
    let o : Options Rat := ⟨Weight.placeholder "m", 64⟩
    let feed : Feed Rat := Table.ofList [("m", 7), ("w", 3)]
    ∃ s q, o.strength.eval feed = .ok s ∧ (penalizedCubic.compile o).toQubo feed = .ok q ∧
      ((penalizedCubic.fed feed).compile (o.withStrength (.number s))).toQubo ∅ = .ok q := by
  intro o feed
  obtain ⟨s, hs, ⟨q, hlate, hearly⟩, -⟩ := toQubo_eq_toQubo_fed o penalizedCubic feed
    (by decide +kernel) (by decide +kernel) (by decide +kernel) (by decide +kernel)
  exact ⟨s, q, hs, hlate, hearly⟩

end Expr

end PseudoBoolean
