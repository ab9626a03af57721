import Mathlib
import PseudoBoolean.Proofs.Expr.Evaluation
import PseudoBoolean.Proofs.Expr.Leaves
import PseudoBoolean.Proofs.Expr.Polynomial
import PseudoBoolean.Proofs.Polynomial.Value
import PseudoBoolean.Proofs.Weight.Evaluation

/-! # Expressions and their polynomials

An expression has a value exactly if its variables and placeholders have one, and this
value is that of its polynomial, with exponents read as they stand.
-/

namespace PseudoBoolean

namespace Weight

variable {feed : Feed Rat}

theorem value_placeholder (label : String) :
    (placeholder label).value (PowerProduct.powerValue feed) = (feed.find? label).getD 0 := by
  have hterms : (Coefficient.placeholder label : Coefficient Rat).terms
      = Table.entry (PowerProduct.placeholder label) 1 := by
    rw [Coefficient.placeholder, Coefficient.terms_ofList, List.map_singleton, List.sum_singleton]
  have hpower : PowerProduct.powerValue feed (PowerProduct.placeholder label)
      = ((feed.find? label).getD 0) ^ 1 := mul_one _
  rw [placeholder, value, Coefficient.value, hterms, Table.entry, List.map_singleton,
    List.sum_singleton, hpower, pow_one, one_mul]

end Weight

namespace Expr

variable {bits : String → Option Bool} {z : String → Bool} {feed : Feed Rat}

theorem bitValue_binary (b : Bool) : (bitValue .binary b : Rat) = bit b := by
  cases b <;> rfl

theorem bitValue_spin (b : Bool) : (bitValue .spin b : Rat) = 2 * bit b - 1 := by
  cases b <;> norm_num [bitValue, bit]

theorem value_variablePolynomial {φ : PowerProduct → Rat} (h1 : φ 1 = 1) (d : Domain)
    (label : String) : (variablePolynomial d label).value z φ = bitValue d (z label) := by
  have hone : bit ((Monomial.ofList [label]).holds z) = bit (z label) := by
    rw [Monomial.holds_ofList, List.all_cons, List.all_nil, Bool.and_true]
  cases d with
  | binary =>
    rw [variablePolynomial, Polynomial.value_single, hone, Weight.value, mul_one, bitValue_binary]
  | spin =>
    rw [variablePolynomial, Polynomial.addTerm_eq_add, Polynomial.value_add h1,
      Polynomial.value_single, Polynomial.value_single, hone, Monomial.holds_one, Weight.value,
      Weight.value, bitValue_spin]
    push_cast
    simp only [bit]
    ring

theorem value_sumPolynomial {φ : PowerProduct → Rat} (h1 : φ 1 = 1) (p : Polynomial Rat)
    (terms : List (Expr Rat)) :
    (sumPolynomial p terms).value z φ
      = p.value z φ + (terms.map fun e => e.polynomial.value z φ).sum := by
  induction terms generalizing p with
  | nil => exact (add_zero _).symm
  | cons e rest ih =>
    rw [sumPolynomial, ih, Polynomial.value_add h1, List.map_cons, List.sum_cons, add_assoc]

theorem value_constant {φ : PowerProduct → Rat} (w : Weight Rat) :
    (Polynomial.constant w).value z φ = w.value φ := by
  rw [Polynomial.constant, Polynomial.value_single, Monomial.holds_one]
  exact one_mul _

theorem evalSum_eq_ok {g : Expr Rat → Rat} {terms : List (Expr Rat)}
    (h : ∀ e ∈ terms, e.eval bits feed = .ok (g e)) (x : Rat) :
    evalSum bits feed x terms = .ok (x + (terms.map g).sum) := by
  refine evalSum_iff.mpr ⟨terms.map g, ?_, rfl⟩
  rw [List.forall₂_map_right_iff, List.forall₂_same]
  exact h

/-- The value of an expression is that of its polynomial. -/
theorem eval_eq_value (e : Expr Rat) (hbits : ∀ l ∈ e.labels, bits l = some (z l))
    (hfeed : ∀ p ∈ e.placeholders, p ∈ feed.keys) :
    e.eval bits feed = .ok (e.polynomial.value z (PowerProduct.powerValue feed)) := by
  have h1 : PowerProduct.powerValue feed 1 = 1 := PowerProduct.powerValue_one
  have hmul : ∀ p q, PowerProduct.powerValue feed (p * q)
      = PowerProduct.powerValue feed p * PowerProduct.powerValue feed q :=
    PowerProduct.powerValue_mul
  -- The leaves of a subtree are leaves of the tree, which the induction hypotheses need.
  have hleaves : ∀ leaf ∈ e.leaves, (∀ d v, leaf = var d v → bits v.label = some (z v.label)) ∧
      ∀ p, leaf = placeholder p → p ∈ feed.keys := by
    intro leaf hleaf
    constructor
    · rintro d v rfl
      exact hbits _ (mem_labels.mpr ⟨d, v, hleaf, rfl⟩)
    · rintro p rfl
      exact hfeed p (mem_placeholders.mpr hleaf)
  clear hbits hfeed
  induction e using Expr.induction with
  | num x => rw [eval, polynomial, value_constant, Weight.value]
  | var d v =>
    rw [eval, (hleaves (var d v) (List.mem_singleton_self _)).1 d v rfl, polynomial,
      value_variablePolynomial h1]
  | placeholder p =>
    obtain ⟨x, hx⟩ := Table.mem_keys_iff.mp
      ((hleaves (placeholder p) (List.mem_singleton_self _)).2 p rfl)
    rw [eval, hx, polynomial, value_constant, Weight.value_placeholder, hx, Option.getD_some]
  | product l r ihl ihr =>
    rw [eval, ihl fun leaf h => hleaves leaf (List.mem_append_left _ h),
      ihr fun leaf h => hleaves leaf (List.mem_append_right _ h), polynomial,
      Polynomial.value_mul h1 hmul]
    rfl
  | sum terms ih =>
    rw [eval, evalSum_eq_ok (fun e he => ih e he fun leaf h =>
      hleaves leaf (mem_termLeaves.mpr ⟨e, he, h⟩)), polynomial, value_sumPolynomial h1]
    rfl
  | constraint label e ih => rw [eval, ih hleaves, polynomial]
  | named name e ih => rw [eval, ih hleaves, polynomial]
  | penalized label e p ihe ihp =>
    rw [eval, ihe fun leaf h => hleaves leaf (List.mem_append_left _ h),
      ihp fun leaf h => hleaves leaf (List.mem_append_right _ h), polynomial,
      Polynomial.value_add h1]
    rfl

theorem eval_leaf_of_eval {e : Expr Rat} {v : Rat} (h : e.eval bits feed = .ok v) :
    ∀ leaf ∈ e.leaves, ∃ x, leaf.eval bits feed = .ok x := by
  induction e using Expr.induction generalizing v with
  | num x => exact fun leaf hleaf => ⟨v, List.mem_singleton.mp hleaf ▸ h⟩
  | var d w => exact fun leaf hleaf => ⟨v, List.mem_singleton.mp hleaf ▸ h⟩
  | placeholder p => exact fun leaf hleaf => ⟨v, List.mem_singleton.mp hleaf ▸ h⟩
  | product l r ihl ihr =>
    obtain ⟨x, y, hx, hy, -⟩ := eval_product_iff.mp h
    intro leaf hleaf
    exact (List.mem_append.mp hleaf).elim (ihl hx leaf) (ihr hy leaf)
  | sum terms ih =>
    obtain ⟨xs, hxs, -⟩ := eval_sum_iff.mp h
    intro leaf hleaf
    obtain ⟨e, he, hleaf⟩ := mem_termLeaves.mp hleaf
    obtain ⟨x, hx, -⟩ := exists_of_forall₂ hxs e he
    exact ih e he hx leaf hleaf
  | constraint label e ih => exact ih h
  | named name e ih => exact ih h
  | penalized label e p ihe ihp =>
    obtain ⟨x, y, hx, hy, -⟩ := eval_penalized_iff.mp h
    intro leaf hleaf
    exact (List.mem_append.mp hleaf).elim (ihe hx leaf) (ihp hy leaf)

theorem placeholders_covered_of_eval {e : Expr Rat} {v : Rat} (h : e.eval bits feed = .ok v) :
    ∀ p ∈ e.placeholders, p ∈ feed.keys := by
  intro p hp
  obtain ⟨x, hx⟩ := eval_leaf_of_eval h _ (mem_placeholders.mp hp)
  rw [eval] at hx
  split at hx
  · next y hy => exact Table.mem_keys_iff.mpr ⟨y, hy⟩
  · cases hx

theorem labels_covered_of_eval {e : Expr Rat} {v : Rat} (h : e.eval bits feed = .ok v) :
    ∀ l ∈ e.labels, ∃ b, bits l = some b := by
  intro l hl
  obtain ⟨d, w, hleaf, rfl⟩ := mem_labels.mp hl
  obtain ⟨x, hx⟩ := eval_leaf_of_eval h _ hleaf
  rw [eval] at hx
  split at hx
  · next b hb => exact ⟨b, hb⟩
  · cases hx

/-! ## The weights of the polynomial -/

section
variable {α : Type} [Scalar α] {P : Weight α → Prop}

theorem allWeights_constant {w : Weight α} (h : P w) : (Polynomial.constant w).AllWeights P :=
  Table.allValues_entry h

theorem allWeights_sumPolynomial (hadd : ∀ v w, P v → P w → P (v + w)) {p : Polynomial α}
    (hp : p.AllWeights P) {terms : List (Expr α)} (h : ∀ e ∈ terms, e.polynomial.AllWeights P) :
    (sumPolynomial p terms).AllWeights P := by
  induction terms generalizing p with
  | nil => exact hp
  | cons e rest ih =>
    rw [sumPolynomial]
    exact ih (Polynomial.allWeights_add hadd hp (h e List.mem_cons_self))
      fun d hd => h d (List.mem_cons_of_mem _ hd)

theorem allWeights_variablePolynomial (hadd : ∀ v w, P v → P w → P (v + w))
    (hnumber : ∀ x, P (.number x)) (d : Domain) (label : String) :
    (variablePolynomial d label).AllWeights P := by
  cases d with
  | binary => exact Table.allValues_entry (hnumber 1)
  | spin =>
    exact Polynomial.allWeights_addTerms (l := [(1, _)]) hadd (Table.allValues_entry (hnumber _))
      (List.forall_mem_singleton.mpr (hnumber _))

/-- What the polynomials of the leaves have, and sums and products keep, holds of all
weights that expansion produces. -/
theorem allWeights_of_leaves (hadd : ∀ v w, P v → P w → P (v + w))
    (hmul : ∀ v w, P v → P w → P (v * w)) (e : Expr α)
    (hleaves : ∀ leaf ∈ e.leaves, leaf.polynomial.AllWeights P) :
    e.polynomial.AllWeights P ∧ ∀ c ∈ e.namedPolynomials, c.2.AllWeights P := by
  induction e using Expr.induction with
  | num x => exact ⟨hleaves _ (List.mem_singleton_self _), fun c hc => nomatch hc⟩
  | var d v => exact ⟨hleaves _ (List.mem_singleton_self _), fun c hc => nomatch hc⟩
  | placeholder p => exact ⟨hleaves _ (List.mem_singleton_self _), fun c hc => nomatch hc⟩
  | product l r ihl ihr =>
    obtain ⟨hl, hlnamed⟩ := ihl fun leaf h => hleaves leaf (List.mem_append_left _ h)
    obtain ⟨hr, hrnamed⟩ := ihr fun leaf h => hleaves leaf (List.mem_append_right _ h)
    rw [polynomial, namedPolynomials]
    refine ⟨Polynomial.allWeights_mul hadd hmul hl hr, ?_⟩
    intro c hc
    exact (List.mem_append.mp hc).elim (hlnamed c) (hrnamed c)
  | sum terms ih =>
    have hterms := fun e he => ih e he fun leaf h => hleaves leaf (mem_termLeaves.mpr ⟨e, he, h⟩)
    rw [polynomial, namedPolynomials_sum]
    refine ⟨allWeights_sumPolynomial hadd (fun e he => absurd he List.not_mem_nil)
      fun e he => (hterms e he).1, ?_⟩
    intro c hc
    obtain ⟨e, he, hc⟩ := List.mem_flatMap.mp hc
    exact (hterms e he).2 c hc
  | constraint label e ih =>
    obtain ⟨he, hnamed⟩ := ih hleaves
    rw [polynomial, namedPolynomials]
    refine ⟨he, ?_⟩
    intro c hc
    obtain hc | hc := List.mem_append.mp hc
    · exact hnamed c hc
    · rw [List.mem_singleton.mp hc]
      exact he
  | named name e ih => exact ih hleaves
  | penalized label e p ihe ihp =>
    obtain ⟨he, henamed⟩ := ihe fun leaf h => hleaves leaf (List.mem_append_left _ h)
    obtain ⟨hp, hpnamed⟩ := ihp fun leaf h => hleaves leaf (List.mem_append_right _ h)
    rw [polynomial, namedPolynomials]
    refine ⟨Polynomial.allWeights_add hadd he hp, ?_⟩
    intro c hc
    obtain hc | hc := List.mem_append.mp hc
    · exact (List.mem_append.mp hc).elim (henamed c) (hpnamed c)
    · rw [List.mem_singleton.mp hc]
      exact hp

/-- What numbers and placeholders have, and sums and products keep, holds of all weights
that expansion produces. -/
theorem allWeights_expansion (hadd : ∀ v w, P v → P w → P (v + w))
    (hmul : ∀ v w, P v → P w → P (v * w)) (hnumber : ∀ x, P (.number x)) (e : Expr α)
    (hplaceholder : ∀ p ∈ e.placeholders, P (Weight.placeholder p)) :
    e.polynomial.AllWeights P ∧ ∀ c ∈ e.namedPolynomials, c.2.AllWeights P := by
  apply allWeights_of_leaves hadd hmul
  intro leaf hleaf
  obtain ⟨x, rfl⟩ | ⟨d, v, rfl⟩ | ⟨p, rfl⟩ := leaf_cases hleaf
  · exact allWeights_constant (hnumber x)
  · exact allWeights_variablePolynomial hadd hnumber d v.label
  · exact allWeights_constant (hplaceholder p (mem_placeholders.mpr hleaf))

end

theorem covered_expansion (e : Expr Rat) (h : ∀ p ∈ e.placeholders, p ∈ feed.keys) :
    e.polynomial.AllWeights (Weight.Covered feed) ∧
      ∀ c ∈ e.namedPolynomials, c.2.AllWeights (Weight.Covered feed) :=
  allWeights_expansion (fun _ _ => Weight.covered_add) (fun _ _ => Weight.covered_mul)
    Weight.covered_number e fun p hp => Weight.covered_placeholder (h p hp)

end Expr

end PseudoBoolean
