import Mathlib
import PseudoBoolean.Proofs.Model.Energy
import PseudoBoolean.Proofs.Polynomial.Uniqueness

/-! # Expansion as a canonical form

Two expressions have the same value at all bits of their variables exactly if their
expansions have the same coefficients under the feed. A monomial that an expansion lacks
has the coefficient 0 there.
-/

namespace PseudoBoolean

open PowerProduct (wordValue)

variable {feed : Feed Rat}

namespace Polynomial

/-- The number that a monomial has as its weight under a feed. -/
def coefficient {α : Type} [Scalar α] (feed : Feed α) (p : Polynomial α) (m : Monomial) :
    Except EvalError α :=
  match p.weight? m with
  | some w => w.eval feed
  | none => .ok 0

theorem coefficient_of_covered {p : Polynomial Rat} (hp : p.AllWeights (Weight.Covered feed))
    (m : Monomial) : p.coefficient feed m = .ok (p.weightValue (wordValue feed) m) := by
  rw [coefficient, weightValue]
  cases hm : p.weight? m with
  | none => rfl
  | some w =>
    exact Weight.eval_of_covered (Table.allValues_iff.mp hp m w hm)

end Polynomial

namespace Expr

/-- The feed covers both expressions. Each value and each coefficient exists, and all
values agree exactly if all coefficients do. -/
theorem eval_eq_iff_coefficient_eq (e₁ e₂ : Expr Rat) (threshold₁ threshold₂ : Nat)
    (feed : Feed Rat) (hfeed₁ : ∀ p ∈ e₁.placeholders, p ∈ feed.keys)
    (hfeed₂ : ∀ p ∈ e₂.placeholders, p ∈ feed.keys)
    (hfits₁ : (e₁.expand threshold₁).1.AllWeights Weight.FitsWord)
    (hfits₂ : (e₂.expand threshold₂).1.AllWeights Weight.FitsWord) :
    let bits := fun (x : String → Bool) l =>
      if l ∈ e₁.labels ∨ l ∈ e₂.labels then some (x l) else none
    (∀ x, ∃ v, e₁.eval (bits x) feed = .ok v ∧ e₂.eval (bits x) feed = .ok v) ↔
      ∀ m, ∃ c, (e₁.expand threshold₁).1.coefficient feed m = .ok c ∧
        (e₂.expand threshold₂).1.coefficient feed m = .ok c := by
  intro bits
  rw [expand_fst] at hfits₁ hfits₂ ⊢
  rw [expand_fst]
  have hvalue₁ : ∀ x, e₁.eval (bits x) feed = .ok (e₁.polynomial.value x (wordValue feed)) :=
    fun x => eval_eq_wordValue hfits₁ (fun l hl => if_pos (.inl hl)) hfeed₁
  have hvalue₂ : ∀ x, e₂.eval (bits x) feed = .ok (e₂.polynomial.value x (wordValue feed)) :=
    fun x => eval_eq_wordValue hfits₂ (fun l hl => if_pos (.inr hl)) hfeed₂
  have hcoefficient₁ := Polynomial.coefficient_of_covered (e₁.covered_expansion hfeed₁).1
  have hcoefficient₂ := Polynomial.coefficient_of_covered (e₂.covered_expansion hfeed₂).1
  simp only [hvalue₁, hvalue₂, hcoefficient₁, hcoefficient₂, Except.ok.injEq, exists_eq_left']
  exact Polynomial.value_eq_iff_weightValue_eq

/-- The square of a spin, which is 1, with a weight. -/
def weightedSquare : Expr Rat :=
  .product (.var .spin (.ofLabel 0 "a")) (.product (.placeholder "w") (.var .spin (.ofLabel 0 "a")))

theorem coefficient_weightedSquare :
    let feed : Feed Rat := Table.single "w" 3
    ∀ m, ∃ c, (weightedSquare.expand 64).1.coefficient feed m = .ok c ∧
      ((placeholder "w").expand 64).1.coefficient feed m = .ok c := by
  intro feed
  refine (eval_eq_iff_coefficient_eq weightedSquare (placeholder "w") 64 64 feed (by decide)
    (by decide) (by decide +kernel) (by decide +kernel)).mp fun x => ⟨3, ?_, rfl⟩
  have hbit : (bitValue .spin (x "a") : Rat) * (3 * bitValue .spin (x "a")) = 3 := by
    cases x "a" <;> norm_num [bitValue]
  exact congrArg Except.ok hbit

end Expr

end PseudoBoolean
