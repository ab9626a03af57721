import Mathlib
import PseudoBoolean.Proofs.Fold
import PseudoBoolean.Proofs.Weight.Sum

/-! # Values of weights

A valuation gives every power product of placeholders a value. The value of a weight is
linear in it; for a valuation that respects products, the value of a product of weights
is the product of their values. A weight is settled by putting its value in its place.
-/

namespace PseudoBoolean

variable {φ : PowerProduct → Rat}

namespace Coefficient

def value (φ : PowerProduct → Rat) (c : Coefficient Rat) : Rat :=
  (c.terms.entries.map fun e => e.2 * φ e.1).sum

theorem value_eq_total (c : Coefficient Rat) :
    c.value φ = Table.total (fun p x => x * φ p) (fun p x y => add_mul x y (φ p)) c.terms := rfl

theorem value_add (c d : Coefficient Rat) : (c + d).value φ = c.value φ + d.value φ := by
  rw [value_eq_total, terms_add, map_add]
  rfl

theorem value_ofList (l : List (PowerProduct × Rat)) :
    (ofList l).value φ = (l.map fun e => e.2 * φ e.1).sum := by
  rw [value_eq_total, terms_ofList, map_list_sum, List.map_map]
  congr 1
  exact List.map_congr_left fun e _ => Table.total_entry _ _ e.1 e.2

theorem value_constant (x : Rat) : (constant x).value φ = x * φ 1 := by
  rw [constant, value_ofList, List.map_singleton, List.sum_singleton]

theorem value_scale (c : Coefficient Rat) (x : Rat) : (c.scale x).value φ = c.value φ * x := by
  rw [value, value, scale, Table.entries_mapValues, List.map_map, ← List.sum_map_mul_right]
  congr 1
  apply List.map_congr_left
  intro e _
  exact mul_right_comm e.2 x (φ e.1)

theorem value_mul (hφ : ∀ p q, φ (p * q) = φ p * φ q) (c d : Coefficient Rat) :
    (c * d).value φ = c.value φ * d.value φ := by
  have h : (c * d).value φ = _ := value_ofList _
  rw [h, value, value, ← sum_flatMap_mul, List.map_flatMap]
  congr 1
  apply List.flatMap_congr
  intro e _
  rw [List.map_map]
  apply List.map_congr_left
  intro f _
  simp only [Function.comp_apply, hφ]
  ring

end Coefficient

namespace Weight

def value (φ : PowerProduct → Rat) : Weight Rat → Rat
  | number x => x
  | symbolic c => c.value φ

theorem value_toCoefficient (h1 : φ 1 = 1) (w : Weight Rat) :
    w.toCoefficient.value φ = w.value φ := by
  cases w with
  | number x => rw [toCoefficient, Coefficient.value_constant, h1, mul_one, value]
  | symbolic c => rfl

theorem value_add (h1 : φ 1 = 1) (v w : Weight Rat) :
    (v + w).value φ = v.value φ + w.value φ := by
  rw [← value_toCoefficient h1, toCoefficient_add, Coefficient.value_add, value_toCoefficient h1,
    value_toCoefficient h1]

theorem value_scale (w : Weight Rat) (x : Rat) : (w.scale x).value φ = w.value φ * x := by
  cases w with
  | number y => rfl
  | symbolic c => exact c.value_scale x

theorem value_mul (hφ : ∀ p q, φ (p * q) = φ p * φ q) (v w : Weight Rat) :
    (v * w).value φ = v.value φ * w.value φ := by
  cases w with
  | number y => exact v.value_scale y
  | symbolic d =>
    cases v with
    | number x => exact (d.value_scale x).trans (mul_comm _ _)
    | symbolic c => exact Coefficient.value_mul hφ c d

/-- The value of a weight as a weight. -/
def settle (φ : PowerProduct → Rat) (w : Weight Rat) : Weight Rat := number (w.value φ)

theorem settle_add (h1 : φ 1 = 1) (v w : Weight Rat) :
    (v + w).settle φ = v.settle φ + w.settle φ := congrArg number (value_add h1 v w)

theorem settle_scale (w : Weight Rat) (x : Rat) : (w.scale x).settle φ = (w.settle φ).scale x :=
  congrArg number (w.value_scale x)

theorem settle_mul (hφ : ∀ p q, φ (p * q) = φ p * φ q) (v w : Weight Rat) :
    (v * w).settle φ = v.settle φ * w.settle φ := congrArg number (value_mul hφ v w)

end Weight

end PseudoBoolean
