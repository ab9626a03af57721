import Mathlib
import PseudoBoolean.Proofs.Table.Product
import PseudoBoolean.Proofs.Weight.Placeholders
import PseudoBoolean.Proofs.Weight.Sum

/-! # Products of weights

Over the rationals the multiplication of coefficients is that of their tables, and scaling
is multiplication by a constant. So weights multiply in any order to the same weight and
distribute over sums, whether they are numbers or symbolic. Nothing is assumed of the
coefficients, which may be without terms.
-/

namespace PseudoBoolean

instance : CommMonoid PowerProduct where
  mul_assoc p q r := by
    apply PowerProduct.ext
    simp only [PowerProduct.exponents_mul, add_assoc]
  mul_comm p q := by
    apply PowerProduct.ext
    rw [PowerProduct.exponents_mul, PowerProduct.exponents_mul, add_comm]
  one_mul p := by
    apply PowerProduct.ext
    rw [PowerProduct.exponents_mul]
    exact zero_add _
  mul_one p := rfl

namespace Coefficient

theorem terms_mul (c d : Coefficient Rat) : (c * d).terms = c.terms * d.terms := by
  have h : (c * d).terms = _ := terms_ofList _
  rw [h, List.map_flatMap]
  simp only [List.map_map]
  rfl

instance : One (Coefficient Rat) := ⟨constant 1⟩

theorem terms_one : (1 : Coefficient Rat).terms = 1 := terms_constant 1

instance : CommMonoid (Coefficient Rat) where
  mul_assoc c d e := by
    apply Coefficient.ext
    simp only [terms_mul, mul_assoc]
  mul_comm c d := by
    apply Coefficient.ext
    rw [terms_mul, terms_mul, mul_comm]
  one_mul c := by
    apply Coefficient.ext
    rw [terms_mul, terms_one, one_mul]
  mul_one c := by
    apply Coefficient.ext
    rw [terms_mul, terms_one, mul_one]

instance : Distrib (Coefficient Rat) where
  left_distrib c d e := by
    apply Coefficient.ext
    simp only [terms_mul, terms_add, mul_add]
  right_distrib c d e := by
    apply Coefficient.ext
    simp only [terms_mul, terms_add, add_mul]

theorem constant_mul (x y : Rat) : constant (x * y) = constant x * constant y := by
  apply Coefficient.ext
  rw [terms_mul, terms_constant, terms_constant, terms_constant, Table.entry_mul_entry, mul_one]

theorem scale_eq (c : Coefficient Rat) (x : Rat) : c.scale x = c * constant x := by
  apply Coefficient.ext
  rw [terms_mul, terms_constant, Table.mul_entry_one]
  rfl

end Coefficient

namespace Weight

theorem number?_mul (v w : Weight Rat) :
    (v * w).number? = Option.map₂ (· * ·) v.number? w.number? := by
  cases v <;> cases w <;> rfl

theorem toCoefficient_mul (v w : Weight Rat) :
    (v * w).toCoefficient = v.toCoefficient * w.toCoefficient := by
  cases w with
  | symbolic d =>
    cases v with
    | symbolic c => rfl
    | number x => exact (d.scale_eq x).trans (mul_comm _ _)
  | number y =>
    cases v with
    | symbolic c => exact c.scale_eq y
    | number x => exact Coefficient.constant_mul x y

instance : One (Weight Rat) := ⟨number 1⟩

theorem number?_one : (1 : Weight Rat).number? = some 1 := rfl

theorem toCoefficient_one : (1 : Weight Rat).toCoefficient = 1 := rfl

instance : CommMonoid (Weight Rat) where
  mul_assoc u v w := by
    apply eq_of_toCoefficient_eq
    · simp only [number?_mul]
      exact Option.map₂_assoc mul_assoc
    · simp only [toCoefficient_mul, mul_assoc]
  mul_comm v w := by
    apply eq_of_toCoefficient_eq
    · rw [number?_mul, number?_mul]
      exact Option.map₂_comm mul_comm
    · rw [toCoefficient_mul, toCoefficient_mul, mul_comm]
  one_mul w := by
    apply eq_of_toCoefficient_eq
    · rw [number?_mul, number?_one]
      exact Option.map₂_left_identity one_mul w.number?
    · rw [toCoefficient_mul, toCoefficient_one, one_mul]
  mul_one w := by
    apply eq_of_toCoefficient_eq
    · rw [number?_mul, number?_one]
      exact Option.map₂_right_identity mul_one w.number?
    · rw [toCoefficient_mul, toCoefficient_one, mul_one]

instance : Distrib (Weight Rat) where
  left_distrib u v w := by
    apply eq_of_toCoefficient_eq
    · simp only [number?_mul, number?_add]
      cases u.number? <;> cases v.number? <;> cases w.number? <;> simp [mul_add]
    · simp only [toCoefficient_mul, toCoefficient_add, mul_add]
  right_distrib u v w := by
    apply eq_of_toCoefficient_eq
    · simp only [number?_mul, number?_add]
      cases u.number? <;> cases v.number? <;> cases w.number? <;> simp [add_mul]
    · simp only [toCoefficient_mul, toCoefficient_add, add_mul]

end Weight

end PseudoBoolean
