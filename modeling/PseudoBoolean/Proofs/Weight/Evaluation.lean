import Mathlib
import PseudoBoolean.Proofs.Weight.Feed
import PseudoBoolean.Proofs.Weight.Value

/-! # Evaluation of weights

Over the rationals the value of a weight under a feed that covers its placeholders is the
one that the valuation of the feed gives. Exponents are taken as signed words, so the
valuation respects products only where the exponents fit into one.
-/

namespace PseudoBoolean

namespace Scalar

theorem powerFrom_eq (r x : Rat) (n : Nat) : powerFrom r x n = r * x ^ n := by
  induction n using Nat.strongRecOn generalizing r x with
  | ind n ih =>
    rw [powerFrom]
    have hn : n = 2 * (n / 2) + n % 2 := by omega
    have hr : (if n % 2 = 1 then r * x else r) = r * x ^ (n % 2) := by
      obtain h | h := Nat.mod_two_eq_zero_or_one n <;> simp [h]
    simp only [hr]
    split
    · next h =>
      rw [h] at hn
      rw [← show n = n % 2 by omega]
    · next h =>
      rw [ih (n / 2) (by omega), mul_assoc, ← pow_two, ← pow_mul, ← pow_add, add_comm, ← hn]

theorem power_ofNat (x : Rat) (n : Nat) : power x (n : Int) = x ^ n := by
  have h : ¬ (n : Int) < 0 := by omega
  rw [power, if_neg h, powerFrom_eq, Int.natAbs_natCast]
  exact one_mul _

end Scalar

namespace PowerProduct

variable {feed : Feed Rat}

/-- The product of the powers with exponents as they are taken, signed words. -/
def wordValue (feed : Feed Rat) (p : PowerProduct) : Rat :=
  (p.exponents.entries.map fun e =>
    Scalar.power ((feed.find? e.1).getD 0) (wordExponent e.2)).prod

/-- The product of the powers with the exponents as they stand. -/
def powerValue (feed : Feed Rat) (p : PowerProduct) : Rat :=
  (p.exponents.entries.map fun e => ((feed.find? e.1).getD 0) ^ e.2).prod

theorem wordValue_one : wordValue feed 1 = 1 := rfl

theorem powerValue_one : powerValue feed 1 = 1 := rfl

theorem powerValue_mul (p q : PowerProduct) :
    powerValue feed (p * q) = powerValue feed p * powerValue feed q := by
  have h : ∀ p : PowerProduct, powerValue feed p = (Table.total
      (fun l n => Additive.ofMul (((feed.find? l).getD 0) ^ n))
      (fun l m n => congrArg Additive.ofMul (pow_add _ m n)) p.exponents).toMul := fun _ => rfl
  rw [h, h, h, exponents_mul, map_add]
  rfl

theorem eval_of_covered {p : PowerProduct} (h : ∀ l ∈ p.labels, l ∈ feed.keys) :
    p.eval feed = .ok (p.wordValue feed) := by
  unfold eval
  rw [foldlM_eq_ok (g := fun product e =>
    product * Scalar.power ((feed.find? e.1).getD 0) (wordExponent e.2)), foldl_mul_eq_prod]
  · exact congrArg Except.ok (one_mul _)
  · intro e he a
    obtain ⟨x, hx⟩ := Table.mem_keys_iff.mp (h e.1 (List.mem_map_of_mem he))
    rw [hx, Option.getD_some]

/-- The greatest exponent that a signed word holds. -/
def maxWord : Nat := 2147483647

def FitsWord (p : PowerProduct) : Prop := ∀ e ∈ p.exponents.entries, e.2 ≤ maxWord

instance (p : PowerProduct) : Decidable p.FitsWord :=
  inferInstanceAs (Decidable (∀ e ∈ p.exponents.entries, e.2 ≤ maxWord))

theorem wordExponent_eq {n : Nat} (h : n ≤ maxWord) : wordExponent n = n := by
  unfold maxWord at h
  unfold wordExponent
  exact Int.bmod_eq_of_le (by omega) (by omega)

theorem wordValue_eq_powerValue {p : PowerProduct} (h : p.FitsWord) :
    p.wordValue feed = p.powerValue feed := by
  refine congrArg List.prod (List.map_congr_left ?_)
  intro e he
  rw [wordExponent_eq (h e he), Scalar.power_ofNat]

end PowerProduct

theorem Coefficient.eval_of_covered {feed : Feed Rat} {c : Coefficient Rat}
    (h : ∀ l ∈ c.placeholders, l ∈ feed.keys) :
    c.eval feed = .ok (c.value (PowerProduct.wordValue feed)) := by
  rw [eval_eq_fold h]
  refine (foldlM_eq_ok (g := fun sum e => sum + e.2 * e.1.wordValue feed) ?_ 0).trans ?_
  · intro e he a
    rw [PowerProduct.eval_of_covered fun l hl =>
      h l (mem_placeholders.mpr ⟨e.1, List.mem_map_of_mem he, hl⟩)]
    rfl
  · rw [foldl_add_eq_sum, zero_add]
    rfl

namespace Weight

variable {feed : Feed Rat}

theorem eval_of_covered {w : Weight Rat} (h : w.Covered feed) :
    w.eval feed = .ok (w.value (PowerProduct.wordValue feed)) := by
  cases w with
  | number x => rfl
  | symbolic c => exact Coefficient.eval_of_covered h

theorem value_of_eval {w : Weight Rat} {x : Rat} (h : w.eval feed = .ok x) :
    w.value (PowerProduct.wordValue feed) = x := by
  rw [eval_of_covered (covered_of_eval h)] at h
  exact Except.ok.inj h

/-- Whether all exponents fit into a signed word. -/
def FitsWord {α : Type} : Weight α → Prop
  | number _ => True
  | symbolic c => ∀ p ∈ c.terms.keys, p.FitsWord

instance {α : Type} : (w : Weight α) → Decidable w.FitsWord
  | number _ => inferInstanceAs (Decidable True)
  | symbolic c => inferInstanceAs (Decidable (∀ p ∈ c.terms.keys, p.FitsWord))

theorem value_eq_of_fitsWord {w : Weight Rat} (h : w.FitsWord) :
    w.value (PowerProduct.wordValue feed) = w.value (PowerProduct.powerValue feed) := by
  cases w with
  | number x => simp only [value]
  | symbolic c =>
    refine congrArg List.sum (List.map_congr_left ?_)
    intro e he
    rw [PowerProduct.wordValue_eq_powerValue (h e.1 (List.mem_map_of_mem he))]

end Weight

end PseudoBoolean
