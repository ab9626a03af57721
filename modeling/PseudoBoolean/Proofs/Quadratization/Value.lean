import Mathlib
import PseudoBoolean.Proofs.Polynomial.Value
import PseudoBoolean.Proofs.Quadratization.Run

/-! # Values along a quadratization

The gadget of a step is 0 where the auxiliary variable is the product of its factors and
at least 1 elsewhere. Where it is 0 for every step, a quadratization keeps the value.
Settling the weights commutes with every step, because no step looks at a weight.
-/

namespace PseudoBoolean

variable {φ : PowerProduct → Rat} {z : String → Bool} {strength : Weight Rat}

namespace Step

/-- Whether the auxiliary variable is the product of its factors. -/
def Holds (z : String → Bool) (s : Step) : Prop := z s.product = (z s.first && z s.second)

instance (z : String → Bool) (s : Step) : Decidable (s.Holds z) :=
  inferInstanceAs (Decidable (_ = _))

def gadget (z : String → Bool) (s : Step) : Rat :=
  bit (z s.product) * 3 + (bit (z s.second && z s.product) * (-2)
    + (bit (z s.first && z s.product) * (-2) + bit (z s.first && z s.second)))

theorem gadget_of_holds {s : Step} (h : s.Holds z) : s.gadget z = 0 := by
  rw [gadget, h]
  cases z s.first <;> cases z s.second <;> norm_num [bit]

theorem holds_iff_bit {s : Step} :
    s.Holds z ↔ bit (z s.product) = bit (z s.first) * bit (z s.second) := by
  rw [Holds, ← bit_and]
  cases z s.product <;> cases z s.first && z s.second <;> simp [bit]

theorem gadget_of_not_holds {s : Step} (h : ¬ s.Holds z) : s.gadget z = 1 ∨ s.gadget z = 3 := by
  unfold Holds at h
  unfold gadget
  revert h
  cases z s.first <;> cases z s.second <;> cases z s.product <;> norm_num [bit]

theorem one_le_gadget {s : Step} (h : ¬ s.Holds z) : 1 ≤ s.gadget z := by
  obtain hone | hthree := gadget_of_not_holds h
  · exact hone.ge
  · rw [hthree]
    norm_num

theorem gadget_nonneg (s : Step) : 0 ≤ s.gadget z := by
  by_cases h : s.Holds z
  · exact (gadget_of_holds h).ge
  · exact le_trans zero_le_one (one_le_gadget h)

theorem value_penalty (h1 : φ 1 = 1) (s : Step) :
    (s.penalty strength).value z φ = strength.value φ * s.gadget z := by
  have h : (s.penalty strength).value z φ = _ := Polynomial.value_ofList h1 _
  rw [h, gadget]
  simp only [List.map_cons, List.map_nil, List.sum_cons, List.sum_nil, Monomial.holds_ofList,
    List.all_cons, List.all_nil, Bool.and_true, Weight.value_scale]
  push_cast
  ring

theorem mem_labels_substitute {m : Monomial} {a b p l : String} :
    l ∈ (m.substitute a b p).labels ↔ l = p ∨ l ∈ m.labels ∧ l ≠ a ∧ l ≠ b := by
  have h : l ∈ (m.substitute a b p).labels ↔ l = p ∨ l ∈ m.factors.filter _ :=
    OrderedSet.mem_insert
  rw [h, OrderedSet.mem_filter, Bool.and_eq_true, decide_eq_true_iff, decide_eq_true_iff]
  rfl

theorem contract_of_mem {s : Step} {m : Monomial} (ha : s.first ∈ m.labels)
    (hb : s.second ∈ m.labels) : s.contract m = m.substitute s.first s.second s.product := by
  rw [contract, Monomial.contains_iff.mpr ha, Monomial.contains_iff.mpr hb]
  rfl

theorem contract_of_not_mem {s : Step} {m : Monomial}
    (h : ¬ (s.first ∈ m.labels ∧ s.second ∈ m.labels)) : s.contract m = m := by
  rw [contract, if_neg]
  rw [Bool.and_eq_true, Monomial.contains_iff, Monomial.contains_iff]
  exact h

theorem holds_contract {s : Step} (h : s.Holds z) (m : Monomial) :
    (s.contract m).holds z = m.holds z := by
  by_cases hm : s.first ∈ m.labels ∧ s.second ∈ m.labels
  · rw [contract_of_mem hm.1 hm.2, Bool.eq_iff_iff, Monomial.holds_iff, Monomial.holds_iff]
    simp only [mem_labels_substitute]
    constructor
    · intro hz l hl
      have hp := hz s.product (.inl rfl)
      rw [h, Bool.and_eq_true] at hp
      by_cases hla : l = s.first
      · exact hla ▸ hp.1
      · by_cases hlb : l = s.second
        · exact hlb ▸ hp.2
        · exact hz l (.inr ⟨hl, hla, hlb⟩)
    · rintro hz l (rfl | ⟨hl, -, -⟩)
      · rw [h, hz _ hm.1, hz _ hm.2]
        rfl
      · exact hz l hl
  · rw [contract_of_not_mem hm]

theorem settle_penalty (h1 : φ 1 = 1) (s : Step) :
    (s.penalty strength).settle φ = s.penalty (strength.settle φ) := by
  refine (Polynomial.settle_ofList h1 _).trans ?_
  simp only [List.map_cons, List.map_nil, Weight.settle_scale]
  rfl

theorem allWeights_penalty {α : Type} [Scalar α] {P : Weight α → Prop}
    (hadd : ∀ v w, P v → P w → P (v + w)) (hscale : ∀ w x, P w → P (w.scale x))
    {strength : Weight α} (hs : P strength) (s : Step) : (s.penalty strength).AllWeights P := by
  apply Polynomial.allWeights_ofList hadd
  simp only [List.forall_mem_cons]
  exact ⟨hscale _ _ hs, hscale _ _ hs, hscale _ _ hs, hs, fun e he => nomatch he⟩

end Step

namespace Polynomial

theorem contract_eq_rename {α : Type} [Scalar α] (p : Polynomial α) (s : Step) :
    p.contract s = p.rename s.contract := rfl

theorem value_apply (h1 : φ 1 = 1) {s : Step} (h : s.Holds z) (p : Polynomial Rat) :
    (p.apply strength s).value z φ = p.value z φ := by
  rw [apply, value_add h1, contract_eq_rename, s.value_penalty h1, Step.gadget_of_holds h,
    mul_zero, add_zero, value_rename_of_holds h1 fun m _ => Step.holds_contract h m]

theorem Reaches.value_eq (h1 : φ 1 = 1) {f p : Polynomial Rat} {done : List Step}
    (h : Reaches strength f done p) (hz : ∀ s ∈ done, s.Holds z) :
    p.value z φ = f.value z φ := by
  induction h with
  | start => rfl
  | step hreach hs ih =>
    rw [value_apply h1 (hz _ (List.mem_append_right _ (List.mem_singleton_self _)))]
    exact ih fun s hs => hz s (List.mem_append_left _ hs)

/-- Where all auxiliary variables are their products, quadratization keeps the value. -/
theorem value_quadratize (h1 : φ 1 = 1) {f : Polynomial Rat}
    (hz : ∀ s ∈ (f.quadratize strength).2, s.Holds z) :
    (f.quadratize strength).1.value z φ = f.value z φ :=
  (reaches_quadratize f).value_eq h1 hz

theorem settle_apply (h1 : φ 1 = 1) (p : Polynomial Rat) (s : Step) :
    (p.apply strength s).settle φ = (p.settle φ).apply (strength.settle φ) s := by
  rw [apply, settle_add h1, contract_eq_rename, settle_rename h1, s.settle_penalty h1]
  rfl

theorem nextStep?_settle (p : Polynomial Rat) : (p.settle φ).nextStep? = p.nextStep? :=
  nextStep?_congr (monomials_settle p)

theorem quadratize_settle (h1 : φ 1 = 1) (p : Polynomial Rat) :
    (p.settle φ).quadratize (strength.settle φ)
      = ((p.quadratize strength).1.settle φ, (p.quadratize strength).2) := by
  induction hn : p.excess using Nat.strongRecOn generalizing p with
  | ind n ih =>
    cases hs : p.nextStep? with
    | none =>
      rw [quadratize_of_none hs, quadratize_of_none ((nextStep?_settle p).trans hs)]
    | some s =>
      -- The monomials decide on the step, and settling the weights leaves them alone.
      have hrest := ih _ (hn ▸ excess_apply_lt strength hs) (p.apply strength s) rfl
      rw [settle_apply h1] at hrest
      rw [quadratize_of_some hs, quadratize_of_some ((nextStep?_settle p).trans hs), hrest]

theorem allWeights_quadratize {α : Type} [Scalar α] {P : Weight α → Prop}
    (hadd : ∀ v w, P v → P w → P (v + w)) (hscale : ∀ w x, P w → P (w.scale x))
    {strength : Weight α} (hs : P strength) {f : Polynomial α} (hf : f.AllWeights P) :
    (f.quadratize strength).1.AllWeights P := by
  have hreach : ∀ done p, Reaches strength f done p → p.AllWeights P := by
    intro done p h
    induction h with
    | start => exact hf
    | step _ _ ih =>
      exact allWeights_add hadd (allWeights_rename hadd ih _)
        (Step.allWeights_penalty hadd hscale hs _)
  exact hreach _ _ (reaches_quadratize f)

end Polynomial

end PseudoBoolean
