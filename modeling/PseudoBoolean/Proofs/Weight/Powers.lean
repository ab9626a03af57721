import Mathlib
import PseudoBoolean.Proofs.Weight.Evaluation

/-! # Powers with large exponents

Exponents are unsigned words, but powers are taken with signed ones. An exponent with its
highest bit set is therefore too small by `2 ^ 32`, and the power of its placeholder is
short of that many factors, down to a reciprocal. The value of a power product is the
product of the powers as they stand, divided by the factors that are lost in this way; none
are lost as long as all exponents fit into a signed word.
-/

namespace PseudoBoolean

theorem Scalar.power_eq_zpow (x : Rat) (e : Int) : power x e = x ^ e := by
  obtain ⟨n, rfl⟩ | ⟨n, hn, rfl⟩ : (∃ n : Nat, e = n) ∨ ∃ n : Nat, 0 < n ∧ e = -n := by
    obtain ⟨n, rfl | rfl⟩ := Int.eq_nat_or_neg e
    · exact .inl ⟨n, rfl⟩
    · obtain rfl | hn := Nat.eq_zero_or_pos n
      · exact .inl ⟨0, rfl⟩
      · exact .inr ⟨n, hn, rfl⟩
  · rw [power_ofNat, zpow_natCast]
  · have hneg : -(n : Int) < 0 := by omega
    have hone : powerFrom 1 x n = x ^ n := (powerFrom_eq 1 x n).trans (one_mul _)
    rw [power, if_pos hneg, Int.natAbs_neg, Int.natAbs_natCast, hone, zpow_neg, zpow_natCast]
    exact one_div _

namespace PowerProduct

variable {feed : Feed Rat} {p q : PowerProduct}

/-- Whether all exponents are unsigned words of 32 bits. -/
def FitsUnsigned (p : PowerProduct) : Prop := p.exponents.AllValues (· < 2 ^ 32)

/-- Whether a feed has all placeholders, and none of them is 0. -/
def Invertible (feed : Feed Rat) (p : PowerProduct) : Prop :=
  ∀ l ∈ p.labels, ∃ x, feed.find? l = some x ∧ x ≠ 0

/-- What is missing from the power with exponent `n`. -/
def lostPower (x : Rat) (n : Nat) : Rat := if n ≤ maxWord then 1 else x ^ 2 ^ 32

/-- What is missing from the product of the powers. -/
def lostValue (feed : Feed Rat) (p : PowerProduct) : Rat :=
  (p.exponents.entries.map fun e => lostPower ((feed.find? e.1).getD 0) e.2).prod

theorem wordExponent_of_maxWord_lt {n : Nat} (h : maxWord < n) (hn : n < 2 ^ 32) :
    wordExponent n = n - (2 ^ 32 : Nat) := by
  unfold maxWord at h
  unfold wordExponent
  rw [Int.bmod_def]
  omega

theorem power_wordExponent {x : Rat} (hx : x ≠ 0) {n : Nat} (hn : n < 2 ^ 32) :
    Scalar.power x (wordExponent n) = x ^ n / lostPower x n := by
  rw [Scalar.power_eq_zpow, lostPower]
  split
  · next h => rw [wordExponent_eq h, zpow_natCast, div_one]
  · next h =>
    rw [wordExponent_of_maxWord_lt (Nat.lt_of_not_le h) hn, zpow_sub₀ hx, zpow_natCast,
      zpow_natCast]

theorem Invertible.ne_zero (h : p.Invertible feed) {e : String × Nat}
    (he : e ∈ p.exponents.entries) : (feed.find? e.1).getD 0 ≠ 0 := by
  obtain ⟨x, hx, hne⟩ := h e.1 (List.mem_map_of_mem he)
  rw [hx]
  exact hne

theorem Invertible.covered (h : p.Invertible feed) : ∀ l ∈ p.labels, l ∈ feed.keys := by
  intro l hl
  obtain ⟨x, hx, -⟩ := h l hl
  exact Table.mem_keys_iff.mpr ⟨x, hx⟩

theorem lostPower_ne_zero {x : Rat} (hx : x ≠ 0) (n : Nat) : lostPower x n ≠ 0 := by
  rw [lostPower]
  split
  · exact one_ne_zero
  · exact pow_ne_zero _ hx

theorem lostValue_of_fitsWord (h : p.FitsWord) : p.lostValue feed = 1 := by
  apply List.prod_eq_one
  intro y hy
  obtain ⟨e, he, rfl⟩ := List.mem_map.mp hy
  exact if_pos (h e he)

theorem Invertible.powerValue_ne_zero (h : p.Invertible feed) : p.powerValue feed ≠ 0 := by
  apply List.prod_ne_zero
  rintro hmem
  obtain ⟨e, he, hzero⟩ := List.mem_map.mp hmem
  exact pow_ne_zero _ (h.ne_zero he) hzero

theorem Invertible.lostValue_ne_zero (h : p.Invertible feed) : p.lostValue feed ≠ 0 := by
  apply List.prod_ne_zero
  rintro hmem
  obtain ⟨e, he, hzero⟩ := List.mem_map.mp hmem
  exact lostPower_ne_zero (h.ne_zero he) _ hzero

theorem wordValue_eq_div (hp : p.FitsUnsigned) (h : p.Invertible feed) :
    p.wordValue feed = p.powerValue feed / p.lostValue feed := by
  rw [eq_div_iff h.lostValue_ne_zero, wordValue, powerValue, lostValue, ← List.prod_map_mul]
  apply congrArg List.prod
  apply List.map_congr_left
  intro e he
  have hne := h.ne_zero he
  rw [power_wordExponent hne (hp e he), div_mul_cancel₀ _ (lostPower_ne_zero hne _)]

theorem eval_eq_div (hp : p.FitsUnsigned) (h : p.Invertible feed) :
    p.eval feed = .ok (p.powerValue feed / p.lostValue feed) := by
  rw [eval_of_covered h.covered, wordValue_eq_div hp h]

theorem eval_eq_powerValue (hp : p.FitsWord) (h : ∀ l ∈ p.labels, l ∈ feed.keys) :
    p.eval feed = .ok (p.powerValue feed) := by
  rw [eval_of_covered h, wordValue_eq_powerValue hp]

theorem eval_eq_powerValue_iff (hp : p.FitsUnsigned) (h : p.Invertible feed) :
    p.eval feed = .ok (p.powerValue feed) ↔ p.lostValue feed = 1 := by
  rw [eval_eq_div hp h, Except.ok.injEq, div_eq_iff h.lostValue_ne_zero,
    left_eq_mul₀ h.powerValue_ne_zero]

/-! ## Products -/

theorem FitsUnsigned.of_mul (h : (p * q).FitsUnsigned) : p.FitsUnsigned ∧ q.FitsUnsigned := by
  rw [FitsUnsigned, exponents_mul] at h
  exact Table.AllValues.of_add (fun m n hmn => by omega) h

theorem FitsWord.of_mul (h : (p * q).FitsWord) : p.FitsWord ∧ q.FitsWord := by
  have hvalues : (p * q).exponents.AllValues (· ≤ maxWord) := h
  rw [exponents_mul] at hvalues
  exact Table.AllValues.of_add (fun m n hmn => by omega) hvalues

theorem Invertible.of_mul (h : (p * q).Invertible feed) : p.Invertible feed ∧ q.Invertible feed :=
  ⟨fun l hl => h l (mem_labels_mul.mpr (.inl hl)), fun l hl => h l (mem_labels_mul.mpr (.inr hl))⟩

/-- Evaluation respects a product exactly if no more factors are lost from it than from its
parts. -/
theorem eval_mul (hpq : (p * q).FitsUnsigned) (h : (p * q).Invertible feed) :
    ∃ x y z, p.eval feed = .ok x ∧ q.eval feed = .ok y ∧ (p * q).eval feed = .ok z ∧
      (z = x * y ↔ (p * q).lostValue feed = p.lostValue feed * q.lostValue feed) := by
  obtain ⟨hp, hq⟩ := hpq.of_mul
  obtain ⟨hpi, hqi⟩ := h.of_mul
  refine ⟨_, _, _, eval_eq_div hp hpi, eval_eq_div hq hqi, eval_eq_div hpq h, ?_⟩
  have hne : p.powerValue feed * q.powerValue feed ≠ 0 :=
    mul_ne_zero hpi.powerValue_ne_zero hqi.powerValue_ne_zero
  rw [powerValue_mul, div_mul_div_comm, div_eq_mul_inv, div_eq_mul_inv, mul_right_inj' hne, inv_inj]

end PowerProduct

/-! ## Coefficients -/

namespace Coefficient

variable {feed : Feed Rat} {c : Coefficient Rat}

theorem eval_eq_sum {f : PowerProduct → Rat}
    (h : ∀ p ∈ c.terms.keys, (∀ l ∈ p.labels, l ∈ feed.keys) ∧ p.eval feed = .ok (f p)) :
    c.eval feed = .ok (c.value f) := by
  have hcovered : ∀ l ∈ c.placeholders, l ∈ feed.keys := by
    intro l hl
    obtain ⟨p, hp, hl⟩ := mem_placeholders.mp hl
    exact (h p hp).1 l hl
  rw [eval_of_covered hcovered]
  apply congrArg Except.ok
  apply congrArg List.sum
  apply List.map_congr_left
  intro e he
  obtain ⟨hlabels, heval⟩ := h e.1 (List.mem_map_of_mem he)
  rw [PowerProduct.eval_of_covered hlabels] at heval
  rw [Except.ok.inj heval]

end Coefficient

/-- Power products of nonzero numbers, whatever unsigned words their exponents are, have a
value. It is the product of the powers as they stand up to the factors that exponents lose
as signed words, and exactly this product if no factors are lost. Products of power products
and coefficients follow. -/
theorem PowerProduct.eval_powers (feed : Feed Rat) :
    (∀ p : PowerProduct, p.FitsUnsigned → p.Invertible feed →
      p.eval feed = .ok (p.powerValue feed / p.lostValue feed) ∧
      (p.eval feed = .ok (p.powerValue feed) ↔ p.lostValue feed = 1) ∧
      (p.FitsWord → p.lostValue feed = 1)) ∧
    (∀ p q : PowerProduct, (p * q).FitsUnsigned → (p * q).Invertible feed →
      ∃ x y z, p.eval feed = .ok x ∧ q.eval feed = .ok y ∧ (p * q).eval feed = .ok z ∧
        (z = x * y ↔ (p * q).lostValue feed = p.lostValue feed * q.lostValue feed) ∧
        ((p * q).FitsWord → z = x * y)) ∧
    ∀ c : Coefficient Rat, (∀ p ∈ c.terms.keys, p.FitsUnsigned ∧ p.Invertible feed) →
      c.eval feed = .ok (c.value fun p => p.powerValue feed / p.lostValue feed) ∧
      ((∀ p ∈ c.terms.keys, p.FitsWord) →
        c.eval feed = .ok (c.value (PowerProduct.powerValue feed))) := by
  refine ⟨fun p hp h => ⟨eval_eq_div hp h, eval_eq_powerValue_iff hp h, lostValue_of_fitsWord⟩,
    fun p q hpq h => ?_, fun c hc => ⟨?_, fun hfits => ?_⟩⟩
  · obtain ⟨x, y, z, hx, hy, hz, hiff⟩ := eval_mul hpq h
    refine ⟨x, y, z, hx, hy, hz, hiff, fun hfits => hiff.mpr ?_⟩
    obtain ⟨hp, hq⟩ := hfits.of_mul
    rw [lostValue_of_fitsWord hfits, lostValue_of_fitsWord hp, lostValue_of_fitsWord hq, one_mul]
  · exact Coefficient.eval_eq_sum fun p hp =>
      ⟨(hc p hp).2.covered, eval_eq_div (hc p hp).1 (hc p hp).2⟩
  · exact Coefficient.eval_eq_sum fun p hp =>
      ⟨(hc p hp).2.covered, eval_eq_powerValue (hfits p hp) (hc p hp).2.covered⟩

theorem PowerProduct.entries_single {label : String} {n : Nat} (hn : n ≠ 0) :
    (ofList [(label, n)]).exponents.entries = [(label, n)] := by
  have hfilter : [(label, n)].filter (fun e => decide (e.2 ≠ 0)) = [(label, n)] :=
    List.filter_eq_self.mpr fun e he => decide_eq_true (List.mem_singleton.mp he ▸ hn)
  rw [ofList, hfilter]
  exact congrArg (fun k => [(label, k)]) (Nat.zero_add n)

/-- A half has a power with the greatest signed exponent, and also with the exponent after
it, but the latter is not the product of the former and a half. -/
theorem PowerProduct.eval_powers_half :
    let w := fun n => PowerProduct.ofList [("w", n)]
    let feed : Feed Rat := Table.single "w" (1 / 2)
    let c := Coefficient.ofList [(w 3, 5), (1, 7)]
    (w maxWord).eval feed = .ok ((w maxWord).powerValue feed) ∧
      (w (maxWord + 1)).eval feed ≠ .ok ((w (maxWord + 1)).powerValue feed) ∧
      (∃ x y z, (w maxWord).eval feed = .ok x ∧ (w 1).eval feed = .ok y ∧
        (w maxWord * w 1).eval feed = .ok z ∧ z ≠ x * y) ∧
      c.eval feed = .ok (c.value (powerValue feed)) := by
  intro w feed c
  obtain ⟨hpower, hproduct, hcoefficient⟩ := eval_powers feed
  have hfed : feed.find? "w" = some (1 / 2) := rfl
  have hentries : ∀ n, n ≠ 0 → (w n).exponents.entries = [("w", n)] := fun n => entries_single
  have hfits : ∀ n, n ≠ 0 → n < 2 ^ 32 → (w n).FitsUnsigned := by
    intro n hn hlt e he
    rw [hentries n hn, List.mem_singleton] at he
    rw [he]
    exact hlt
  have hinvertible : ∀ n, n ≠ 0 → (w n).Invertible feed := by
    intro n hn l hl
    rw [labels, Table.keys, hentries n hn, List.map_singleton, List.mem_singleton] at hl
    exact ⟨1 / 2, hl ▸ hfed, by norm_num⟩
  have hlost : ∀ n, n ≠ 0 → (w n).lostValue feed = lostPower (1 / 2) n := by
    intro n hn
    rw [lostValue, hentries n hn, List.map_singleton, List.prod_singleton, hfed, Option.getD_some]
  have hmul : w maxWord * w 1 = w (maxWord + 1) := by decide
  have hkept : ∀ n ≤ maxWord, lostPower (1 / 2) n = 1 := fun n hn => if_pos hn
  have hne : lostPower (1 / 2) (maxWord + 1) ≠ 1 := by
    rw [lostPower, if_neg (by decide)]
    exact (pow_lt_one₀ (by norm_num) (by norm_num) (by norm_num)).ne
  refine ⟨?_, ?_, ?_, ?_⟩
  · obtain ⟨-, hiff, hone⟩ :=
      hpower _ (hfits maxWord (by decide) (by decide)) (hinvertible _ (by decide))
    exact hiff.mpr (hone (by decide))
  · obtain ⟨-, hiff, -⟩ :=
      hpower _ (hfits (maxWord + 1) (by decide) (by decide)) (hinvertible _ (by decide))
    rw [Ne, hiff, hlost _ (by decide)]
    exact hne
  · obtain ⟨x, y, z, hx, hy, hz, hiff, -⟩ := hproduct (w maxWord) (w 1)
      (by rw [hmul]; exact hfits _ (by decide) (by decide))
      (by rw [hmul]; exact hinvertible _ (by decide))
    refine ⟨x, y, z, hx, hy, hz, ?_⟩
    rw [Ne, hiff, hmul, hlost _ (by decide), hlost _ (by decide), hlost _ (by decide),
      hkept maxWord le_rfl, hkept 1 (by decide), one_mul]
    exact hne
  · have hkeys : c.terms.keys = [1, w 3] := by decide +kernel
    refine (hcoefficient c ?_).2 ?_
    · rw [hkeys]
      refine List.forall_mem_cons.mpr ⟨⟨?_, ?_⟩, List.forall_mem_singleton.mpr ?_⟩
      · exact fun e he => absurd he List.not_mem_nil
      · exact fun l hl => absurd hl List.not_mem_nil
      · exact ⟨hfits 3 (by decide) (by decide), hinvertible 3 (by decide)⟩
    · rw [hkeys]
      decide

/-- An exponent of all ones is taken as -1. -/
theorem PowerProduct.eval_reciprocal :
    let p := PowerProduct.ofList [("w", 4294967295)]
    let feed : Feed Rat := Table.single "w" (1 / 2)
    p.FitsUnsigned ∧ p.Invertible feed ∧ p.eval feed = .ok 2 ∧
      p.powerValue feed = (1 / 2) ^ 4294967295 ∧ p.eval feed ≠ .ok (p.powerValue feed) := by
  intro p feed
  have hpower : p.powerValue feed = (1 / 2) ^ 4294967295 := mul_one _
  have hinvertible : p.Invertible feed := by
    intro l hl
    obtain rfl := List.mem_singleton.mp hl
    exact ⟨1 / 2, rfl, by norm_num⟩
  have hfits : p.FitsUnsigned := by
    intro e he
    obtain rfl := List.mem_singleton.mp he
    decide
  have heval : p.eval feed = .ok 2 := by
    have hone : p.wordValue feed = Scalar.power (1 / 2) (wordExponent 4294967295) := mul_one _
    have hexponent : wordExponent 4294967295 = -1 := by decide
    rw [eval_of_covered hinvertible.covered, hone, hexponent, Scalar.power_eq_zpow]
    norm_num
  refine ⟨hfits, hinvertible, heval, hpower, ?_⟩
  rw [heval, hpower, Ne, Except.ok.injEq]
  have hle : (1 / 2 : Rat) ^ 4294967295 ≤ 1 := pow_le_one₀ (by norm_num) (by norm_num)
  intro h
  rw [← h] at hle
  norm_num at hle

end PseudoBoolean
