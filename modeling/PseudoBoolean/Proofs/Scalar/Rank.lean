import Mathlib
import PseudoBoolean.Proofs.Scalar.Double

/-! # The order of doubles

Without their sign, the bits of a double are a number that grows with the absolute value.
Doubles are ranked by this number, the negative ones in reverse and before the positive
ones. On numbers this order refines the order of values: it also tells zeros apart by their
sign. Bits that are not a number are outside all numbers, on the side of their sign, and no
two of them are ranked equal.
-/

namespace PseudoBoolean.Double

open Float.Model UnpackedFloat

/-! ## Bits from values -/

def sign : UnpackedFloat → Sign
  | .infinity s | .zero s | .finite s _ _ _ => s
  | .notANumber => .positive

/-- The bits without the sign, as a number. -/
def magnitude : UnpackedFloat → Int
  | .infinity _ => 2047 * 2 ^ 52
  | .notANumber => 2047 * 2 ^ 52 + 2 ^ 51
  | .zero _ => 0
  | .finite _ m e _ => (e + 1074) * 2 ^ 52 + m

def signValue : Sign → Int
  | .positive => 0
  | .negative => 2 ^ 63

/-- Whether the exponent and the mantissa are in range, and the mantissa has its leading bit
unless the exponent is the least one. -/
def InRange : UnpackedFloat → Prop
  | .finite _ m e _ => -1074 ≤ e ∧ e ≤ 971 ∧ m < 2 ^ 53 ∧ (e = -1074 ∨ 2 ^ 52 ≤ m)
  | _ => True

theorem toNat_eq_fields (b : BitVec Format.binary64.numBits) :
    b.toNat = (unpackSign b).toNat * 2 ^ 63 + (unpackExponent b).toNat * 2 ^ 52
      + (unpackMantissa b).toNat := by
  have hb : b.toNat < 2 ^ 64 := b.isLt
  simp only [unpackSign, unpackExponent, unpackMantissa, BitVec.toNat_cast,
    BitVec.extractLsb_toNat, Nat.shiftRight_eq_div_pow]
  norm_num
  omega

theorem signValue_ofBitVec (s : BitVec 1) : signValue (Sign.ofBitVec s) = s.toNat * 2 ^ 63 := by
  obtain rfl | rfl := BitVec.eq_zero_or_eq_one s <;> rfl

theorem inRange_and_toBits_eq (x : Float) {u : UnpackedFloat} (hu : x.toModel.unpack = u) :
    InRange u ∧ (x.toBits.toNat : Int) = signValue (sign u) + magnitude u := by
  obtain ⟨⟨⟨a⟩, ha⟩⟩ := x
  have hfields := toNat_eq_fields a
  have hexponent : (@unpackExponent Format.binary64 a).toNat < 2 ^ 11 := BitVec.isLt _
  have hmantissa : (@unpackMantissa Format.binary64 a).toNat < 2 ^ 52 := BitVec.isLt _
  have hbias : (Format.binary64.exponentBias : Int) = 1023 := by decide
  change _ ∧ (a.toNat : Int) = _
  simp only [Float.Model.unpack, UnpackedFloat.unpack] at hu
  split_ifs at hu with he hm he' hm <;> subst hu
  · have hE := congrArg BitVec.toNat he
    have hM := congrArg BitVec.toNat hm
    simp only [InRange, sign, magnitude, signValue_ofBitVec, true_and]
    norm_num at hE hM
    omega
  · have hnan : a.toNat = 2047 * 2 ^ 52 + 2 ^ 51 :=
      (congrArg BitVec.toNat (ha.eq_packedNaN he hm)).trans (by decide)
    rw [hnan]
    exact ⟨trivial, rfl⟩
  · have hE := congrArg BitVec.toNat he'
    have hM := congrArg BitVec.toNat hm
    simp only [InRange, sign, magnitude, signValue_ofBitVec, true_and]
    norm_num at hE hM
    omega
  · have hE := congrArg BitVec.toNat he'
    simp only [InRange, sign, magnitude, signValue_ofBitVec, hbias]
    norm_num at hE
    omega
  · have hE : (@unpackExponent Format.binary64 a).toNat ≠ 2047 :=
      fun h => he (BitVec.eq_of_toNat_eq h)
    have hE' : (@unpackExponent Format.binary64 a).toNat ≠ 0 :=
      fun h => he' (BitVec.eq_of_toNat_eq h)
    simp only [InRange, sign, magnitude, signValue_ofBitVec, hbias, toNat_leadingBit_append]
    omega

/-! ## Places in the order -/

def signedRank : Sign → Int → Int
  | .positive, m => m
  | .negative, m => -m - 1

theorem magnitude_bounds {u : UnpackedFloat} (h : InRange u) :
    0 ≤ magnitude u ∧ magnitude u < 2 ^ 63 := by
  cases u with
  | finite s m e hm =>
    simp only [InRange] at h
    simp only [magnitude]
    omega
  | _ => simp [magnitude]

theorem rankKey_eq (x : Float) :
    Binary64.rankKey x.toBits =
      signedRank (sign x.toModel.unpack) (magnitude x.toModel.unpack) := by
  obtain ⟨hrange, hbits⟩ := inRange_and_toBits_eq x rfl
  obtain ⟨hnonneg, hlt⟩ := magnitude_bounds hrange
  have hsignBit : Binary64.signBit = 2 ^ 63 := rfl
  simp only [Binary64.rankKey, hsignBit]
  cases hs : sign x.toModel.unpack with
  | positive =>
    simp only [hs, signValue] at hbits
    rw [if_pos (by omega), signedRank]
    omega
  | negative =>
    simp only [hs, signValue] at hbits
    rw [if_neg (by omega), signedRank]
    omega

theorem signedRank_lt_of_compare {u v : UnpackedFloat} (hu : InRange u) (hv : InRange v)
    (h : u.compare v = some .lt) :
    signedRank (sign u) (magnitude u) < signedRank (sign v) (magnitude v) := by
  have hlt : ∀ (e e' : Int) (m m' : Nat),
      (compare e e').then (compare m m') = .lt ↔ e < e' ∨ e = e' ∧ m < m' := by
    intro e e' m m'
    rw [Ordering.then_eq_lt, compare_lt_iff_lt, compare_lt_iff_lt, compare_eq_iff_eq]
  have hgt : ∀ (e e' : Int) (m m' : Nat),
      (compare e e').then (compare m m') = .gt ↔ e' < e ∨ e = e' ∧ m' < m := by
    intro e e' m m'
    rw [Ordering.then_eq_gt, compare_gt_iff_gt, compare_gt_iff_gt, compare_eq_iff_eq]
  cases u with
  | notANumber => simp [UnpackedFloat.compare] at h
  | infinity s =>
    cases s <;> rcases v with (_ | _) | _ | (_ | _) | (_ | _) <;>
      simp [UnpackedFloat.compare, compare] at h <;>
      simp only [InRange] at hv <;> simp only [sign, magnitude, signedRank] <;> omega
  | zero s =>
    cases s <;> rcases v with (_ | _) | _ | (_ | _) | (_ | _) <;>
      simp [UnpackedFloat.compare] at h <;>
      simp only [InRange] at hv <;> simp only [sign, magnitude, signedRank] <;> omega
  | finite s m e hm =>
    cases s <;> rcases v with (_ | _) | _ | (_ | _) | (_ | _) <;>
      simp [UnpackedFloat.compare, hlt, hgt] at h <;>
      simp only [InRange] at hu hv <;> simp only [sign, magnitude, signedRank] <;> omega

theorem rankKey_lt_of_lt {x y : Float} (h : x < y) :
    Binary64.rankKey x.toBits < Binary64.rankKey y.toBits := by
  have hcompare : x.toModel.unpack.compare y.toModel.unpack = some .lt :=
    beq_iff_eq.mp (of_decide_eq_true h)
  rw [rankKey_eq, rankKey_eq]
  exact signedRank_lt_of_compare (inRange_and_toBits_eq x rfl).1 (inRange_and_toBits_eq y rfl).1
    hcompare

theorem isNaN_eq_false_of_lt {x y : Float} (h : x < y) : x.isNaN = false ∧ y.isNaN = false := by
  have hcompare : x.toModel.unpack.compare y.toModel.unpack = some .lt :=
    beq_iff_eq.mp (of_decide_eq_true h)
  change x.toModel.unpack.isNaN = false ∧ y.toModel.unpack.isNaN = false
  cases hx : x.toModel.unpack <;> cases hy : y.toModel.unpack <;>
    simp [hx, hy, UnpackedFloat.compare, UnpackedFloat.isNaN] at hcompare ⊢

/-! ## Values from bits -/

theorem toNat_mod_eq_fields (b : BitVec Format.binary64.numBits) :
    b.toNat % 2 ^ 63 = (unpackExponent b).toNat * 2 ^ 52 + (unpackMantissa b).toNat := by
  have hfields := toNat_eq_fields b
  have hexponent : (unpackExponent b).toNat < 2 ^ 11 := BitVec.isLt _
  have hmantissa : (unpackMantissa b).toNat < 2 ^ 52 := BitVec.isLt _
  omega

theorem isNaN_unpack_iff (b : BitVec Format.binary64.numBits) :
    (UnpackedFloat.unpack Format.binary64 b).isNaN = true ↔
      unpackExponent b = -1#_ ∧ unpackMantissa b ≠ 0#_ := by
  simp only [UnpackedFloat.unpack]
  split_ifs with he hm
  · simp [UnpackedFloat.isNaN, hm]
  · simp [UnpackedFloat.isNaN, he, hm]
  all_goals exact iff_of_false Bool.false_ne_true fun h => he h.1

theorem valid_of_isNaN_eq_false {b : BitVec Format.binary64.numBits}
    (h : (UnpackedFloat.unpack Format.binary64 b).isNaN = false) : Format.binary64.Valid b :=
  ⟨fun he hm => absurd ((isNaN_unpack_iff b).mpr ⟨he, hm⟩) (by simp [h])⟩

theorem ofBits_of_valid {x : UInt64} (h : Format.binary64.Valid x.toBitVec) :
    Float.ofBits x = ⟨⟨x, h⟩⟩ := Float.ofBits_toBits ⟨⟨x, h⟩⟩

theorem isNaN_ofBits (x : UInt64) :
    (Float.ofBits x).isNaN = (UnpackedFloat.unpack Format.binary64 x.toBitVec).isNaN := by
  cases h : (UnpackedFloat.unpack Format.binary64 x.toBitVec).isNaN with
  | false =>
    rw [ofBits_of_valid (valid_of_isNaN_eq_false h)]
    exact h
  | true =>
    -- What is not a number is packed to the same bits whatever it was unpacked from.
    have hnan : UnpackedFloat.unpack Format.binary64 x.toBitVec = .notANumber := by
      cases hu : UnpackedFloat.unpack Format.binary64 x.toBitVec <;>
        simp [hu, UnpackedFloat.isNaN] at h ⊢
    change (pack (UnpackedFloat.unpack Format.binary64 x.toBitVec)).isNaN = true
    rw [hnan]
    decide

/-- Bits that are not a number have the greatest exponent and a fraction other than 0. -/
theorem isNaN_ofBits_iff (x : UInt64) :
    (Float.ofBits x).isNaN = true ↔ 2047 * 2 ^ 52 < x.toNat % 2 ^ 63 := by
  have hfields : x.toNat % 2 ^ 63 = _ := toNat_mod_eq_fields x.toBitVec
  have hexponent : (@unpackExponent Format.binary64 x.toBitVec).toNat < 2 ^ 11 := BitVec.isLt _
  have hmantissa : (@unpackMantissa Format.binary64 x.toBitVec).toNat < 2 ^ 52 := BitVec.isLt _
  rw [isNaN_ofBits, isNaN_unpack_iff, hfields, ← BitVec.toNat_inj, ne_eq, ← BitVec.toNat_inj]
  norm_num
  omega

theorem toBits_ofBits {x : UInt64} (h : (Float.ofBits x).isNaN = false) :
    (Float.ofBits x).toBits = x := by
  rw [isNaN_ofBits] at h
  rw [ofBits_of_valid (valid_of_isNaN_eq_false h)]
  rfl

end PseudoBoolean.Double

namespace PseudoBoolean.Binary64

theorem rankKey_of_positive {x : UInt64} (hx : x.toNat < 2 ^ 63) : rankKey x = x.toNat :=
  if_pos hx

theorem rankKey_of_negative {x : UInt64} (hx : 2 ^ 63 ≤ x.toNat) :
    rankKey x = 2 ^ 63 - x.toNat - 1 := by
  have hkey : rankKey x = -((x.toNat - 2 ^ 63 : Nat) : Int) - 1 := if_neg hx.not_gt
  omega

theorem rankKey_injective {x y : UInt64} (h : rankKey x = rankKey y) : x = y := by
  have hx : x.toNat < 2 ^ 64 := x.toNat_lt
  have hy : y.toNat < 2 ^ 64 := y.toNat_lt
  apply UInt64.toNat_inj.mp
  obtain hx | hx := Nat.lt_or_ge x.toNat (2 ^ 63) <;>
    obtain hy | hy := Nat.lt_or_ge y.toNat (2 ^ 63) <;>
    simp only [rankKey_of_positive, rankKey_of_negative, hx, hy] at h <;> omega

theorem rank_eq_iff {x y : UInt64} : rank x y = .eq ↔ x = y :=
  compare_eq_iff_eq.trans ⟨rankKey_injective, congrArg _⟩

theorem rank_lt_of_lt {x y : UInt64} (h : Float.ofBits x < Float.ofBits y) :
    rank x y = .lt := by
  obtain ⟨hx, hy⟩ := Double.isNaN_eq_false_of_lt h
  have hkey := Double.rankKey_lt_of_lt h
  rw [Double.toBits_ofBits hx, Double.toBits_ofBits hy] at hkey
  exact compare_lt_iff_lt.mpr hkey

/-- Negative bits are before positive ones. -/
theorem rank_of_signs {x y : UInt64} (hx : 2 ^ 63 ≤ x.toNat) (hy : y.toNat < 2 ^ 63) :
    rank x y = .lt := by
  refine compare_lt_iff_lt.mpr ?_
  rw [rankKey_of_negative hx, rankKey_of_positive hy]
  omega

theorem rank_of_positive {x y : UInt64} (hx : x.toNat < 2 ^ 63) (hy : y.toNat < 2 ^ 63) :
    rank x y = .lt ↔ x < y := by
  rw [rank, compareOn, compare_lt_iff_lt, rankKey_of_positive hx, rankKey_of_positive hy,
    Int.ofNat_lt, UInt64.lt_iff_toNat_lt]

theorem rank_of_negative {x y : UInt64} (hx : 2 ^ 63 ≤ x.toNat) (hy : 2 ^ 63 ≤ y.toNat) :
    rank x y = .lt ↔ y < x := by
  rw [rank, compareOn, compare_lt_iff_lt, rankKey_of_negative hx, rankKey_of_negative hy,
    UInt64.lt_iff_toNat_lt]
  omega

section

variable {x y : UInt64} (hx : (Float.ofBits x).isNaN = true) (hy : (Float.ofBits y).isNaN = false)
include hx hy

theorem mod_lt_of_isNaN : y.toNat % 2 ^ 63 < x.toNat % 2 ^ 63 := by
  have hyle : ¬ 2047 * 2 ^ 52 < y.toNat % 2 ^ 63 := by
    rw [← Double.isNaN_ofBits_iff, hy]
    exact Bool.false_ne_true
  exact lt_of_le_of_lt (Nat.le_of_not_lt hyle) ((Double.isNaN_ofBits_iff x).mp hx)

theorem rank_of_isNaN_positive (hpos : x.toNat < 2 ^ 63) : rank y x = .lt := by
  have hlt := mod_lt_of_isNaN hx hy
  obtain hy | hy := Nat.lt_or_ge y.toNat (2 ^ 63)
  · rw [Nat.mod_eq_of_lt hy, Nat.mod_eq_of_lt hpos] at hlt
    exact (rank_of_positive hy hpos).mpr hlt
  · exact rank_of_signs hy hpos

theorem rank_of_isNaN_negative (hneg : 2 ^ 63 ≤ x.toNat) : rank x y = .lt := by
  have hlt := mod_lt_of_isNaN hx hy
  have hxlt : x.toNat < 2 ^ 64 := x.toNat_lt
  have hylt : y.toNat < 2 ^ 64 := y.toNat_lt
  obtain hy | hy := Nat.lt_or_ge y.toNat (2 ^ 63)
  · exact rank_of_signs hneg hy
  · exact (rank_of_negative hneg hy).mpr (UInt64.lt_iff_toNat_lt.mpr (by omega))

end

instance : Std.TransCmp rank := inferInstanceAs (Std.TransCmp (compareOn rankKey))

end PseudoBoolean.Binary64
