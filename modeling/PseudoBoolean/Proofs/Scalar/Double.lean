import Mathlib
import PseudoBoolean.Scalar

/-! # Equality of doubles

The bits of a double are known from its sign, its exponent and its mantissa. Two doubles
are equal if both are zero or if they are the same and a number, so equality is symmetric
and transitive, and only a value that is not a number is not equal to itself.
-/

namespace PseudoBoolean.Double

open Float.Model UnpackedFloat

/-! ## Fields -/

theorem eq_of_fields {a b : BitVec Format.binary64.numBits}
    (hsign : unpackSign a = unpackSign b) (hexponent : unpackExponent a = unpackExponent b)
    (hmantissa : unpackMantissa a = unpackMantissa b) : a = b := by
  have ha : a.toNat < 2 ^ 64 := a.isLt
  have hb : b.toNat < 2 ^ 64 := b.isLt
  have hs := congrArg BitVec.toNat hsign
  have he := congrArg BitVec.toNat hexponent
  have hm := congrArg BitVec.toNat hmantissa
  simp only [unpackSign, unpackExponent, unpackMantissa, BitVec.toNat_cast,
    BitVec.extractLsb_toNat, Nat.shiftRight_eq_div_pow] at hs he hm
  norm_num at hs he hm
  apply BitVec.eq_of_toNat_eq
  omega

theorem sign_injective {s t : BitVec 1} (h : Sign.ofBitVec s = Sign.ofBitVec t) : s = t := by
  obtain rfl | rfl := BitVec.eq_zero_or_eq_one s <;>
    obtain rfl | rfl := BitVec.eq_zero_or_eq_one t <;> simp [Sign.ofBitVec] at h ⊢

theorem toNat_leadingBit_append (m : BitVec 52) : (1#1 ++ m).toNat = 2 ^ 52 + m.toNat := by
  rw [BitVec.toNat_append, ← Nat.shiftLeft_add_eq_or_of_lt m.isLt]
  rfl

theorem unpack_injective {f g : Float.Model} (h : f.unpack = g.unpack) : f = g := by
  obtain ⟨⟨a⟩, ha⟩ := f
  obtain ⟨⟨b⟩, hb⟩ := g
  suffices hbits : a = b by
    cases hbits
    rfl
  have hma : (@unpackMantissa Format.binary64 a).toNat < 2 ^ 52 := BitVec.isLt _
  have hmb : (@unpackMantissa Format.binary64 b).toNat < 2 ^ 52 := BitVec.isLt _
  simp only [Float.Model.unpack, UnpackedFloat.unpack] at h
  split_ifs at h
  · next hea hma heb hmb =>
    exact eq_of_fields (sign_injective (infinity.inj h)) (hea.trans heb.symm) (hma.trans hmb.symm)
  -- A double that is not a number has one representation.
  · next hea hma heb hmb =>
    exact (ha.eq_packedNaN hea hma).trans (hb.eq_packedNaN heb hmb).symm
  · next _ hea hma _ heb hmb =>
    exact eq_of_fields (sign_injective (zero.inj h)) (hea.trans heb.symm) (hma.trans hmb.symm)
  · next _ hea _ _ heb _ =>
    obtain ⟨hsign, hmantissa, -⟩ := finite.inj h
    exact eq_of_fields (sign_injective hsign) (hea.trans heb.symm) (BitVec.eq_of_toNat_eq hmantissa)
  -- Only the mantissa of a normal number has the leading bit.
  · obtain ⟨-, hmantissa, -⟩ := finite.inj h
    rw [toNat_leadingBit_append] at hmantissa
    omega
  · obtain ⟨-, hmantissa, -⟩ := finite.inj h
    rw [toNat_leadingBit_append] at hmantissa
    omega
  · obtain ⟨hsign, hmantissa, hexponent⟩ := finite.inj h
    rw [toNat_leadingBit_append, toNat_leadingBit_append] at hmantissa
    exact eq_of_fields (sign_injective hsign) (BitVec.eq_of_toNat_eq (by omega))
      (BitVec.eq_of_toNat_eq (by omega))

/-! ## Equality -/

def isZero : UnpackedFloat → Bool
  | .zero _ => true
  | _ => false

theorem compare_unpacked_eq {u v : UnpackedFloat} :
    u.compare v = some .eq ↔ isZero u = true ∧ isZero v = true ∨ u = v ∧ u.isNaN = false := by
  have hfields : ∀ (e e' : Int) (m m' : Nat),
      (compare e e').then (compare m m') = .eq ↔ m = m' ∧ e = e' := by
    intro e e' m m'
    rw [Ordering.then_eq_eq, Std.LawfulEqOrd.compare_eq_iff_eq, Std.LawfulEqOrd.compare_eq_iff_eq,
      and_comm]
  cases u with
  | notANumber => simp [UnpackedFloat.compare, isZero, UnpackedFloat.isNaN]
  | infinity s =>
    cases s <;> rcases v with (_ | _) | _ | _ | _ <;>
      simp [UnpackedFloat.compare, isZero, UnpackedFloat.isNaN, compare]
  | zero s =>
    rcases v with (_ | _) | _ | _ | (_ | _) <;> simp [UnpackedFloat.compare, isZero]
  | finite s m e h =>
    cases s <;> rcases v with (_ | _) | _ | _ | (_ | _) <;>
      simp [UnpackedFloat.compare, isZero, UnpackedFloat.isNaN, hfields]

theorem beq_iff {x y : Float} : (x == y) = true ↔
    isZero x.toModel.unpack = true ∧ isZero y.toModel.unpack = true ∨ x = y ∧ x.isNaN = false := by
  have hbeq : (x == y) = (x.toModel.unpack.compare y.toModel.unpack == some .eq) := rfl
  have hsame : x.toModel.unpack = y.toModel.unpack ↔ x = y := by
    refine ⟨fun h => ?_, fun h => h ▸ rfl⟩
    cases x
    cases y
    exact congrArg Float.ofModel (unpack_injective h)
  rw [hbeq, beq_iff_eq, compare_unpacked_eq, hsame]
  rfl

/-- A double that is equal to one other than 0 is this double. -/
theorem eq_of_beq {x y : Float} (hy : isZero y.toModel.unpack = false) (h : (x == y) = true) :
    x = y := by
  obtain ⟨-, hzero⟩ | ⟨hsame, -⟩ := beq_iff.mp h
  · rw [hy] at hzero
    cases hzero
  · exact hsame

theorem beq_self_iff {x : Float} : (x == x) = true ↔ x.isNaN = false := by
  rw [beq_iff]
  constructor
  · rintro (⟨h, -⟩ | ⟨-, h⟩)
    · show x.toModel.unpack.isNaN = false
      cases hx : x.toModel.unpack <;> simp [hx, isZero, UnpackedFloat.isNaN] at h ⊢
    · exact h
  · exact fun h => .inr ⟨rfl, h⟩

instance partialEquivBEq : PartialEquivBEq Float where
  symm h := by
    rw [beq_iff] at h ⊢
    obtain ⟨hx, hy⟩ | ⟨rfl, hx⟩ := h
    · exact .inl ⟨hy, hx⟩
    · exact .inr ⟨rfl, hx⟩
  trans h h' := by
    rw [beq_iff] at h h' ⊢
    obtain ⟨hx, hy⟩ | ⟨rfl, hx⟩ := h
    · obtain ⟨-, hz⟩ | ⟨rfl, -⟩ := h'
      · exact .inl ⟨hx, hz⟩
      · exact .inl ⟨hx, hy⟩
    · exact h'

theorem isZero_zero : isZero (0 : Float).toModel.unpack = true := by
  decide +kernel

end PseudoBoolean.Double
