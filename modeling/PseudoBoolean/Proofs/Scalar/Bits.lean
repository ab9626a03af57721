import PseudoBoolean.Proofs.Scalar.Double
import PseudoBoolean.Variable

/-! # Bits as scalars

Between bits and spins the arithmetic is exact, for the rationals as well as for doubles:
a spin stands for the bit that it was made from, every value of a domain for 0 or 1, and
a value is read back from the bit that it stands for.
-/

namespace PseudoBoolean

/-- What is asked of scalars for the domains to present the same bits. -/
class LawfulBits (α : Type) [Scalar α] : Prop where
  toBit?_ofBit (domain : Domain) {b : α} : b = 0 ∨ b = 1 →
    domain.toBit? (domain.ofBit b) = some b
  zero_or_one_of_toBit? {domain : Domain} {x b : α} : domain.toBit? x = some b →
    (b == 0) = true ∨ (b == 1) = true

namespace Domain

variable {α : Type} [Scalar α] {x b : α}

theorem cases_of_toBit? {domain : Domain} (h : domain.toBit? x = some b) :
    ((x == 0) = true ∨ (x == 1) = true) ∧ b = x ∨
      ((x == -1) = true ∨ (x == 1) = true) ∧ b = (x + 1) / (2 : Nat) := by
  cases domain with
  | binary =>
    obtain ⟨hx, hb⟩ := Option.ite_none_right_eq_some.mp h
    exact .inl ⟨Bool.or_eq_true_iff.mp hx, (Option.some.inj hb).symm⟩
  | spin =>
    obtain ⟨hx, hb⟩ := Option.ite_none_right_eq_some.mp h
    exact .inr ⟨Bool.or_eq_true_iff.mp hx, (Option.some.inj hb).symm⟩

end Domain

instance : LawfulBits Rat where
  toBit?_ofBit domain b h := by
    cases domain with
    | binary => obtain rfl | rfl := h <;> rfl
    | spin => obtain rfl | rfl := h <;> decide +kernel
  zero_or_one_of_toBit? h := by
    have hbeq : ∀ {x y : Rat}, Scalar.toBEq.beq x y = true → x = y := of_decide_eq_true
    obtain ⟨hx, rfl⟩ | ⟨hx | hx, rfl⟩ := Domain.cases_of_toBit? h
    · exact hx
    · rw [hbeq hx]
      exact .inl (by decide +kernel)
    · rw [hbeq hx]
      exact .inr (by decide +kernel)

instance : LawfulBits Float where
  toBit?_ofBit domain b h := by
    cases domain with
    | binary => obtain rfl | rfl := h <;> decide +kernel
    | spin => obtain rfl | rfl := h <;> decide +kernel
  zero_or_one_of_toBit? h := by
    obtain ⟨hx, rfl⟩ | ⟨hx | hx, rfl⟩ := Domain.cases_of_toBit? h
    · exact hx
    · rw [Double.eq_of_beq (by decide +kernel) hx]
      exact .inl (by decide +kernel)
    · rw [Double.eq_of_beq (by decide +kernel) hx]
      exact .inr (by decide +kernel)

/-! ## Values from their bits -/

/-- What is asked of scalars for a value of a domain to be read back from its bit. -/
class LawfulReadback (α : Type) [Scalar α] : Prop where
  ofBit_of_toBit? {domain : Domain} {x b : α} : domain.toBit? x = some b → domain.ofBit b = x

theorem Domain.ofBit_eq_of_toBit? {α : Type} [Scalar α]
    (hspin : ∀ {x : α}, (x == -1) = true ∨ (x == 1) = true → spin.ofBit ((x + 1) / (2 : Nat)) = x)
    {domain : Domain} {x b : α} (h : domain.toBit? x = some b) : domain.ofBit b = x := by
  cases domain with
  | binary =>
    obtain ⟨-, hb⟩ := Option.ite_none_right_eq_some.mp h
    exact (Option.some.inj hb).symm
  | spin =>
    obtain ⟨hx, hb⟩ := Option.ite_none_right_eq_some.mp h
    rw [← Option.some.inj hb]
    exact hspin (Bool.or_eq_true_iff.mp hx)

instance : LawfulReadback Rat where
  ofBit_of_toBit? := by
    apply Domain.ofBit_eq_of_toBit?
    rintro x (hx | hx)
    · obtain rfl : x = -1 := of_decide_eq_true hx
      decide +kernel
    · obtain rfl : x = 1 := of_decide_eq_true hx
      decide +kernel

instance : LawfulReadback Float where
  ofBit_of_toBit? := by
    apply Domain.ofBit_eq_of_toBit?
    rintro x (hx | hx)
    · obtain rfl := Double.eq_of_beq (by decide +kernel) hx
      decide +kernel
    · obtain rfl := Double.eq_of_beq (by decide +kernel) hx
      decide +kernel

end PseudoBoolean
