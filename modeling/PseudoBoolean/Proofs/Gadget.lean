import Mathlib
import PseudoBoolean.Gadget
import PseudoBoolean.Proofs.Expr.Agreement
import PseudoBoolean.Proofs.Expr.Arithmetic

/-! # Relations as penalties

At operands with the values 0 and 1, whatever expressions they are, a relation is worth 0
where it holds and at least 1 elsewhere. For the exclusive disjunction this is the least
of the values for the two bits of its auxiliary variable, which are squares.
-/

namespace PseudoBoolean.Gadget

open PseudoBoolean.Expr (eval_add eval_sub eval_mul)

/-- Whether a value is 0 under a condition, and at least 1 otherwise. -/
def IsPenalty (holds : Bool) (v : Rat) : Prop := if holds then v = 0 else 1 ≤ v

theorem IsPenalty.nonneg {holds : Bool} {v : Rat} (h : IsPenalty holds v) : 0 ≤ v := by
  cases holds with
  | true => exact h.ge
  | false => exact zero_le_one.trans h

/-! ## Values at bits -/

theorem isPenalty_not (x y : Bool) :
    IsPenalty (x != y) (bit x * bit y * 2 - bit x - bit y + 1) := by
  cases x <;> cases y <;> norm_num [IsPenalty, bit]

theorem isPenalty_and (x y z : Bool) :
    IsPenalty (z == (x && y)) (bit x * bit y - (bit x + bit y) * bit z * 2 + bit z * 3) := by
  cases x <;> cases y <;> cases z <;> norm_num [IsPenalty, bit]

theorem isPenalty_or (x y z : Bool) :
    IsPenalty (z == (x || y))
      (bit x * bit y + (bit x + bit y) * (1 - bit z * 2) + bit z) := by
  cases x <;> cases y <;> cases z <;> norm_num [IsPenalty, bit]

/-- The value of an exclusive disjunction whose auxiliary variable has the bit `w`. -/
def xorValue (x y z w : Bool) : Rat := (bit x + bit y - bit z - 2 * bit w) ^ 2

theorem bit_sq (x : Bool) : bit x ^ 2 = bit x := by
  cases x <;> norm_num [bit]

theorem xorValue_eq (x y z w : Bool) :
    xorValue x y z w = bit x * bit y * 2 - (bit x + bit y) * bit z * 2
      - (bit x + bit y) * bit w * 4 + bit w * bit z * 4 + (bit x + bit y) + bit z + bit w * 4 := by
  rw [xorValue]
  linear_combination bit_sq x + bit_sq y + bit_sq z + 4 * bit_sq w

theorem xorValue_nonneg (x y z w : Bool) : 0 ≤ xorValue x y z w := sq_nonneg _

theorem isPenalty_xor (x y z : Bool) :
    IsPenalty (z == (x ^^ y)) (min (xorValue x y z false) (xorValue x y z true)) := by
  cases x <;> cases y <;> cases z <;> norm_num [IsPenalty, xorValue, bit]

/-! ## Values of the relations -/

variable {label : String} {a b c : Expr Rat} {bits : String → Option Bool} {feed : Feed Rat}
  {x y z w : Bool}

section
variable (ha : a.eval bits feed = .ok (bit x)) (hb : b.eval bits feed = .ok (bit y))
include ha hb

theorem eval_requireNot :
    ∃ v, (requireNot label a b).eval bits feed = .ok v ∧ IsPenalty (x != y) v := by
  refine ⟨_, ?_, isPenalty_not x y⟩
  rw [requireNot, Expr.eval]
  exact eval_add (eval_sub (eval_sub (eval_mul (eval_mul ha hb) rfl) ha) hb) rfl

variable (hc : c.eval bits feed = .ok (bit z))
include hc

theorem eval_requireAnd :
    ∃ v, (requireAnd label a b c).eval bits feed = .ok v ∧ IsPenalty (z == (x && y)) v := by
  refine ⟨_, ?_, isPenalty_and x y z⟩
  rw [requireAnd, Expr.eval]
  have htwo : (2 : Expr Rat).eval bits feed = .ok 2 := rfl
  have hsum := eval_mul (eval_mul (eval_add ha hb) hc) htwo
  exact eval_add (eval_sub (eval_mul ha hb) hsum) (eval_mul hc rfl)

theorem eval_requireOr :
    ∃ v, (requireOr label a b c).eval bits feed = .ok v ∧ IsPenalty (z == (x || y)) v := by
  refine ⟨_, ?_, isPenalty_or x y z⟩
  rw [requireOr, Expr.eval]
  have hnegated : (1 - c * 2 : Expr Rat).eval bits feed = .ok (1 - bit z * 2) :=
    eval_sub rfl (eval_mul hc rfl)
  exact eval_add (eval_add (eval_mul ha hb) (eval_mul (eval_add ha hb) hnegated)) hc

theorem eval_requireXorWith {aux : Variable} (haux : bits aux.label = some w) :
    (requireXorWith label aux a b c).eval bits feed = .ok (xorValue x y z w) := by
  have hx : (Expr.var .binary aux).eval bits feed = .ok (bit w) := by
    rw [Expr.eval, haux]
    cases w <;> rfl
  have htwo : (2 : Expr Rat).eval bits feed = .ok 2 := rfl
  have hfour : (4 : Expr Rat).eval bits feed = .ok 4 := rfl
  have hs := eval_add ha hb
  have hproducts := eval_sub
    (eval_sub (eval_mul (eval_mul ha hb) htwo) (eval_mul (eval_mul hs hc) htwo))
    (eval_mul (eval_mul hs hx) hfour)
  have hmixed := eval_add hproducts (eval_mul (eval_mul hx hc) hfour)
  rw [requireXorWith, Expr.eval, xorValue_eq]
  exact eval_add (eval_add (eval_add hmixed hs) hc) (eval_mul hx hfour)

/-- The auxiliary variable may have any bit, or none, as long as no operand reads it. -/
theorem eval_requireXor (supply : Nat) (hfresh : ∀ e ∈ [a, b, c], xorLabel label ∉ e.labels)
    (w : Bool) :
    ((requireXor label a b c).run supply).1.eval
      (Function.update bits (xorLabel label) (some w)) feed = .ok (xorValue x y z w) := by
  have hkeep : ∀ e ∈ [a, b, c], ∀ v, e.eval bits feed = .ok v →
      e.eval (Function.update bits (xorLabel label) (some w)) feed = .ok v := by
    intro e he v hv
    apply Expr.eval_of_agree hv
    intro l hl
    apply Function.update_of_ne
    rintro rfl
    exact hfresh e he hl
  exact eval_requireXorWith (hkeep a (by simp) _ ha) (hkeep b (by simp) _ hb)
    (hkeep c (by simp) _ hc) (Function.update_self _ _ _)

end

/-! ## All relations -/

/-- The constraints that state a relation, with the operands of each. -/
inductive IsRelation (label : String) : Expr Rat → List (Expr Rat) → Prop where
  | not (a b : Expr Rat) : IsRelation label (requireNot label a b) [a, b]
  | and (a b c : Expr Rat) : IsRelation label (requireAnd label a b c) [a, b, c]
  | or (a b c : Expr Rat) : IsRelation label (requireOr label a b c) [a, b, c]
  | xor (supply : Nat) (a b c : Expr Rat) :
      IsRelation label ((requireXor label a b c).run supply).1 [a, b, c]

variable {n : Expr Rat} {operands : List (Expr Rat)}

theorem IsRelation.exists_body (h : IsRelation label n operands) :
    ∃ body, n = .constraint label body := by
  cases h with
  | not a b => exact ⟨_, rfl⟩
  | and a b c => exact ⟨_, rfl⟩
  | or a b c => exact ⟨_, rfl⟩
  | xor supply a b c => exact ⟨_, rfl⟩

/-- Where all variables have bits and all operands are worth 0 or 1, so has a relation a
value, and it is not negative. -/
theorem IsRelation.exists_value (h : IsRelation label n operands) {z : String → Bool}
    (hoperands : ∀ a ∈ operands, ∃ x, a.eval (fun l => some (z l)) feed = .ok (bit x)) :
    ∃ v, n.eval (fun l => some (z l)) feed = .ok v ∧ 0 ≤ v := by
  cases h with
  | not a b =>
    simp only [List.forall_mem_cons] at hoperands
    obtain ⟨⟨x, ha⟩, ⟨y, hb⟩, -⟩ := hoperands
    obtain ⟨v, hv, hpenalty⟩ := eval_requireNot ha hb
    exact ⟨v, hv, hpenalty.nonneg⟩
  | and a b c =>
    simp only [List.forall_mem_cons] at hoperands
    obtain ⟨⟨x, ha⟩, ⟨y, hb⟩, ⟨w, hc⟩, -⟩ := hoperands
    obtain ⟨v, hv, hpenalty⟩ := eval_requireAnd ha hb hc
    exact ⟨v, hv, hpenalty.nonneg⟩
  | or a b c =>
    simp only [List.forall_mem_cons] at hoperands
    obtain ⟨⟨x, ha⟩, ⟨y, hb⟩, ⟨w, hc⟩, -⟩ := hoperands
    obtain ⟨v, hv, hpenalty⟩ := eval_requireOr ha hb hc
    exact ⟨v, hv, hpenalty.nonneg⟩
  | xor supply a b c =>
    simp only [List.forall_mem_cons] at hoperands
    obtain ⟨⟨x, ha⟩, ⟨y, hb⟩, ⟨w, hc⟩, -⟩ := hoperands
    exact ⟨_, eval_requireXorWith ha hb hc rfl, xorValue_nonneg x y w _⟩

end PseudoBoolean.Gadget
