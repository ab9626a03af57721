import Mathlib
import PseudoBoolean.Gadget
import PseudoBoolean.Proofs.Expr.Arithmetic
import PseudoBoolean.Proofs.Expr.Value

/-! # Boolean formulas

A formula is an expression built by the connectives from binary variables. Where its
variables have bits, each connective is worth the bit of what it says about its operands,
so the whole formula is worth its truth value. Connectives bring in no numbers but whole
ones, which makes the weights of the polynomial whole numbers.
-/

namespace PseudoBoolean

inductive Formula where
  | var (v : Variable)
  | not (f : Formula)
  | and (f g : Formula)
  | or (f g : Formula)
  | xor (f g : Formula)

namespace Formula

def labels : Formula → List String
  | var v => [v.label]
  | not f => labels f
  | and f g | or f g | xor f g => labels f ++ labels g

def truth (z : String → Bool) : Formula → Bool
  | var v => z v.label
  | not f => !truth z f
  | and f g => truth z f && truth z g
  | or f g => truth z f || truth z g
  | xor f g => truth z f ^^ truth z g

def toExpr {α : Type} [Scalar α] : Formula → Expr α
  | var v => .var .binary v
  | not f => Gadget.not (toExpr f)
  | and f g => Gadget.and (toExpr f) (toExpr g)
  | or f g => Gadget.or (toExpr f) (toExpr g)
  | xor f g => Gadget.xor (toExpr f) (toExpr g)

end Formula

/-! ## Values of the connectives -/

theorem bit_not (x : Bool) : bit (!x) = 1 - bit x := by
  cases x <;> norm_num [bit]

theorem bit_xor (x y : Bool) : bit (x ^^ y) = bit x + bit y - bit x * bit y * 2 := by
  cases x <;> cases y <;> norm_num [bit]

namespace Gadget

open PseudoBoolean.Expr (eval_add eval_sub eval_mul)

variable {a b : Expr Rat} {bits : String → Option Bool} {feed : Feed Rat} {x y : Bool}

theorem eval_not (ha : a.eval bits feed = .ok (bit x)) :
    (not a).eval bits feed = .ok (bit (!x)) := by
  rw [not, Expr.eval, bit_not]
  exact eval_sub rfl ha

variable (ha : a.eval bits feed = .ok (bit x)) (hb : b.eval bits feed = .ok (bit y))
include ha hb

theorem eval_and : (and a b).eval bits feed = .ok (bit (x && y)) := by
  rw [and, Expr.eval, bit_and]
  exact eval_mul ha hb

theorem eval_or : (or a b).eval bits feed = .ok (bit (x || y)) := by
  rw [or, Expr.eval, ← Bool.not_not (x || y), Bool.not_or]
  exact eval_not (eval_and (eval_not ha) (eval_not hb))

theorem eval_xor : (xor a b).eval bits feed = .ok (bit (x ^^ y)) := by
  rw [xor, Expr.eval, bit_xor]
  exact eval_sub (eval_add ha hb) (eval_mul (eval_mul ha hb) rfl)

end Gadget

namespace Formula

variable {z : String → Bool} {bits : String → Option Bool} {feed : Feed Rat}

/-- The truth value depends on the bits of the variables only. -/
theorem truth_congr {y : String → Bool} (f : Formula) (h : ∀ l ∈ f.labels, y l = z l) :
    f.truth y = f.truth z := by
  induction f with
  | var v => exact h v.label (List.mem_singleton_self _)
  | not f ih => rw [truth, truth, ih h]
  | and f g ihf ihg | or f g ihf ihg | xor f g ihf ihg =>
    obtain ⟨hf, hg⟩ := List.forall_mem_append.mp h
    rw [truth, truth, ihf hf, ihg hg]

theorem eval_toExpr (f : Formula) (hbits : ∀ l ∈ f.labels, bits l = some (z l)) :
    (f.toExpr : Expr Rat).eval bits feed = .ok (bit (f.truth z)) := by
  induction f with
  | var v =>
    rw [toExpr, Expr.eval, hbits v.label (List.mem_singleton_self _), truth]
    exact congrArg Except.ok (Expr.bitValue_binary _)
  | not f ih => exact Gadget.eval_not (ih hbits)
  | and f g ihf ihg =>
    obtain ⟨hf, hg⟩ := List.forall_mem_append.mp hbits
    exact Gadget.eval_and (ihf hf) (ihg hg)
  | or f g ihf ihg =>
    obtain ⟨hf, hg⟩ := List.forall_mem_append.mp hbits
    exact Gadget.eval_or (ihf hf) (ihg hg)
  | xor f g ihf ihg =>
    obtain ⟨hf, hg⟩ := List.forall_mem_append.mp hbits
    exact Gadget.eval_xor (ihf hf) (ihg hg)

end Formula

/-! ## Leaves of the connectives -/

def Weight.IsWhole (w : Weight Rat) : Prop := ∃ n : Int, w = number (n : Rat)

/-- Whether a leaf is a whole number or a binary variable. -/
def Expr.IsWholeLeaf : Expr Rat → Prop
  | num x => ∃ n : Int, x = n
  | var .binary _ => True
  | _ => False

/-- Whether all numbers in an expression are whole, and all else are binary variables. -/
def Expr.Whole (e : Expr Rat) : Prop := ∀ leaf ∈ e.leaves, leaf.IsWholeLeaf

namespace Expr.Whole

variable {a b : Expr Rat}

theorem intCast (n : Int) : Whole (num (n : Rat)) := List.forall_mem_singleton.mpr ⟨n, rfl⟩

theorem add (ha : a.Whole) (hb : b.Whole) : (a + b).Whole := by
  refine forall_leaves_add ?_ ha hb
  rintro _ _ ⟨m, rfl⟩ ⟨n, rfl⟩
  exact ⟨m + n, (Int.cast_add m n).symm⟩

theorem mul (ha : a.Whole) (hb : b.Whole) : (a * b).Whole := by
  refine forall_leaves_mul ?_ ha hb
  rintro _ _ ⟨m, rfl⟩ ⟨n, rfl⟩
  exact ⟨m * n, (Int.cast_mul m n).symm⟩

theorem sub (ha : a.Whole) (hb : b.Whole) : (a - b).Whole := ha.add ((intCast (-1)).mul hb)

theorem not (ha : a.Whole) : (Gadget.not a).Whole := sub (a := 1) (intCast 1) ha

theorem and (ha : a.Whole) (hb : b.Whole) : (Gadget.and a b).Whole := ha.mul hb

theorem or (ha : a.Whole) (hb : b.Whole) : (Gadget.or a b).Whole :=
  (ha.not.and hb.not).not

theorem xor (ha : a.Whole) (hb : b.Whole) : (Gadget.xor a b).Whole :=
  (ha.add hb).sub ((ha.mul hb).mul (b := 2) (intCast 2))

theorem not_mem_placeholders (h : a.Whole) (p : String) : p ∉ a.placeholders :=
  fun hp => h _ (mem_placeholders.mp hp)

/-- Numbers that are whole stay so when an expression is expanded. -/
theorem allWeights_polynomial (h : a.Whole) : a.polynomial.AllWeights Weight.IsWhole := by
  refine (allWeights_of_leaves ?_ ?_ a fun leaf hleaf => ?_).1
  · rintro _ _ ⟨m, rfl⟩ ⟨n, rfl⟩
    exact ⟨m + n, congrArg Weight.number (Int.cast_add m n).symm⟩
  · rintro _ _ ⟨m, rfl⟩ ⟨n, rfl⟩
    exact ⟨m * n, congrArg Weight.number (Int.cast_mul m n).symm⟩
  · have hwhole := h leaf hleaf
    obtain ⟨x, rfl⟩ | ⟨d, v, rfl⟩ | ⟨p, rfl⟩ := leaf_cases hleaf
    · obtain ⟨n, rfl⟩ := hwhole
      exact allWeights_constant ⟨n, rfl⟩
    · cases d with
      | binary => exact Table.allValues_entry ⟨1, rfl⟩
      | spin => exact hwhole.elim
    · exact hwhole.elim

theorem fitsWord_polynomial (h : a.Whole) : a.polynomial.AllWeights Weight.FitsWord := by
  intro d hd
  obtain ⟨n, hn⟩ := h.allWeights_polynomial d hd
  rw [hn]
  trivial

end Expr.Whole

namespace Formula

theorem whole_toExpr (f : Formula) : (f.toExpr : Expr Rat).Whole := by
  induction f with
  | var v => exact List.forall_mem_singleton.mpr trivial
  | not f ih => exact ih.not
  | and f g ihf ihg => exact ihf.and ihg
  | or f g ihf ihg => exact ihf.or ihg
  | xor f g ihf ihg => exact ihf.xor ihg

end Formula

end PseudoBoolean
