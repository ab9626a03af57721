import Mathlib
import PseudoBoolean.Expr.Arithmetic
import PseudoBoolean.Proofs.Expr.Evaluation
import PseudoBoolean.Proofs.Expr.Leaves

/-! # What the operators denote

An operator that simplifies has a value exactly if its operands have one, and then it is
what the operation makes of their values. Which terms a sum drops, folds or moves to its
end does therefore not show in a value, nor in whether there is one. It does show in
which label a failure names.
-/

namespace PseudoBoolean.Expr

/-! ## The shapes of results -/

theorem join_cases {α : Type} (a b : Expr α) :
    (∃ v w, a = sum v ∧ b = sum w ∧ join a b = sum (v ++ w)) ∨
      (∃ v, a = sum v ∧ (∀ w, b ≠ sum w) ∧ join a b = sum (v ++ [b])) ∨
      (∃ w, b = sum w ∧ (∀ v, a ≠ sum v) ∧ join a b = sum (w ++ [a])) ∨
      (∀ v, a ≠ sum v) ∧ (∀ w, b ≠ sum w) ∧ join a b = sum [a, b] := by
  unfold join
  split
  · exact .inl ⟨_, _, rfl, rfl, rfl⟩
  · next hb => exact .inr (.inl ⟨_, rfl, fun w h => hb w h, rfl⟩)
  · next ha => exact .inr (.inr (.inl ⟨_, rfl, fun v h => ha v h, rfl⟩))
  · next ha hb _ => exact .inr (.inr (.inr ⟨fun v h => ha v h, fun w h => hb w h, rfl⟩))

theorem add_cases {α : Type} [Scalar α] (a b : Expr α) :
    (∃ x y, a = num x ∧ b = num y ∧ a + b = num (x + y)) ∨ (a.isZero = true ∧ a + b = b) ∨
      (b.isZero = true ∧ a + b = a) ∨
      a.isZero = false ∧ b.isZero = false ∧ a + b = join a b := by
  change _ ∨ (_ ∧ Expr.add a b = b) ∨ (_ ∧ Expr.add a b = a) ∨ _ ∧ _ ∧ Expr.add a b = join a b
  unfold Expr.add
  split
  · exact .inl ⟨_, _, rfl, rfl, rfl⟩
  · split
    · next ha => exact .inr (.inl ⟨ha, rfl⟩)
    · next ha =>
      split
      · next hb => exact .inr (.inr (.inl ⟨hb, rfl⟩))
      · next hb =>
        exact .inr (.inr (.inr
          ⟨Bool.eq_false_of_not_eq_true ha, Bool.eq_false_of_not_eq_true hb, rfl⟩))

theorem mul_cases {α : Type} [Scalar α] (a b : Expr α) :
    (∃ x y, a = num x ∧ b = num y ∧ a * b = num (x * y)) ∨
      (∀ x y, ¬ (a = num x ∧ b = num y)) ∧ a * b = product a b := by
  change _ ∨ _ ∧ Expr.mul a b = product a b
  unfold Expr.mul
  split
  · exact .inl ⟨_, _, rfl, rfl, rfl⟩
  · next h => exact .inr ⟨fun x y hxy => h x y hxy.1 hxy.2, rfl⟩

/-! ## The leaves of results -/

section
variable {α : Type} {a b : Expr α}

theorem leaves_sum_append (v w : List (Expr α)) :
    (sum (v ++ w)).leaves = (sum v).leaves ++ (sum w).leaves := by
  simp only [leaves]
  induction v with
  | nil => rfl
  | cons e rest ih => rw [List.cons_append, termLeaves, ih, termLeaves, List.append_assoc]

theorem leaves_sum_singleton (a : Expr α) : (sum [a]).leaves = a.leaves := List.append_nil _

theorem mem_leaves_join {leaf : Expr α} :
    leaf ∈ (join a b).leaves ↔ leaf ∈ a.leaves ∨ leaf ∈ b.leaves := by
  obtain ⟨v, w, rfl, rfl, h⟩ | ⟨v, rfl, -, h⟩ | ⟨w, rfl, -, h⟩ | ⟨-, -, h⟩ := join_cases a b
  · rw [h, leaves_sum_append, List.mem_append]
  · rw [h, leaves_sum_append, leaves_sum_singleton, List.mem_append]
  · rw [h, leaves_sum_append, leaves_sum_singleton, List.mem_append, or_comm]
  · rw [h, ← List.singleton_append, leaves_sum_append, leaves_sum_singleton,
      leaves_sum_singleton, List.mem_append]

variable [Scalar α] {P : Expr α → Prop}

/-- The leaves of a sum are those of its operands, or a number that two of them add up to. -/
theorem forall_leaves_add (hadd : ∀ x y, P (num x) → P (num y) → P (num (x + y)))
    (ha : ∀ leaf ∈ a.leaves, P leaf) (hb : ∀ leaf ∈ b.leaves, P leaf) :
    ∀ leaf ∈ (a + b).leaves, P leaf := by
  obtain ⟨x, y, rfl, rfl, h⟩ | ⟨-, h⟩ | ⟨-, h⟩ | ⟨-, -, h⟩ := add_cases a b
  · rw [h]
    exact List.forall_mem_singleton.mpr
      (hadd x y (ha _ (List.mem_singleton_self _)) (hb _ (List.mem_singleton_self _)))
  · rwa [h]
  · rwa [h]
  · rw [h]
    exact fun leaf hleaf => (mem_leaves_join.mp hleaf).elim (ha leaf) (hb leaf)

theorem forall_leaves_mul (hmul : ∀ x y, P (num x) → P (num y) → P (num (x * y)))
    (ha : ∀ leaf ∈ a.leaves, P leaf) (hb : ∀ leaf ∈ b.leaves, P leaf) :
    ∀ leaf ∈ (a * b).leaves, P leaf := by
  obtain ⟨x, y, rfl, rfl, h⟩ | ⟨-, h⟩ := mul_cases a b
  · rw [h]
    exact List.forall_mem_singleton.mpr
      (hmul x y (ha _ (List.mem_singleton_self _)) (hb _ (List.mem_singleton_self _)))
  · rw [h]
    exact fun leaf hleaf => (List.mem_append.mp hleaf).elim (ha leaf) (hb leaf)

end

variable {bits : String → Option Bool} {feed : Feed Rat} {a b : Expr Rat} {v : Rat}

theorem eq_of_isZero (h : a.isZero = true) : a = num 0 := by
  cases a with
  | num x => exact congrArg num (of_decide_eq_true h)
  | _ => cases h

/-! ## Joined sums -/

theorem eval_sum_singleton_iff : (sum [a]).eval bits feed = .ok v ↔ a.eval bits feed = .ok v := by
  rw [eval_sum_iff]
  constructor
  · rintro ⟨_, _ | ⟨hx, _ | _⟩, rfl⟩
    rwa [List.sum_singleton]
  · intro h
    exact ⟨[v], .cons h .nil, List.sum_singleton.symm⟩

theorem eval_sum_append_iff {l m : List (Expr Rat)} :
    (sum (l ++ m)).eval bits feed = .ok v ↔
      ∃ x y, (sum l).eval bits feed = .ok x ∧ (sum m).eval bits feed = .ok y ∧ v = x + y := by
  simp only [eval_sum_iff]
  constructor
  · rintro ⟨zs, hzs, rfl⟩
    have hl := List.forall₂_take l.length hzs
    have hm := List.forall₂_drop l.length hzs
    rw [List.take_left] at hl
    rw [List.drop_left] at hm
    refine ⟨_, _, ⟨_, hl, rfl⟩, ⟨_, hm, rfl⟩, ?_⟩
    rw [← List.sum_append, List.take_append_drop]
  · rintro ⟨_, _, ⟨xs, hxs, rfl⟩, ⟨ys, hys, rfl⟩, rfl⟩
    exact ⟨xs ++ ys, List.rel_append hxs hys, List.sum_append.symm⟩

/-! ## The operators -/

theorem eval_join_iff : (join a b).eval bits feed = .ok v ↔
    ∃ x y, a.eval bits feed = .ok x ∧ b.eval bits feed = .ok y ∧ v = x + y := by
  obtain ⟨l, m, rfl, rfl, h⟩ | ⟨l, rfl, -, h⟩ | ⟨m, rfl, -, h⟩ | ⟨-, -, h⟩ := join_cases a b
  · rw [h, eval_sum_append_iff]
  · rw [h, eval_sum_append_iff]
    simp only [eval_sum_singleton_iff]
  · -- The left operand stands behind the terms of the right one.
    rw [h, eval_sum_append_iff, exists_comm]
    simp only [eval_sum_singleton_iff, add_comm, and_left_comm]
  · rw [h, ← List.singleton_append, eval_sum_append_iff]
    simp only [eval_sum_singleton_iff]

theorem eval_add_iff : (a + b).eval bits feed = .ok v ↔
    ∃ x y, a.eval bits feed = .ok x ∧ b.eval bits feed = .ok y ∧ v = x + y := by
  obtain ⟨x, y, rfl, rfl, h⟩ | ⟨ha, h⟩ | ⟨hb, h⟩ | ⟨-, -, h⟩ := add_cases a b
  · rw [h]
    simp only [eval_num_iff, exists_and_left, exists_eq_left]
  · rw [h, eq_of_isZero ha]
    simp only [eval_num_iff, exists_and_left, exists_eq_left, zero_add, exists_eq_right']
  · rw [h, eq_of_isZero hb]
    simp only [eval_num_iff, exists_and_left, exists_eq_left, add_zero, exists_eq_right']
  · rw [h, eval_join_iff]

theorem eval_mul_iff : (a * b).eval bits feed = .ok v ↔
    ∃ x y, a.eval bits feed = .ok x ∧ b.eval bits feed = .ok y ∧ v = x * y := by
  obtain ⟨x, y, rfl, rfl, h⟩ | ⟨-, h⟩ := mul_cases a b
  · rw [h]
    simp only [eval_num_iff, exists_and_left, exists_eq_left]
  · rw [h, eval_product_iff]

theorem eval_mul_num_iff {x : Rat} : (a * num x).eval bits feed = .ok v ↔
    ∃ y, a.eval bits feed = .ok y ∧ v = y * x := by
  rw [eval_mul_iff]
  simp only [eval_num_iff, exists_and_left, exists_eq_left]

theorem eval_neg_iff : (-a).eval bits feed = .ok v ↔ ∃ x, a.eval bits feed = .ok x ∧ v = -x := by
  change (a * num (-1)).eval bits feed = .ok v ↔ _
  rw [eval_mul_num_iff]
  simp only [mul_neg_one]

theorem eval_sub_iff : (a - b).eval bits feed = .ok v ↔
    ∃ x y, a.eval bits feed = .ok x ∧ b.eval bits feed = .ok y ∧ v = x - y := by
  change (a + num (-1) * b).eval bits feed = .ok v ↔ _
  rw [eval_add_iff]
  simp only [eval_mul_iff, eval_num_iff, exists_and_left, exists_eq_left, neg_one_mul]
  constructor
  · rintro ⟨x, hx, _, ⟨y, hy, rfl⟩, rfl⟩
    exact ⟨x, hx, y, hy, (sub_eq_add_neg x y).symm⟩
  · rintro ⟨x, hx, y, hy, rfl⟩
    exact ⟨x, hx, -y, ⟨y, hy, rfl⟩, sub_eq_add_neg x y⟩

section
variable {x y : Rat} (ha : a.eval bits feed = .ok x) (hb : b.eval bits feed = .ok y)
include ha hb

theorem eval_add : (a + b).eval bits feed = .ok (x + y) := eval_add_iff.mpr ⟨x, y, ha, hb, rfl⟩

theorem eval_sub : (a - b).eval bits feed = .ok (x - y) := eval_sub_iff.mpr ⟨x, y, ha, hb, rfl⟩

theorem eval_mul : (a * b).eval bits feed = .ok (x * y) := eval_mul_iff.mpr ⟨x, y, ha, hb, rfl⟩

end

theorem eval_divNumber_iff {n : Rat} : (a.divNumber n).eval bits feed = .ok v ↔
    ∃ x, a.eval bits feed = .ok x ∧ v = x / n := by
  rw [divNumber, eval_mul_num_iff]
  simp only [mul_one_div]

theorem eval_pow_iff {n : Nat} (hn : 1 ≤ n) : (a ^ n).eval bits feed = .ok v ↔
    ∃ x, a.eval bits feed = .ok x ∧ v = x ^ n := by
  induction n, hn using Nat.le_induction generalizing v with
  | base =>
    change a.eval bits feed = .ok v ↔ _
    simp only [pow_one, exists_eq_right']
  | succ n hn ih =>
    have hsucc : a ^ (n + 1) = a ^ n * a := by
      obtain ⟨k, rfl⟩ := Nat.exists_eq_add_of_le' hn
      rfl
    rw [hsucc, eval_mul_iff]
    constructor
    · rintro ⟨y, x, hy, hx, rfl⟩
      obtain ⟨z, hz, rfl⟩ := ih.mp hy
      cases hz.symm.trans hx
      exact ⟨x, hx, (pow_succ x n).symm⟩
    · rintro ⟨x, hx, rfl⟩
      exact ⟨x ^ n, x, ih.mpr ⟨x, hx, rfl⟩, hx, pow_succ x n⟩

theorem eval_foldl_add_iff {l : List (Expr Rat)} :
    (l.foldl (· + ·) a).eval bits feed = .ok v ↔
      ∃ x xs, a.eval bits feed = .ok x ∧
        List.Forall₂ (fun e y => e.eval bits feed = .ok y) l xs ∧ v = x + xs.sum := by
  induction l generalizing a with
  | nil => simp
  | cons e rest ih =>
    rw [List.foldl_cons, ih]
    simp only [eval_add_iff]
    constructor
    · rintro ⟨_, ys, ⟨x, y, hx, hy, rfl⟩, hys, rfl⟩
      exact ⟨x, y :: ys, hx, .cons hy hys, by rw [List.sum_cons, add_assoc]⟩
    · rintro ⟨x, _, hx, _ | ⟨hy, hys⟩, rfl⟩
      exact ⟨_, _, ⟨x, _, hx, hy, rfl⟩, hys, by rw [List.sum_cons, add_assoc]⟩

theorem eval_total_iff {l : List (Expr Rat)} : (total l).eval bits feed = .ok v ↔
    ∃ xs, List.Forall₂ (fun e y => e.eval bits feed = .ok y) l xs ∧ v = xs.sum := by
  rw [total, eval_foldl_add_iff, exists_comm]
  simp only [eval_num_iff, exists_eq_left, zero_add]

/-- What an operator makes of two numbers. -/
def Assignment.value : Assignment → Rat → Rat → Rat
  | .add, x, y => x + y
  | .sub, x, y => x - y
  | .mul, x, y => x * y

theorem eval_assign_iff (op : Assignment) :
    ((assign op b).run a).2.eval bits feed = .ok v ↔
      ∃ x y, a.eval bits feed = .ok x ∧ b.eval bits feed = .ok y ∧ v = op.value x y := by
  cases op with
  | add => exact eval_add_iff
  | sub => exact eval_sub_iff
  | mul => exact eval_mul_iff

/-! ## The operators that may fail -/

theorem toNat?_eq_some_iff {x : Rat} {n : Nat} : Scalar.toNat? x = some n ↔ x = n := by
  change (if x.den = 1 ∧ 0 ≤ x.num then some x.num.toNat else none) = some n ↔ x = n
  constructor
  · intro h
    obtain ⟨⟨hden, hnum⟩, h⟩ := (Option.ite_none_right_eq_some).mp h
    cases h
    rw [← Rat.coe_int_num_of_den_eq_one hden]
    exact_mod_cast congrArg (Int.cast (R := Rat)) (Int.toNat_of_nonneg hnum).symm
  · rintro rfl
    simp

theorem tryPow_eq_ok_iff {x : Rat} {e : Expr Rat} :
    a.tryPow x = .ok e ↔ ∃ n : Nat, x = n ∧ 1 ≤ n ∧ n ≤ maxExponent ∧ e = a ^ n := by
  unfold tryPow
  cases hx : Scalar.toNat? x with
  | none =>
    refine ⟨nofun, ?_⟩
    rintro ⟨n, hn, _⟩
    rw [toNat?_eq_some_iff.mpr hn] at hx
    cases hx
  | some n =>
    have hn := toNat?_eq_some_iff.mp hx
    constructor
    · intro h
      dsimp only at h
      split at h
      · next hle =>
        cases h
        exact ⟨n, hn, hle.1, hle.2, rfl⟩
      · cases h
    · rintro ⟨m, hm, hone, hmax, rfl⟩
      obtain rfl : n = m := by exact_mod_cast hn.symm.trans hm
      exact if_pos ⟨hone, hmax⟩

theorem eq_of_tryPow_eq_error {x : Rat} {err : BuildError Rat} (h : a.tryPow x = .error err) :
    err = .invalidPower x := by
  unfold tryPow at h
  split at h
  · split at h
    · cases h
    · cases h
      rfl
  · cases h
    rfl

theorem tryDiv_eq_ok_iff {d e : Expr Rat} :
    a.tryDiv d = .ok e ↔ ∃ n, d = num n ∧ n ≠ 0 ∧ e = a.divNumber n := by
  cases d with
  | num n =>
    have hzero : (n == (0 : Rat)) = true ↔ n = 0 := decide_eq_true_iff
    constructor
    · intro h
      rw [tryDiv] at h
      split at h
      · cases h
      · next hn =>
        cases h
        exact ⟨n, rfl, mt hzero.mpr hn, rfl⟩
    · rintro ⟨m, hm, hn, rfl⟩
      cases hm
      exact if_neg (mt hzero.mp hn)
  | _ => exact ⟨nofun, nofun⟩

theorem eq_of_tryDiv_eq_error {d : Expr Rat} {err : BuildError Rat} (h : a.tryDiv d = .error err) :
    err = .notDivisible d := by
  unfold tryDiv at h
  split at h
  · split at h
    · cases h
      rfl
    · cases h
  · cases h
    rfl

/-! ## All operators -/

/-- Each operator has a value exactly if its operands have one, and it computes with their
values. An exponent that is given as a scalar has to be a natural number in range, and a
divisor a number other than 0; any other one is named in the failure. -/
theorem eval_operators (a b : Expr Rat) (bits : String → Option Bool) (feed : Feed Rat) :
    (∀ v, (a + b).eval bits feed = .ok v ↔
      ∃ x y, a.eval bits feed = .ok x ∧ b.eval bits feed = .ok y ∧ v = x + y) ∧
    (∀ v, (a - b).eval bits feed = .ok v ↔
      ∃ x y, a.eval bits feed = .ok x ∧ b.eval bits feed = .ok y ∧ v = x - y) ∧
    (∀ v, (a * b).eval bits feed = .ok v ↔
      ∃ x y, a.eval bits feed = .ok x ∧ b.eval bits feed = .ok y ∧ v = x * y) ∧
    (∀ v, (-a).eval bits feed = .ok v ↔ ∃ x, a.eval bits feed = .ok x ∧ v = -x) ∧
    (∀ n ≠ 0, ∀ v, (a.divNumber n).eval bits feed = .ok v ↔
      ∃ x, a.eval bits feed = .ok x ∧ v = x / n) ∧
    (∀ n ≥ 1, ∀ v, (a ^ n).eval bits feed = .ok v ↔
      ∃ x, a.eval bits feed = .ok x ∧ v = x ^ n) ∧
    (∀ l v, (total l).eval bits feed = .ok v ↔
      ∃ xs, List.Forall₂ (fun e x => e.eval bits feed = .ok x) l xs ∧ v = xs.sum) ∧
    (∀ op v, ((assign op b).run a).2.eval bits feed = .ok v ↔
      ∃ x y, a.eval bits feed = .ok x ∧ b.eval bits feed = .ok y ∧ v = op.value x y) ∧
    (∀ n : Nat, 1 ≤ n → n < 2 ^ 32 → a.tryPow n = .ok (a ^ n)) ∧
    (∀ x : Rat, (∀ n : Nat, 1 ≤ n → n < 2 ^ 32 → x ≠ n) →
      a.tryPow x = .error (.invalidPower x)) ∧
    (∀ n ≠ 0, ∃ e, a.tryDiv (num n) = .ok e ∧
      ∀ v, e.eval bits feed = .ok v ↔ ∃ x, a.eval bits feed = .ok x ∧ v = x / n) ∧
    ∀ d, (∀ n ≠ 0, d ≠ num n) → a.tryDiv d = .error (.notDivisible d) := by
  refine ⟨fun v => eval_add_iff, fun v => eval_sub_iff, fun v => eval_mul_iff,
    fun v => eval_neg_iff, fun n _ v => eval_divNumber_iff, fun n hn v => eval_pow_iff hn,
    fun l v => eval_total_iff, fun op v => eval_assign_iff op, ?_, ?_, ?_, ?_⟩
  · intro n hone hmax
    exact tryPow_eq_ok_iff.mpr ⟨n, rfl, hone, Nat.le_of_lt_succ hmax, rfl⟩
  · intro x hx
    cases h : a.tryPow x with
    | ok e =>
      obtain ⟨n, hn, hone, hmax, _⟩ := tryPow_eq_ok_iff.mp h
      exact absurd hn (hx n hone (Nat.lt_succ_of_le hmax))
    | error err => rw [eq_of_tryPow_eq_error h]
  · intro n hn
    exact ⟨_, tryDiv_eq_ok_iff.mpr ⟨n, rfl, hn, rfl⟩, fun v => eval_divNumber_iff⟩
  · intro d hd
    cases h : a.tryDiv d with
    | ok e =>
      obtain ⟨n, hn, hne, _⟩ := tryDiv_eq_ok_iff.mp h
      exact absurd hn (hd n hne)
    | error err => rw [eq_of_tryDiv_eq_error h]

/-- A spin in front of a sum ends up behind its terms. The sum has no value without its
placeholder, and neither has anything that is made of it. -/
theorem eval_operators_flatSum :
    let s : Expr Rat := .var .spin (.ofLabel 0 "s")
    let w : Expr Rat := .sum [.num 2, .placeholder "limit"]
    let bits : String → Option Bool := fun l => if l = "s" then some false else none
    let feed : Feed Rat := Table.ofList [("limit", 1 / 2)]
    s + w = .sum [.num 2, .placeholder "limit", s] ∧
      (s + w).eval bits feed = .ok (3 / 2) ∧ (∀ v, (s - w).eval bits ∅ ≠ .ok v) ∧
      (w ^ 2).eval bits feed = .ok (25 / 4) ∧ (total [s, w, 1]).eval bits feed = .ok (5 / 2) ∧
      ((assign .mul w).run s).2.eval bits feed = .ok (-5 / 2) ∧
      s.tryPow (1 / 2) = .error (.invalidPower (1 / 2)) ∧ s.tryPow 3 = .ok (s ^ 3) ∧
      s.tryDiv 0 = .error (.notDivisible 0) := by
  intro s w bits feed
  have hs : s.eval bits feed = .ok (-1) := by rfl
  have hw : w.eval bits feed = .ok (5 / 2) := by decide +kernel
  have hempty : w.eval bits ∅ = .error (.missingPlaceholder "limit") := by rfl
  obtain ⟨hadd, -, -, -, -, -, htotal, hassign, hpow, hnopow, -, hnodiv⟩ :=
    eval_operators s w bits feed
  obtain ⟨-, hsub, -⟩ := eval_operators s w bits ∅
  obtain ⟨-, -, -, -, -, hpower, -⟩ := eval_operators w s bits feed
  refine ⟨rfl, (hadd _).mpr ⟨_, _, hs, hw, by norm_num⟩, fun v hv => ?_,
    (hpower 2 (by decide) _).mpr ⟨_, hw, by norm_num⟩,
    (htotal _ _).mpr ⟨[-1, 5 / 2, 1], .cons hs (.cons hw (.cons rfl .nil)), by norm_num⟩,
    (hassign .mul _).mpr ⟨_, _, hs, hw, by norm_num [Assignment.value]⟩,
    hnopow _ fun n _ _ h => ?_, hpow 3 (by decide) (by decide), hnodiv _ fun n hn h => ?_⟩
  · obtain ⟨_, _, _, hy, _⟩ := (hsub v).mp hv
    rw [hempty] at hy
    cases hy
  · have hden := congrArg Rat.den h
    norm_num at hden
  · exact hn (num.inj h).symm

end PseudoBoolean.Expr
