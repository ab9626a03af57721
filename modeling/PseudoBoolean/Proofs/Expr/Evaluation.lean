import Mathlib
import PseudoBoolean.Expr.Evaluation
import PseudoBoolean.Proofs.Fold

/-! # Values by parts

A node has a value exactly if all its parts have one, and then its value is computed from
theirs.
-/

namespace PseudoBoolean.Expr

variable {bits : String → Option Bool} {feed : Feed Rat} {a b : Expr Rat} {v : Rat}

theorem eval_num_iff {x : Rat} : (num x).eval bits feed = .ok v ↔ v = x := by
  rw [eval, Except.ok.injEq, eq_comm]

theorem eval_product_iff : (product a b).eval bits feed = .ok v ↔
    ∃ x y, a.eval bits feed = .ok x ∧ b.eval bits feed = .ok y ∧ v = x * y := by
  rw [eval]
  exact bind_bind_eq_ok_iff

theorem eval_penalized_iff {label : String} : (penalized label a b).eval bits feed = .ok v ↔
    ∃ x y, a.eval bits feed = .ok x ∧ b.eval bits feed = .ok y ∧ v = x + y := by
  rw [eval]
  exact bind_bind_eq_ok_iff

theorem evalSum_iff {x : Rat} {terms : List (Expr Rat)} :
    evalSum bits feed x terms = .ok v ↔
      ∃ xs, List.Forall₂ (fun e y => e.eval bits feed = .ok y) terms xs ∧ v = x + xs.sum := by
  induction terms generalizing x with
  | nil => simp [evalSum, eq_comm]
  | cons e rest ih =>
    rw [evalSum]
    constructor
    · intro h
      obtain ⟨y, hy, h⟩ := bind_eq_ok h
      obtain ⟨ys, hys, hv⟩ := ih.mp h
      refine ⟨y :: ys, .cons hy hys, ?_⟩
      rw [hv, List.sum_cons, ← add_assoc]
    · rintro ⟨_, _ | ⟨hy, hys⟩, hv⟩
      rw [hy]
      apply ih.mpr
      refine ⟨_, hys, ?_⟩
      rw [hv, List.sum_cons, ← add_assoc]

theorem eval_sum_iff {terms : List (Expr Rat)} : (sum terms).eval bits feed = .ok v ↔
    ∃ xs, List.Forall₂ (fun e y => e.eval bits feed = .ok y) terms xs ∧ v = xs.sum := by
  rw [eval]
  simpa using evalSum_iff (x := 0)

end PseudoBoolean.Expr
