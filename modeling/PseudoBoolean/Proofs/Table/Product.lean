import Mathlib.Algebra.BigOperators.Group.List.Basic
import Mathlib.Algebra.Ring.Defs
import PseudoBoolean.Proofs.Table.Sum

/-! # Products of tables

Two tables are multiplied entry by entry, and the products of entries with the same key are
added up. This is additive in either table, so what holds of entries holds of tables: the
multiplication is associative and commutative where those of the keys and of the values are,
and the entry of two ones is a one. The values need not have a zero. An entry whose value
could be taken for one is kept like all others.
-/

namespace PseudoBoolean.Table

variable {κ ν : Type} [Ord κ] [Std.TransOrd κ] [Std.LawfulEqOrd κ] [DecidableEq κ]

/-- Tables are made of entries by addition. -/
@[elab_as_elim]
theorem induction_entry [AddCommSemigroup ν] {P : Table κ ν → Prop} (t : Table κ ν) (zero : P 0)
    (entry : ∀ k v, P (entry k v)) (add : ∀ t u, P t → P u → P (t + u)) : P t := by
  rw [← t.sum_entries]
  induction t.entries with
  | nil => exact zero
  | cons e rest ih =>
    rw [List.map_cons, List.sum_cons]
    exact add _ _ (entry e.1 e.2) ih

instance [Mul κ] [Add ν] [Mul ν] : Mul (Table κ ν) :=
  ⟨fun t u => (t.entries.flatMap fun e =>
    u.entries.map fun f => entry (e.1 * f.1) (e.2 * f.2)).sum⟩

omit [Std.LawfulEqOrd κ] [DecidableEq κ] in
theorem entry_mul_entry [Mul κ] [Add ν] [Mul ν] (k j : κ) (v w : ν) :
    entry k v * entry j w = entry (k * j) (v * w) := rfl

section
variable [AddCommSemigroup ν] [Mul κ] [Mul ν]

theorem mul_def (t u : Table κ ν) : t * u = (t.entries.map fun e =>
    (u.entries.map fun f => entry (e.1 * f.1) (e.2 * f.2)).sum).sum := by
  have h : t * u = (t.entries.flatMap fun e =>
      u.entries.map fun f => entry (e.1 * f.1) (e.2 * f.2)).sum := rfl
  rw [h, List.flatMap_def, List.sum_flatten, List.map_map]
  rfl

variable [LeftDistribClass ν] [RightDistribClass ν]

instance : NonUnitalNonAssocSemiring (Table κ ν) where
  -- With one factor fixed, the product is a sum over the entries of the other one.
  left_distrib t u v := by
    have hright : ∀ u : Table κ ν, t * u = (t.entries.map fun e =>
        total (fun j w => entry (e.1 * j) (e.2 * w))
          (fun j w w' => by rw [mul_add, entry_add]) u).sum := mul_def t
    simp only [hright, map_add]
    exact List.sum_map_add
  right_distrib t u v := by
    have hleft : ∀ t : Table κ ν, t * v = total (fun k w =>
        (v.entries.map fun f => entry (k * f.1) (w * f.2)).sum)
          (fun k w w' => by
            simp only [add_mul, entry_add]
            exact List.sum_map_add) t := fun t => mul_def t v
    rw [hleft, hleft, hleft, map_add]
  zero_mul t := rfl
  mul_zero t := by
    rw [mul_def]
    apply List.sum_eq_zero
    intro x hx
    obtain ⟨e, -, rfl⟩ := List.mem_map.mp hx
    rfl

end

variable [AddCommSemigroup ν] [CommMonoid κ] [CommMonoid ν] [LeftDistribClass ν]
  [RightDistribClass ν]

protected theorem mul_assoc (t u v : Table κ ν) : t * u * v = t * (u * v) := by
  induction t using induction_entry with
  | zero => rfl
  | add t t' ih ih' => rw [add_mul, add_mul, add_mul, ih, ih']
  | entry k w =>
    induction u using induction_entry with
    | zero => rw [mul_zero, zero_mul, mul_zero]
    | add u u' ih ih' => rw [mul_add, add_mul, add_mul, mul_add, ih, ih']
    | entry k' w' =>
      induction v using induction_entry with
      | zero => rw [mul_zero, mul_zero, mul_zero]
      | add v v' ih ih' => rw [mul_add, mul_add, mul_add, ih, ih']
      | entry k'' w'' => simp only [entry_mul_entry, mul_assoc]

protected theorem mul_comm (t u : Table κ ν) : t * u = u * t := by
  induction t using induction_entry with
  | zero => rw [zero_mul, mul_zero]
  | add t t' ih ih' => rw [add_mul, mul_add, ih, ih']
  | entry k w =>
    induction u using induction_entry with
    | zero => rw [zero_mul, mul_zero]
    | add u u' ih ih' => rw [add_mul, mul_add, ih, ih']
    | entry k' w' => rw [entry_mul_entry, entry_mul_entry, mul_comm k, mul_comm w]

instance : One (Table κ ν) := ⟨entry 1 1⟩

omit [Std.TransOrd κ] [Std.LawfulEqOrd κ] [DecidableEq κ] [AddCommSemigroup ν]
  [LeftDistribClass ν] [RightDistribClass ν] in
theorem one_def : (1 : Table κ ν) = entry 1 1 := rfl

protected theorem one_mul (t : Table κ ν) : 1 * t = t := by
  induction t using induction_entry with
  | zero => exact mul_zero 1
  | add t t' ih ih' => rw [mul_add, ih, ih']
  | entry k v => rw [one_def, entry_mul_entry, one_mul, one_mul]

/-- Multiplication by a single value. -/
theorem mul_entry_one (t : Table κ ν) (w : ν) : t * entry 1 w = t.mapValues (· * w) := by
  induction t using induction_entry with
  | zero => rfl
  | add t u ih ih' => rw [add_mul, ih, ih', mapValues_add fun v v' => add_mul v v' w]
  | entry k v => rw [entry_mul_entry, mul_one]; rfl

/-- An additive map that changes keys and values may be taken of a factor and of the product, if
so it is for keys and for values. -/
theorem map_map_mul {W : Table κ ν →+ Table κ ν} {g : κ → κ} {f : ν → ν}
    (hW : ∀ k v, W (entry k v) = entry (g k) (f v)) (hg : ∀ k j, g (g k * j) = g (k * j))
    (hf : ∀ v w, f (f v * w) = f (v * w)) (t u : Table κ ν) : W (W t * u) = W (t * u) := by
  induction t using induction_entry with
  | zero => rw [map_zero]
  | add t t' ih ih' => rw [map_add, add_mul, add_mul, map_add, map_add, ih, ih']
  | entry k v =>
    induction u using induction_entry with
    | zero => rw [mul_zero, mul_zero]
    | add u u' ih ih' => rw [mul_add, mul_add, map_add, map_add, ih, ih']
    | entry j w => rw [hW, entry_mul_entry, entry_mul_entry, hW, hW, hg, hf]

instance : CommSemiring (Table κ ν) where
  toNonUnitalNonAssocSemiring := inferInstance
  mul_assoc := Table.mul_assoc
  mul_comm := Table.mul_comm
  one_mul := Table.one_mul
  mul_one t := (Table.mul_comm t 1).trans (Table.one_mul t)

end PseudoBoolean.Table
