import Mathlib
import PseudoBoolean.Ising
import PseudoBoolean.Proofs.Fold
import PseudoBoolean.Proofs.Table.Sum

/-! # Forms in spins

Each entry of a quadratic form adds its value at the bits `(s + 1) / 2` to the energy of
the spins `s`. So the spin form, in which a variable collects a share of every entry of
its row and its column, has the energy of the form at these bits.
-/

namespace PseudoBoolean.Ising

variable {κ : Type} [Ord κ]

/-- The energy of the spins `s`. -/
def energy (s : κ → Rat) (m : Ising κ Rat) : Rat :=
  (m.linear.entries.map fun e => e.2 * s e.1).sum
    + (m.quadratic.entries.map fun e => e.2 * s e.1.row * s e.1.col).sum + m.offset

variable [Std.TransOrd κ] [Std.LawfulEqOrd κ] [DecidableEq κ]

/-! ## The keys -/

section
variable {α : Type} [Scalar α]

theorem mem_keys_addLinear {t : Table κ α} {k l : κ} {x : α} :
    l ∈ (addLinear t k x).keys ↔ l = k ∨ l ∈ t.keys := Table.mem_keys_upsert

theorem mem_keys_linear_addEntry {m : Ising κ α} {c : Cell κ} {x : α} {k : κ} :
    k ∈ (m.addEntry c x).linear.keys ↔ k ∈ m.linear.keys ∨ k = c.row ∨ k = c.col := by
  unfold addEntry
  split
  · next h => rw [mem_keys_addLinear, h, or_self, or_comm]
  · rw [mem_keys_addLinear, mem_keys_addLinear, ← or_assoc, or_comm, or_comm (a := k = c.col)]

theorem mem_keys_quadratic_addEntry {m : Ising κ α} {c d : Cell κ} {x : α} :
    d ∈ (m.addEntry c x).quadratic.keys ↔ d ∈ m.quadratic.keys ∨ (d = c ∧ c.row ≠ c.col) := by
  unfold addEntry
  split
  · next h => simp [h]
  · next h => rw [Table.mem_keys_insert, or_comm, and_iff_left h]

theorem mem_keys_linear_foldl {l : List (Cell κ × α)} {m : Ising κ α} {k : κ} :
    k ∈ (l.foldl (fun m e => m.addEntry e.1 e.2) m).linear.keys ↔
      k ∈ m.linear.keys ∨ ∃ c ∈ l.map Prod.fst, k = c.row ∨ k = c.col := by
  induction l generalizing m with
  | nil => simp
  | cons e rest ih =>
    rw [List.foldl_cons, ih, mem_keys_linear_addEntry, List.map_cons, List.exists_mem_cons_iff,
      or_assoc]

theorem mem_keys_quadratic_foldl {l : List (Cell κ × α)} {m : Ising κ α} {d : Cell κ} :
    d ∈ (l.foldl (fun m e => m.addEntry e.1 e.2) m).quadratic.keys ↔
      d ∈ m.quadratic.keys ∨ (d ∈ l.map Prod.fst ∧ d.row ≠ d.col) := by
  induction l generalizing m with
  | nil => simp
  | cons e rest ih =>
    rw [List.foldl_cons, ih, mem_keys_quadratic_addEntry, List.map_cons, List.mem_cons,
      or_and_right, or_assoc]
    have hsame : d = e.1 ∧ e.1.row ≠ e.1.col ↔ d = e.1 ∧ d.row ≠ d.col :=
      and_congr_right fun h => by rw [h]
    rw [hsame]

variable {f : QuadraticForm κ α}

theorem mem_keys_linear_ofForm {k : κ} :
    k ∈ (ofForm f).linear.keys ↔ ∃ c ∈ f.entries.keys, k = c.row ∨ k = c.col := by
  rw [ofForm, mem_keys_linear_foldl]
  exact or_iff_right List.not_mem_nil

theorem mem_keys_quadratic_ofForm {c : Cell κ} :
    c ∈ (ofForm f).quadratic.keys ↔ c ∈ f.entries.keys ∧ c.row ≠ c.col := by
  rw [ofForm, mem_keys_quadratic_foldl]
  exact or_iff_right List.not_mem_nil

end

/-! ## The energy -/

variable {s : κ → Rat}

/-- The sum of the linear terms, which is additive in the table. -/
def linearSum (s : κ → Rat) : Table κ Rat →+ Rat :=
  Table.total (fun k x => x * s k) fun k x y => add_mul x y (s k)

def quadraticSum (s : κ → Rat) : Table (Cell κ) Rat →+ Rat :=
  Table.total (fun c x => x * s c.row * s c.col) fun c x y => by rw [add_mul, add_mul]

theorem energy_eq (m : Ising κ Rat) :
    m.energy s = linearSum s m.linear + quadraticSum s m.quadratic + m.offset := rfl

theorem linearSum_addLinear (t : Table κ Rat) (k : κ) (x : Rat) :
    linearSum s (addLinear t k x) = linearSum s t + x * s k := by
  have h : addLinear t k x = t + Table.entry k x := Table.upsert_getD_add t k x
  rw [h, map_add, linearSum, Table.total_entry]

theorem quadraticSum_insert {t : Table (Cell κ) Rat} {c : Cell κ} (hc : c ∉ t.keys) (x : Rat) :
    quadraticSum s (t.insert c x) = quadraticSum s t + x * s c.row * s c.col := by
  rw [Table.insert_eq_add hc, map_add, quadraticSum, Table.total_entry]

/-- An entry adds its value at the bits. On the diagonal the square of the spin has to be 1. -/
theorem energy_addEntry {m : Ising κ Rat} {c : Cell κ} (hc : c ∉ m.quadratic.keys)
    (hs : c.row = c.col → s c.row = -1 ∨ s c.row = 1) (x : Rat) :
    (m.addEntry c x).energy s
      = m.energy s + x * ((s c.row + 1) / 2) * ((s c.col + 1) / 2) := by
  unfold addEntry
  split
  · next h =>
    have hsquare : s c.row * s c.row = 1 := by
      obtain hs | hs := hs h <;> rw [hs] <;> norm_num
    simp only [energy_eq, linearSum_addLinear, ← h]
    push_cast
    linear_combination (-x / 4) * hsquare
  · simp only [energy_eq, linearSum_addLinear, quadraticSum_insert hc]
    push_cast
    ring

theorem energy_foldl {l : List (Cell κ × Rat)} (hl : (l.map Prod.fst).Nodup)
    (hs : ∀ c ∈ l.map Prod.fst, c.row = c.col → s c.row = -1 ∨ s c.row = 1) {m : Ising κ Rat}
    (hm : ∀ c ∈ l.map Prod.fst, c ∉ m.quadratic.keys) :
    (l.foldl (fun m e => m.addEntry e.1 e.2) m).energy s = m.energy s
      + (l.map fun e => e.2 * ((s e.1.row + 1) / 2) * ((s e.1.col + 1) / 2)).sum := by
  induction l generalizing m with
  | nil => simp
  | cons e rest ih =>
    obtain ⟨he, hrest⟩ := List.nodup_cons.mp hl
    obtain ⟨hse, hsrest⟩ := List.forall_mem_cons.mp hs
    obtain ⟨hme, hmrest⟩ := List.forall_mem_cons.mp hm
    -- The cells to come are still without an entry, as no cell comes twice.
    have hstep : ∀ c ∈ rest.map Prod.fst, c ∉ (m.addEntry e.1 e.2).quadratic.keys := by
      intro c hc hmem
      obtain hmem | ⟨rfl, -⟩ := mem_keys_quadratic_addEntry.mp hmem
      · exact hmrest c hc hmem
      · exact he hc
    rw [List.foldl_cons, ih hrest hsrest hstep, energy_addEntry hme hse, List.map_cons,
      List.sum_cons, add_assoc]

/-- The spin form of a quadratic form has the energy of the form at the bits of the spins. -/
theorem energy_ofForm {f : QuadraticForm κ Rat}
    (hs : ∀ c ∈ f.entries.keys, c.row = c.col → s c.row = -1 ∨ s c.row = 1) :
    (ofForm f).energy s = f.energy fun k => (s k + 1) / 2 := by
  have hstart : energy s ⟨∅, ∅, f.offset⟩ = f.offset := by
    change (0 : Rat) + 0 + f.offset = f.offset
    rw [zero_add, zero_add]
  have hform := foldl_add_eq_sum
    (fun e : Cell κ × Rat => e.2 * ((s e.1.row + 1) / 2) * ((s e.1.col + 1) / 2)) f.offset
    f.entries.entries
  rw [ofForm, energy_foldl f.entries.keys_nodup hs fun c _ => List.not_mem_nil, hstart]
  exact hform.symm

end PseudoBoolean.Ising
