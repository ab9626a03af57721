import Mathlib.Algebra.BigOperators.Group.List.Basic
import Mathlib.Algebra.Group.Hom.Defs
import PseudoBoolean.Proofs.Table.Lookup

/-! # Sums of tables

Tables whose values can be added form a commutative monoid: a sum has the keys of both
tables, and where both have a value it adds them. A function of keys and values that is
additive in the value extends to the sum over the entries, which is additive in the
table.
-/

namespace PseudoBoolean.Table

variable {κ ν : Type} [Ord κ]

def entry (k : κ) (v : ν) : Table κ ν := ⟨[(k, v)], List.pairwise_singleton _ _⟩

theorem mem_keys_entry {k k' : κ} {v : ν} : k' ∈ (entry k v).keys ↔ k' = k := List.mem_singleton

theorem find?_entry [Std.LawfulEqOrd κ] [DecidableEq κ] (k k' : κ) (v : ν) :
    (entry k v).find? k' = if k' = k then some v else none := by
  simp only [entry, find?, findIn?, Std.LawfulEqOrd.compare_eq_iff_eq]

theorem allValues_entry {P : ν → Prop} {k : κ} {v : ν} (h : P v) : (entry k v).AllValues P := by
  intro e he
  rw [entry, List.mem_singleton] at he
  rw [he]
  exact h

theorem sum_upsertEntries [Std.LawfulEqOrd κ] [Add ν] {M : Type} [AddCommMonoid M] {g : κ → ν → M}
    (hg : ∀ k v w, g k (v + w) = g k v + g k w) (k : κ) (v : ν) (l : List (κ × ν)) :
    ((upsertEntries k (fun | some w => w + v | none => v) l).map fun e => g e.1 e.2).sum
      = (l.map fun e => g e.1 e.2).sum + g k v := by
  induction l with
  | nil => simp [upsertEntries]
  | cons e rest ih =>
    simp only [upsertEntries]
    split
    · rw [List.map_cons, List.sum_cons, add_comm]
    · next hk =>
      rw [Std.LawfulEqOrd.eq_of_compare hk, List.map_cons, List.map_cons, List.sum_cons,
        List.sum_cons, hg, add_right_comm]
    · rw [List.map_cons, List.map_cons, List.sum_cons, List.sum_cons, ih, add_assoc]

variable [Std.TransOrd κ]

/-- Adds `v` to the value of `k`, or enters it where `k` has none. -/
def addAt [Add ν] (t : Table κ ν) (k : κ) (v : ν) : Table κ ν :=
  t.upsert k fun
    | some w => w + v
    | none => v

def addAll [Add ν] (t : Table κ ν) (l : List (κ × ν)) : Table κ ν :=
  l.foldl (fun t e => t.addAt e.1 e.2) t

instance [Add ν] : Add (Table κ ν) := ⟨fun t u => t.addAll u.entries⟩

instance : Zero (Table κ ν) := ⟨∅⟩

theorem upsert_getD_add [AddMonoid ν] (t : Table κ ν) (k : κ) (v : ν) :
    (t.upsert k fun old => old.getD 0 + v) = t.addAt k v := by
  rw [addAt]
  congr 1
  funext old
  cases old with
  | none => exact zero_add v
  | some w => rfl

theorem addAt_eq [Add ν] (t : Table κ ν) (k : κ) (v : ν) : t.addAt k v = t + entry k v := rfl

variable [Std.LawfulEqOrd κ] [DecidableEq κ]

theorem find?_addAt [Add ν] (t : Table κ ν) (k k' : κ) (v : ν) :
    (t.addAt k v).find? k' = Option.merge (· + ·) (t.find? k') ((entry k v).find? k') := by
  rw [addAt, find?_upsert, find?_entry]
  split
  · next h =>
    rw [h]
    cases t.find? k <;> rfl
  · rw [Option.merge_none_right]

theorem find?_addAll_of_ascending [AddCommSemigroup ν] {l : List (κ × ν)}
    (h : l.Pairwise (fun d e => compare d.1 e.1 = .lt)) (t : Table κ ν) (k : κ) :
    (t.addAll l).find? k = Option.merge (· + ·) (t.find? k) (findIn? k l) := by
  induction l generalizing t with
  | nil => rw [findIn?, Option.merge_none_right]; rfl
  | cons e rest ih =>
    obtain ⟨he, hrest⟩ := List.pairwise_cons.mp h
    have hstep : (t.addAll (e :: rest)).find? k
        = Option.merge (· + ·) ((t.addAt e.1 e.2).find? k) (findIn? k rest) :=
      ih hrest (t.addAt e.1 e.2)
    rw [hstep, find?_addAt, find?_entry, findIn?]
    by_cases hk : k = e.1
    · have hnone : findIn? k rest = none := findIn?_eq_none_of_lt fun f hf => hk ▸ he f hf
      simp [hk, hk ▸ hnone]
    · simp [hk]

theorem find?_add [AddCommSemigroup ν] (t u : Table κ ν) (k : κ) :
    (t + u).find? k = Option.merge (· + ·) (t.find? k) (u.find? k) :=
  find?_addAll_of_ascending u.ascending t k

instance [AddCommSemigroup ν] : AddCommMonoid (Table κ ν) where
  add_assoc t u v := by
    apply ext_find?
    intro k
    simp only [find?_add]
    cases t.find? k <;> cases u.find? k <;> cases v.find? k <;> simp [add_assoc]
  add_comm t u := by
    apply ext_find?
    intro k
    simp only [find?_add]
    cases t.find? k <;> cases u.find? k <;> simp [add_comm]
  zero_add t := by
    apply ext_find?
    intro k
    rw [find?_add]
    exact Option.merge_none_left
  add_zero t := rfl
  nsmul := nsmulRec

theorem entry_add [AddCommSemigroup ν] (k : κ) (v w : ν) :
    entry k (v + w) = entry k v + entry k w := by
  apply ext_find?
  intro j
  rw [find?_add, find?_entry, find?_entry, find?_entry]
  split <;> rfl

theorem mem_keys_addAll [Add ν] {t : Table κ ν} {l : List (κ × ν)} {k : κ} :
    k ∈ (t.addAll l).keys ↔ k ∈ t.keys ∨ k ∈ l.map Prod.fst := by
  induction l generalizing t with
  | nil => exact (or_iff_left List.not_mem_nil).symm
  | cons e rest ih =>
    have hstep : t.addAll (e :: rest) = (t.addAt e.1 e.2).addAll rest := rfl
    rw [hstep, ih, addAt, mem_keys_upsert, List.map_cons, List.mem_cons, or_comm (a := k = e.1),
      or_assoc]

theorem mem_keys_add [Add ν] {t u : Table κ ν} {k : κ} :
    k ∈ (t + u).keys ↔ k ∈ t.keys ∨ k ∈ u.keys := mem_keys_addAll

/-! ## Properties of the values -/

section
variable [Add ν] {P : ν → Prop} {t u : Table κ ν}

theorem allValues_addAt (hP : ∀ v w, P v → P w → P (v + w)) (ht : t.AllValues P) (k : κ) {v : ν}
    (hv : P v) : (t.addAt k v).AllValues P := by
  rw [allValues_iff] at *
  intro k' w hw
  rw [find?_addAt] at hw
  obtain ⟨h, -⟩ | ⟨-, h⟩ | ⟨x, y, hx, hy, rfl⟩ := Option.merge_eq_some_iff.mp hw
  · exact ht k' w h
  · exact allValues_iff.mp (allValues_entry hv) k' w h
  · exact hP x y (ht k' x hx) (allValues_iff.mp (allValues_entry hv) k' y hy)

theorem allValues_addAll (hP : ∀ v w, P v → P w → P (v + w)) (ht : t.AllValues P)
    {l : List (κ × ν)} (hl : ∀ e ∈ l, P e.2) : (t.addAll l).AllValues P := by
  induction l generalizing t with
  | nil => exact ht
  | cons e rest ih =>
    exact ih (allValues_addAt hP ht e.1 (hl e List.mem_cons_self))
      fun d hd => hl d (List.mem_cons_of_mem _ hd)

theorem allValues_add (hP : ∀ v w, P v → P w → P (v + w)) (ht : t.AllValues P)
    (hu : u.AllValues P) : (t + u).AllValues P := allValues_addAll hP ht hu

theorem AllValues.of_addAt (hP : ∀ v w, P (v + w) → P v ∧ P w) {k : κ} {v : ν}
    (h : (t.addAt k v).AllValues P) : t.AllValues P ∧ P v := by
  simp only [allValues_iff, find?_addAt, find?_entry] at h ⊢
  constructor
  · intro k' w hw
    by_cases hk : k' = k
    · exact (hP w v (h k' (w + v) (by rw [hw, if_pos hk]; rfl))).1
    · exact h k' w (by rw [hw, if_neg hk, Option.merge_none_right])
  · cases hw : t.find? k with
    | none => exact h k v (by rw [hw, if_pos rfl, Option.merge_none_left])
    | some w => exact (hP w v (h k (w + v) (by rw [hw, if_pos rfl]; rfl))).2

theorem AllValues.of_addAll (hP : ∀ v w, P (v + w) → P v ∧ P w) {l : List (κ × ν)}
    (h : (t.addAll l).AllValues P) : t.AllValues P ∧ ∀ e ∈ l, P e.2 := by
  induction l generalizing t with
  | nil => exact ⟨h, fun e he => nomatch he⟩
  | cons d rest ih =>
    obtain ⟨hstep, hrest⟩ := ih (t := t.addAt d.1 d.2) h
    obtain ⟨ht, hd⟩ := AllValues.of_addAt hP hstep
    exact ⟨ht, List.forall_mem_cons.mpr ⟨hd, hrest⟩⟩

theorem AllValues.of_add (hP : ∀ v w, P (v + w) → P v ∧ P w) (h : (t + u).AllValues P) :
    t.AllValues P ∧ u.AllValues P := AllValues.of_addAll hP h

end

/-! ## Sums of many tables -/

variable [AddCommSemigroup ν]

theorem mem_keys_sum {l : List (Table κ ν)} {k : κ} : k ∈ l.sum.keys ↔ ∃ t ∈ l, k ∈ t.keys := by
  induction l with
  | nil =>
    constructor
    · intro h
      cases h
    · rintro ⟨_, h, _⟩
      cases h
  | cons t rest ih => rw [List.sum_cons, mem_keys_add, ih, List.exists_mem_cons_iff]

theorem addAll_eq (t : Table κ ν) (l : List (κ × ν)) :
    t.addAll l = t + (l.map fun e => entry e.1 e.2).sum := by
  induction l generalizing t with
  | nil => exact (add_zero t).symm
  | cons e rest ih =>
    have h : t.addAll (e :: rest) = (t + entry e.1 e.2).addAll rest := rfl
    rw [h, ih, List.map_cons, List.sum_cons, add_assoc]

theorem sum_entries (t : Table κ ν) : (t.entries.map fun e => entry e.1 e.2).sum = t := by
  have h := addAll_eq (0 : Table κ ν) t.entries
  rw [zero_add] at h
  exact h.symm.trans (zero_add t)

/-! ## Sums over entries -/

section
variable {M : Type} [AddCommMonoid M]

/-- The sum over the entries of a function that is additive in the value. -/
def total (g : κ → ν → M) (hg : ∀ k v w, g k (v + w) = g k v + g k w) : Table κ ν →+ M where
  toFun t := (t.entries.map fun e => g e.1 e.2).sum
  map_zero' := rfl
  map_add' t u := by
    have haddAll : ∀ (l : List (κ × ν)) (t : Table κ ν),
        ((t.addAll l).entries.map fun e => g e.1 e.2).sum
          = (t.entries.map fun e => g e.1 e.2).sum + (l.map fun e => g e.1 e.2).sum := by
      intro l
      induction l with
      | nil => intro t; simp [addAll]
      | cons e rest ih =>
        intro t
        have h : (t.addAll (e :: rest)) = (t.addAt e.1 e.2).addAll rest := rfl
        rw [h, ih, List.map_cons, List.sum_cons, ← add_assoc]
        exact congrArg (· + _) (sum_upsertEntries hg e.1 e.2 t.entries)
    exact haddAll u.entries t

theorem total_apply (g : κ → ν → M) (hg : ∀ k v w, g k (v + w) = g k v + g k w) (t : Table κ ν) :
    total g hg t = (t.entries.map fun e => g e.1 e.2).sum := rfl

@[simp] theorem total_entry (g : κ → ν → M) (hg : ∀ k v w, g k (v + w) = g k v + g k w)
    (k : κ) (v : ν) : total g hg (entry k v) = g k v := by
  simp [total_apply, entry]

end

theorem upsert_eq_add {t : Table κ ν} {k : κ} (h : ¬ k ∈ t.keys) {f : Option ν → ν} {v : ν}
    (hf : f none = v) : t.upsert k f = t + entry k v := by
  apply ext_find?
  intro k'
  rw [find?_upsert, find?_add, find?_entry]
  by_cases hk : k' = k
  · rw [if_pos hk, if_pos hk, hk]
    rw [mem_keys_iff_isSome, Option.not_isSome_iff_eq_none] at h
    rw [h, hf]
    rfl
  · rw [if_neg hk, if_neg hk, Option.merge_none_right]

theorem insertNew_eq_add {t : Table κ ν} {k : κ} (h : ¬ k ∈ t.keys) (v : ν) :
    t.insertNew k v = t + entry k v := upsert_eq_add h rfl

theorem insert_eq_add {t : Table κ ν} {k : κ} (h : ¬ k ∈ t.keys) (v : ν) :
    t.insert k v = t + entry k v := upsert_eq_add h rfl

theorem mapValues_add {ω : Type} [AddCommSemigroup ω] {f : ν → ω}
    (hf : ∀ v w, f (v + w) = f v + f w) (t u : Table κ ν) :
    (t + u).mapValues f = t.mapValues f + u.mapValues f := by
  apply ext_find?
  intro k
  rw [find?_mapValues, find?_add, find?_add, find?_mapValues, find?_mapValues]
  cases t.find? k <;> cases u.find? k <;> simp [hf]

end PseudoBoolean.Table
