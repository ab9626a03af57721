import Mathlib.Data.Set.Function
import PseudoBoolean.Proofs.Table.Lookup

/-! # Renamed keys

A map that keeps the order of keys renames the keys of a table and leaves the sequence of
its values alone. What is entered into a table under a key may as well be entered into the
renamed table under the new key.
-/

namespace PseudoBoolean.Table

variable {κ ω ν : Type} [Ord κ] [Ord ω] {r : κ → ω} {S : Set κ} {t : Table κ ν} {u : Table ω ν}

/-- Whether a map keeps the order of the keys in a set. -/
def KeepsOrder (r : κ → ω) (S : Set κ) : Prop :=
  ∀ a ∈ S, ∀ b ∈ S, compare (r a) (r b) = compare a b

theorem KeepsOrder.injOn [Std.ReflOrd ω] [Std.LawfulEqOrd κ] (hr : KeepsOrder r S) :
    Set.InjOn r S := by
  intro a ha b hb hab
  have hcompare := hr a ha b hb
  rw [hab, Std.ReflOrd.compare_self] at hcompare
  exact Std.LawfulEqOrd.eq_of_compare hcompare.symm

/-- The values of a table in the same sequence under other keys. -/
structure RenamedBy (r : κ → ω) (t : Table κ ν) (u : Table ω ν) : Prop where
  entries : u.entries = t.entries.map fun e => (r e.1, e.2)
  bijOn : Set.BijOn r {k | k ∈ t.keys} {k | k ∈ u.keys}
  find? : ∀ k ∈ t.keys, u.find? (r k) = t.find? k

/-- The sequence of the values as an invariant, with a set that the keys are taken from. -/
structure Renamed (r : κ → ω) (S : Set κ) (t : Table κ ν) (u : Table ω ν) : Prop where
  keys_mem : ∀ k ∈ t.keys, k ∈ S
  entries : u.entries = t.entries.map fun e => (r e.1, e.2)

theorem findIn?_rename {k : κ} {l : List (κ × ν)}
    (h : ∀ e ∈ l, compare (r k) (r e.1) = compare k e.1) :
    findIn? (r k) (l.map fun e => (r e.1, e.2)) = findIn? k l := by
  induction l with
  | nil => rfl
  | cons e rest ih =>
    rw [List.map_cons, findIn?, findIn?, h e List.mem_cons_self,
      ih fun d hd => h d (List.mem_cons_of_mem _ hd)]

theorem upsertEntries_rename {k : κ} {l : List (κ × ν)} (f : Option ν → ν)
    (h : ∀ e ∈ l, compare (r k) (r e.1) = compare k e.1) :
    upsertEntries (r k) f (l.map fun e => (r e.1, e.2))
      = (upsertEntries k f l).map fun e => (r e.1, e.2) := by
  induction l with
  | nil => rfl
  | cons e rest ih =>
    rw [List.map_cons, upsertEntries, upsertEntries, h e List.mem_cons_self,
      ih fun d hd => h d (List.mem_cons_of_mem _ hd)]
    cases compare k e.1 with
    | lt => rfl
    | eq => rfl
    | gt => rfl

theorem Renamed.keys_eq (h : Renamed r S t u) : u.keys = t.keys.map r := by
  rw [keys, keys, h.entries, List.map_map, List.map_map]
  rfl

theorem Renamed.compare_eq (hr : KeepsOrder r S) (h : Renamed r S t u) {k : κ} (hk : k ∈ S) :
    ∀ e ∈ t.entries, compare (r k) (r e.1) = compare k e.1 :=
  fun e he => hr k hk e.1 (h.keys_mem e.1 (List.mem_map_of_mem he))

theorem Renamed.renamedBy [Std.ReflOrd ω] [Std.LawfulEqOrd κ] (hr : KeepsOrder r S)
    (h : Renamed r S t u) : RenamedBy r t u where
  entries := h.entries
  bijOn := by
    refine ⟨fun k hk => ?_, hr.injOn.mono h.keys_mem, fun l hl => ?_⟩
    · exact h.keys_eq ▸ List.mem_map_of_mem hk
    · exact List.mem_map.mp (h.keys_eq ▸ hl)
  find? k hk := by
    rw [Table.find?, Table.find?, h.entries, findIn?_rename (h.compare_eq hr (h.keys_mem k hk))]

theorem renamed_empty : Renamed r S (∅ : Table κ ν) ∅ where
  keys_mem _ hk := nomatch hk
  entries := rfl

/-- The table that is entered from renamed entries. -/
theorem renamed_ofList [Std.TransOrd ω] [Std.LawfulEqOrd ω] [DecidableEq ω] (hr : KeepsOrder r S)
    (hkeys : ∀ k ∈ t.keys, k ∈ S) :
    Renamed r S t (ofList (t.entries.map fun e => (r e.1, e.2))) where
  keys_mem := hkeys
  entries := by
    have hmem : ∀ e ∈ t.entries, e.1 ∈ S := fun e he => hkeys e.1 (List.mem_map_of_mem he)
    have hascending : (t.entries.map fun e => (r e.1, e.2)).Pairwise
        fun d e => compare d.1 e.1 = .lt := by
      rw [List.pairwise_map]
      refine t.ascending.imp_of_mem fun hd he hlt => ?_
      rw [hr _ (hmem _ hd) _ (hmem _ he)]
      exact hlt
    exact congrArg Table.entries (ofList_entries ⟨_, hascending⟩)

theorem Renamed.upsert [Std.TransOrd κ] [Std.TransOrd ω] [Std.LawfulEqOrd κ] [DecidableEq κ]
    (hr : KeepsOrder r S) (h : Renamed r S t u) {k : κ} (hk : k ∈ S) (f : Option ν → ν) :
    Renamed r S (t.upsert k f) (u.upsert (r k) f) where
  keys_mem l hl := by
    obtain rfl | hl := mem_keys_upsert.mp hl
    · exact hk
    · exact h.keys_mem l hl
  entries := by
    have hupsert := upsertEntries_rename f (h.compare_eq hr hk)
    rw [← h.entries] at hupsert
    exact hupsert

end PseudoBoolean.Table
