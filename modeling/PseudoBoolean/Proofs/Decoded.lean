import PseudoBoolean.Decoded
import PseudoBoolean.Proofs.Table.Lookup

/-! # Mapped trees

A function on values is applied to a decoded solution leaf by leaf. What is put under a
path of a mapped tree is the mapped value under the same path.
-/

namespace PseudoBoolean

variable {α β : Type}

namespace Decoded

mutual

/-- Applies a function to the values at the leaves. -/
def mapLeaves (f : α → β) : Decoded α → Decoded β
  | value x => value (f x)
  | map entries => map (mapEntries f entries)

def mapEntries (f : α → β) : List (PathKey × Decoded α) → List (PathKey × Decoded β)
  | [] => []
  | e :: rest => mapEntry f e :: mapEntries f rest

def mapEntry (f : α → β) : PathKey × Decoded α → PathKey × Decoded β
  | (k, d) => (k, mapLeaves f d)

end

theorem mapEntries_eq (f : α → β) (l : List (PathKey × Decoded α)) :
    mapEntries f l = l.map fun e => (e.1, mapLeaves f e.2) := by
  induction l with
  | nil => rfl
  | cons e rest ih => rw [mapEntries, ih, mapEntry, List.map_cons]

theorem mapLeaves_empty (f : α → β) : (∅ : Decoded α).mapLeaves f = ∅ := rfl

theorem entries_mapLeaves (f : α → β) (d : Decoded α) :
    (d.mapLeaves f).entries = d.entries.map fun e => (e.1, mapLeaves f e.2) := by
  cases d with
  | value x => rfl
  | map entries => exact mapEntries_eq f entries

theorem mapLeaves_insert (f : α → β) (x : α) (path : Path) (d : Decoded α) :
    (d.insert x path).mapLeaves f = (d.mapLeaves f).insert (f x) path := by
  induction path generalizing d with
  | nil => rfl
  | cons k rest ih =>
    rw [insert, insert, mapLeaves, mapEntries_eq, entries_mapLeaves]
    refine congrArg map (Table.upsertEntries_map (mapLeaves f) (fun old => ?_) k d.entries)
    rw [ih]
    cases old <;> rfl

end Decoded

end PseudoBoolean
