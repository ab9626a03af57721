import PseudoBoolean.Layout

/-! # Decoded solutions

A decoded solution is a tree of maps with values at the leaves, in which the value of
each variable is found under its path.
-/

namespace PseudoBoolean

/-- A value, or a map from path keys to such trees, its entries in ascending order. -/
inductive Decoded (α : Type) where
  | value (x : α)
  | map (entries : List (PathKey × Decoded α))

namespace Decoded

variable {α : Type}

instance : EmptyCollection (Decoded α) := ⟨map []⟩

def entries : Decoded α → List (PathKey × Decoded α)
  | value _ => []
  | map entries => entries

/-- Puts a value under a path. What stood at the end of the path is replaced, and so is
a value in the middle of it. -/
def insert (x : α) : Path → Decoded α → Decoded α
  | [], _ => value x
  | k :: rest, d => map (Table.upsertEntries k (fun old => insert x rest (old.getD ∅)) d.entries)

def get? (d : Decoded α) (k : PathKey) : Option (Decoded α) := Table.findIn? k d.entries

def getPath? (d : Decoded α) (path : Path) : Option (Decoded α) := path.foldlM get? d

def value? : Decoded α → Option α
  | value x => some x
  | map _ => none

structure MissingEntry where
  key : PathKey
deriving DecidableEq

def MissingEntry.message (e : MissingEntry) : String :=
  "no entry " ++ e.key.text ++ " in decoded solution"

/-- Follows a path that is expected to exist, and fails with its first key that does not. -/
def follow (d : Decoded α) (path : Path) : Except MissingEntry (Decoded α) :=
  path.foldlM
    (fun d k =>
      match d.get? k with
      | some e => .ok e
      | none => .error ⟨k⟩)
    d

end Decoded

end PseudoBoolean
