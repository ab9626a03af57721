import Mathlib.Data.List.Induction
import PseudoBoolean.Decoded
import PseudoBoolean.Proofs.Table.Lookup

/-! # Leaves of decoded solutions

Putting a value under a path makes it the leaf there and removes the leaves on the way to
it and below it; all other leaves stay. So after many values have been put, a leaf is left
of those for which nothing was put later under a path that overlaps theirs.
-/

namespace PseudoBoolean

/-- Whether one of two paths leads on from the end of the other, or both are the same. -/
def Path.Overlaps (p q : Path) : Prop := p <+: q ∨ q <+: p

namespace Path

instance (p q : Path) : Decidable (Overlaps p q) := inferInstanceAs (Decidable (_ ∨ _))

theorem overlaps_self (p : Path) : Overlaps p p := .inl List.prefix_rfl

theorem overlaps_nil (p : Path) : Overlaps p [] := .inr List.nil_prefix

theorem nil_overlaps (p : Path) : Overlaps [] p := .inl List.nil_prefix

theorem cons_overlaps_cons {j k : PathKey} {p q : Path} :
    Overlaps (j :: p) (k :: q) ↔ j = k ∧ Overlaps p q := by
  rw [Overlaps, List.cons_prefix_cons, List.cons_prefix_cons, eq_comm (a := k), ← and_or_left]
  rfl

end Path

open PseudoBoolean.Path (Overlaps)

namespace Decoded

variable {α : Type} {d : Decoded α}

/-- The value at the end of a path, if there is one. -/
def leafAt? (d : Decoded α) (p : Path) : Option α := (d.getPath? p).bind value?

theorem value?_eq_some_iff {x : α} : d.value? = some x ↔ d = value x := by
  cases d with
  | value y => rw [value?, Option.some.injEq, value.injEq]
  | map entries => exact ⟨nofun, nofun⟩

theorem leafAt?_eq_some_iff {p : Path} {x : α} :
    d.leafAt? p = some x ↔ d.getPath? p = some (value x) := by
  simp only [leafAt?, Option.bind_eq_some_iff, value?_eq_some_iff, exists_eq_right]

theorem leafAt?_cons (k : PathKey) (p : Path) :
    d.leafAt? (k :: p) = (d.get? k).bind fun e => e.leafAt? p := by
  rw [leafAt?, getPath?, List.foldlM_cons]
  exact Option.bind_assoc (d.get? k) _ value?

theorem leafAt?_empty (p : Path) : (∅ : Decoded α).leafAt? p = none := by
  cases p <;> rfl

/-! ## Order of the entries -/

/-- Whether all maps in a tree have their entries in ascending order. -/
inductive Ascending : Decoded α → Prop
  | value (x : α) : Ascending (value x)
  | map (t : Table PathKey (Decoded α)) : t.AllValues Ascending → Ascending (map t.entries)

theorem ascending_empty : (∅ : Decoded α).Ascending := .map ∅ fun _ he => nomatch he

theorem Ascending.exists_table (h : d.Ascending) :
    ∃ t : Table PathKey (Decoded α), d.entries = t.entries ∧ t.AllValues Ascending := by
  cases h with
  | value x => exact ⟨∅, rfl, fun _ he => nomatch he⟩
  | map t ht => exact ⟨t, rfl, ht⟩

theorem Ascending.insert (h : d.Ascending) (x : α) (path : Path) : (d.insert x path).Ascending := by
  induction path generalizing d with
  | nil => exact .value x
  | cons k rest ih =>
    obtain ⟨t, ht, hvalues⟩ := h.exists_table
    rw [Decoded.insert, ht]
    refine .map (t.upsert k fun old => Decoded.insert x rest (old.getD ∅))
      (Table.allValues_upsert hvalues k fun old hold => ih ?_)
    cases old with
    | none => exact ascending_empty
    | some e => exact hold e rfl

/-! ## Leaves after a change -/

theorem leafAt?_insert (h : d.Ascending) (x : α) (path p : Path) :
    (d.insert x path).leafAt? p
      = if p = path then some x else if Overlaps p path then none else d.leafAt? p := by
  induction path generalizing d p with
  | nil =>
    cases p with
    | nil => rfl
    | cons j q =>
      rw [if_neg (List.cons_ne_nil j q), if_pos (Path.overlaps_nil _)]
      rfl
  | cons k rest ih =>
    cases p with
    | nil =>
      rw [if_neg (List.cons_ne_nil k rest).symm, if_pos (Path.nil_overlaps _)]
      rfl
    | cons j q =>
      obtain ⟨t, ht, hvalues⟩ := h.exists_table
      have hget : d.get? j = t.find? j := by
        rw [get?, ht]
        rfl
      have hgetInsert : (d.insert x (k :: rest)).get? j
          = if j = k then some (Decoded.insert x rest ((t.find? k).getD ∅)) else t.find? j := by
        rw [get?, Decoded.insert, entries, ht]
        exact t.find?_upsert k j _
      simp only [leafAt?_cons, hget, hgetInsert, Path.cons_overlaps_cons, List.cons.injEq]
      by_cases hjk : j = k
      · -- What stood under the key before is a tree again, or nothing.
        have hsub : ((t.find? k).getD ∅).Ascending ∧
            ((t.find? k).getD ∅).leafAt? q = (t.find? k).bind fun e => e.leafAt? q := by
          cases hk : t.find? k with
          | none => exact ⟨ascending_empty, leafAt?_empty q⟩
          | some e => exact ⟨Table.allValues_iff.mp hvalues k e hk, rfl⟩
        simp only [hjk, if_true, true_and, Option.bind_some, ih hsub.1, hsub.2]
      · simp only [hjk, false_and, if_false]

/-! ## Many values -/

/-- Puts the values that labels have under their paths, one after the other. -/
def placeAll (values : String → Option α) (l : List (String × Path)) : Decoded α :=
  l.foldl
    (fun d e =>
      match values e.1 with
      | some x => d.insert x e.2
      | none => d)
    ∅

variable {values : String → Option α}

theorem placeAll_concat (l : List (String × Path)) (e : String × Path) :
    placeAll values (l ++ [e]) = match values e.1 with
      | some x => (placeAll values l).insert x e.2
      | none => placeAll values l := List.foldl_concat _ _ _ _

theorem ascending_placeAll (l : List (String × Path)) : (placeAll values l).Ascending := by
  induction l using List.reverseRecOn with
  | nil => exact ascending_empty
  | append_singleton l e ih =>
    rw [placeAll_concat]
    split
    · exact ih.insert _ _
    · exact ih

/-- Whether a label of a list puts `x` under `p`, and no greater one with a value has a
path that overlaps `p`. -/
def Lasts (values : String → Option α) (l : List (String × Path)) (p : Path) (x : α) : Prop :=
  ∃ e ∈ l, e.2 = p ∧ values e.1 = some x ∧
    ∀ e' ∈ l, compare e.1 e'.1 = .lt → (values e'.1).isSome = true → ¬ Overlaps p e'.2

theorem lasts_concat_iff {l : List (String × Path)} {e : String × Path}
    (h : ∀ d ∈ l, compare d.1 e.1 = .lt) {p : Path} {x : α} :
    Lasts values (l ++ [e]) p x ↔ (e.2 = p ∧ values e.1 = some x) ∨
      (Lasts values l p x ∧ ((values e.1).isSome = true → ¬ Overlaps p e.2)) := by
  have hgreatest : ∀ d ∈ l ++ [e], compare e.1 d.1 ≠ .lt := by
    intro d hd hlt
    obtain hd | hd := List.mem_append.mp hd
    · simpa using Std.TransCmp.lt_trans hlt (h d hd)
    · rw [List.mem_singleton.mp hd] at hlt
      simp at hlt
  constructor
  · rintro ⟨d, hd, hp, hx, hlater⟩
    obtain hd | hd := List.mem_append.mp hd
    · exact .inr ⟨⟨d, hd, hp, hx, fun e' he' => hlater e' (List.mem_append_left _ he')⟩,
        hlater e (List.mem_append_right _ (List.mem_singleton_self e)) (h d hd)⟩
    · rw [List.mem_singleton.mp hd] at hp hx
      exact .inl ⟨hp, hx⟩
  · rintro (⟨hp, hx⟩ | ⟨⟨d, hd, hp, hx, hlater⟩, hlast⟩)
    · exact ⟨e, List.mem_append_right _ (List.mem_singleton_self e), hp, hx,
        fun e' he' hlt => absurd hlt (hgreatest e' he')⟩
    · refine ⟨d, List.mem_append_left _ hd, hp, hx, fun e' he' hlt => ?_⟩
      obtain he' | he' := List.mem_append.mp he'
      · exact hlater e' he' hlt
      · rw [List.mem_singleton.mp he']
        exact hlast

/-- The leaves of what has been placed in the order of the labels are the values that last. -/
theorem leafAt?_placeAll_eq_some_iff {l : List (String × Path)}
    (hl : l.Pairwise fun d e => compare d.1 e.1 = .lt) {p : Path} {x : α} :
    (placeAll values l).leafAt? p = some x ↔ Lasts values l p x := by
  induction l using List.reverseRecOn with
  | nil =>
    constructor
    · intro h
      cases (leafAt?_empty p).symm.trans h
    · rintro ⟨_, hmem, _⟩
      cases hmem
  | append_singleton l e ih =>
    obtain ⟨hl, -, hlast⟩ := List.pairwise_append.mp hl
    rw [placeAll_concat, lasts_concat_iff fun d hd => hlast d hd e (List.mem_singleton_self e),
      ← ih hl]
    cases values e.1 with
    | none => simp
    | some y =>
      simp only [leafAt?_insert (ascending_placeAll l)]
      by_cases hp : p = e.2
      · simp [hp, Path.overlaps_self]
      · by_cases hoverlaps : Overlaps p e.2 <;> simp [hp, Ne.symm hp, hoverlaps]

end Decoded

end PseudoBoolean
