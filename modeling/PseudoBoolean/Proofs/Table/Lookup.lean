import Mathlib.Data.List.Nodup
import Mathlib.Data.List.Perm.Basic
import PseudoBoolean.OrderedSet
import PseudoBoolean.Table

/-! # Look-ups in built tables

A table that is entered from a list answers with the last entry of a key, and a table
whose values are mapped answers with the mapped value. Two ways of building a table are
compared through their look-ups.
-/

namespace PseudoBoolean.Table

variable {κ ν ω : Type} [Ord κ]

theorem findIn?_map (f : ν → ω) (k : κ) (l : List (κ × ν)) :
    findIn? k (l.map fun e => (e.1, f e.2)) = (findIn? k l).map f := by
  induction l with
  | nil => rfl
  | cons e rest ih =>
    simp only [List.map_cons, findIn?]
    split
    · rfl
    · exact ih

@[simp] theorem find?_mapValues (f : ν → ω) (t : Table κ ν) (k : κ) :
    (t.mapValues f).find? k = (t.find? k).map f := findIn?_map f k t.entries

@[simp] theorem keys_mapValues (f : ν → ω) (t : Table κ ν) : (t.mapValues f).keys = t.keys := by
  simp [keys, mapValues]

@[simp] theorem entries_mapValues (f : ν → ω) (t : Table κ ν) :
    (t.mapValues f).entries = t.entries.map fun e => (e.1, f e.2) := rfl

theorem mapValues_mapValues {ξ : Type} (f : ν → ω) (g : ω → ξ) (t : Table κ ν) :
    (t.mapValues f).mapValues g = t.mapValues fun v => g (f v) := by
  apply Table.ext
  simp [mapValues]

theorem mapValues_congr {f g : ν → ω} {t : Table κ ν} (h : ∀ e ∈ t.entries, f e.2 = g e.2) :
    t.mapValues f = t.mapValues g := by
  apply Table.ext
  exact List.map_congr_left fun e he => by rw [h e he]

theorem upsertEntries_map (g : ν → ω) {f : Option ν → ν} {f' : Option ω → ω}
    (h : ∀ o, g (f o) = f' (o.map g)) (k : κ) (l : List (κ × ν)) :
    (upsertEntries k f l).map (fun e => (e.1, g e.2))
      = upsertEntries k f' (l.map fun e => (e.1, g e.2)) := by
  induction l with
  | nil => exact congrArg (fun x => [(k, x)]) (h none)
  | cons e rest ih =>
    rw [List.map_cons, upsertEntries, upsertEntries]
    split
    · next hk =>
      rw [hk, List.map_cons, List.map_cons, h none]
      rfl
    · next hk =>
      rw [hk, List.map_cons, h (some e.2)]
      rfl
    · next hk => rw [hk, List.map_cons, ih]

section
variable [Std.TransOrd κ]

theorem mapValues_upsert (g : ν → ω) {f : Option ν → ν} {f' : Option ω → ω}
    (h : ∀ o, g (f o) = f' (o.map g)) (t : Table κ ν) (k : κ) :
    (t.upsert k f).mapValues g = (t.mapValues g).upsert k f' :=
  Table.ext (upsertEntries_map g h k t.entries)

theorem mapValues_insert (g : ν → ω) (t : Table κ ν) (k : κ) (v : ν) :
    (t.insert k v).mapValues g = (t.mapValues g).insert k (g v) :=
  mapValues_upsert g (fun _ => rfl) t k

theorem mapValues_insertNew (g : ν → ω) (t : Table κ ν) (k : κ) (v : ν) :
    (t.insertNew k v).mapValues g = (t.mapValues g).insertNew k (g v) :=
  mapValues_upsert g (fun o => by cases o <;> rfl) t k

theorem mapValues_insertAll (g : ν → ω) (t : Table κ ν) (l : List (κ × ν)) :
    (t.insertAll l).mapValues g = (t.mapValues g).insertAll (l.map fun e => (e.1, g e.2)) := by
  induction l generalizing t with
  | nil => rfl
  | cons e rest ih =>
    have h := ih (t.insert e.1 e.2)
    rw [mapValues_insert] at h
    exact h

theorem mapValues_ofList (g : ν → ω) (l : List (κ × ν)) :
    (ofList l).mapValues g = ofList (l.map fun e => (e.1, g e.2)) := mapValues_insertAll g ∅ l

theorem mapValues_extend (g : ν → ω) (t u : Table κ ν) :
    (t.extend u).mapValues g = (t.mapValues g).extend (u.mapValues g) :=
  mapValues_insertAll g t u.entries

end

theorem isEmpty_iff {t : Table κ ν} : t.isEmpty = true ↔ t.keys = [] := by
  rw [isEmpty, keys, List.isEmpty_iff, List.map_eq_nil_iff]

theorem keys_ascending (t : Table κ ν) : t.keys.Pairwise fun a b => compare a b = .lt :=
  List.pairwise_map.mpr t.ascending

theorem keys_eq_of_mem_iff [Std.TransOrd κ] {t : Table κ ν} {u : Table κ ω}
    (h : ∀ k, k ∈ t.keys ↔ k ∈ u.keys) : t.keys = u.keys :=
  eq_of_ascending id t.keys_ascending u.keys_ascending h

theorem insertAll_append [Std.TransOrd κ] (t : Table κ ν) (l m : List (κ × ν)) :
    t.insertAll (l ++ m) = (t.insertAll l).insertAll m := List.foldl_append

variable [Std.LawfulEqOrd κ]

theorem mem_keys_iff_isSome {t : Table κ ν} {k : κ} : k ∈ t.keys ↔ (t.find? k).isSome = true := by
  rw [mem_keys_iff, Option.isSome_iff_exists]

theorem keys_nodup (t : Table κ ν) : t.keys.Nodup := by
  apply t.keys_ascending.imp
  intro a b hab heq
  rw [heq, Std.LawfulEqOrd.compare_eq_iff_eq.mpr rfl] at hab
  cases hab

theorem entries_nodup (t : Table κ ν) : t.entries.Nodup := t.keys_nodup.of_map

def AllValues (P : ν → Prop) (t : Table κ ν) : Prop := ∀ e ∈ t.entries, P e.2

instance (P : ν → Prop) [DecidablePred P] (t : Table κ ν) : Decidable (t.AllValues P) :=
  inferInstanceAs (Decidable (∀ e ∈ t.entries, P e.2))

theorem allValues_iff {P : ν → Prop} {t : Table κ ν} :
    t.AllValues P ↔ ∀ k v, t.find? k = some v → P v :=
  ⟨fun h k v hk => h (k, v) (find?_eq_some_iff.mp hk),
    fun h e he => h e.1 e.2 (find?_eq_some_iff.mpr he)⟩

variable [Std.TransOrd κ] [DecidableEq κ]

theorem find?_insertNew (t : Table κ ν) (k k' : κ) (v : ν) :
    (t.insertNew k v).find? k' = if k' = k then some ((t.find? k).getD v) else t.find? k' :=
  find?_upsert t k k' _

theorem insertNew_of_mem_keys {t : Table κ ν} {k : κ} (h : k ∈ t.keys) (v : ν) :
    t.insertNew k v = t := by
  obtain ⟨w, hw⟩ := mem_keys_iff.mp h
  apply ext_find?
  intro k'
  rw [find?_insertNew, hw]
  split
  · next hk => rw [hk, hw, Option.getD_some]
  · rfl

theorem allValues_upsert {P : ν → Prop} {t : Table κ ν} (ht : t.AllValues P) (k : κ)
    {f : Option ν → ν} (hf : ∀ old, (∀ v, old = some v → P v) → P (f old)) :
    (t.upsert k f).AllValues P := by
  rw [allValues_iff] at *
  intro k' w hw
  rw [find?_upsert] at hw
  split at hw
  · cases hw
    exact hf _ fun v hv => ht k v hv
  · exact ht k' w hw

theorem allValues_insertNew {P : ν → Prop} {t : Table κ ν} (ht : t.AllValues P) (k : κ) {v : ν}
    (hv : P v) : (t.insertNew k v).AllValues P := by
  apply allValues_upsert ht
  intro old hold
  cases old with
  | none => exact hv
  | some w => exact hold w rfl

theorem AllValues.of_insertNew {P : ν → Prop} {t : Table κ ν} {k : κ} {v : ν}
    (h : (t.insertNew k v).AllValues P) : t.AllValues P := by
  rw [allValues_iff] at *
  intro k' w hw
  apply h k' w
  rw [find?_insertNew]
  split
  · next hk => rw [← hk, hw, Option.getD_some]
  · exact hw

theorem mem_keys_upsert {t : Table κ ν} {k k' : κ} {f : Option ν → ν} :
    k' ∈ (t.upsert k f).keys ↔ k' = k ∨ k' ∈ t.keys := by
  rw [mem_keys_iff_isSome, mem_keys_iff_isSome, find?_upsert]
  split
  · next h => simp [h]
  · next h => simp [h]

theorem mem_keys_insert {t : Table κ ν} {k k' : κ} {v : ν} :
    k' ∈ (t.insert k v).keys ↔ k' = k ∨ k' ∈ t.keys := mem_keys_upsert

/-! ## Tables entered from lists -/

/-- A table that has been entered into answers with the entered values first. -/
theorem allValues_insertAll {P : ν → Prop} {t : Table κ ν} (ht : t.AllValues P)
    {l : List (κ × ν)} (hl : ∀ e ∈ l, P e.2) : (t.insertAll l).AllValues P := by
  induction l generalizing t with
  | nil => exact ht
  | cons e rest ih =>
    apply ih (t := t.insert e.1 e.2)
    · exact allValues_upsert ht e.1 fun _ _ => hl e List.mem_cons_self
    · exact fun d hd => hl d (List.mem_cons_of_mem _ hd)

theorem allValues_ofList {P : ν → Prop} {l : List (κ × ν)} (hl : ∀ e ∈ l, P e.2) :
    (ofList l).AllValues P := allValues_insertAll (fun _ he => absurd he List.not_mem_nil) hl

theorem allValues_extend {P : ν → Prop} {t u : Table κ ν} (ht : t.AllValues P)
    (hu : u.AllValues P) : (t.extend u).AllValues P := allValues_insertAll ht hu

theorem find?_insertAll (t : Table κ ν) (l : List (κ × ν)) (k : κ) :
    (t.insertAll l).find? k = ((ofList l).find? k).or (t.find? k) := by
  induction l generalizing t with
  | nil => rfl
  | cons e rest ih =>
    have ht : (t.insertAll (e :: rest)).find? k
        = ((ofList rest).find? k).or ((t.insert e.1 e.2).find? k) := ih (t.insert e.1 e.2)
    have h0 : (ofList (e :: rest)).find? k
        = ((ofList rest).find? k).or ((insert (∅ : Table κ ν) e.1 e.2).find? k) :=
      ih (insert ∅ e.1 e.2)
    rw [ht, h0, Option.or_assoc, find?_insert, find?_insert]
    split <;> simp

theorem ofList_cons_find? (e : κ × ν) (rest : List (κ × ν)) (k : κ) :
    (ofList (e :: rest)).find? k
      = ((ofList rest).find? k).or (if k = e.1 then some e.2 else none) := by
  have h := find?_insertAll (insert (∅ : Table κ ν) e.1 e.2) rest k
  rw [find?_insert] at h
  exact h

/-- The last entry of a key is the one that stays. -/
theorem find?_ofList (l : List (κ × ν)) (k : κ) : (ofList l).find? k = l.reverse.lookup k := by
  induction l with
  | nil => rfl
  | cons e rest ih =>
    rw [ofList_cons_find?, ih, List.reverse_cons, List.lookup_append]
    refine congrArg _ ?_
    by_cases h : k = e.1
    · rw [if_pos h, h, List.lookup_cons_self]
    · rw [if_neg h, List.lookup_cons, beq_eq_false_iff_ne.mpr h]
      rfl

theorem mem_of_find?_ofList {l : List (κ × ν)} {k : κ} {v : ν}
    (h : (ofList l).find? k = some v) : (k, v) ∈ l := by
  rw [find?_ofList] at h
  obtain ⟨before, after, hl, -⟩ := List.lookup_eq_some_iff.mp h
  rw [← List.mem_reverse, hl]
  exact List.mem_append_right _ List.mem_cons_self

theorem mem_keys_ofList {l : List (κ × ν)} {k : κ} : k ∈ (ofList l).keys ↔ k ∈ l.map Prod.fst := by
  rw [mem_keys_iff_isSome]
  induction l with
  | nil => simp [ofList, insertAll]
  | cons e rest ih =>
    rw [ofList_cons_find?, List.map_cons, List.mem_cons, ← ih, Option.isSome_or]
    by_cases h : k = e.1 <;> simp [h]

theorem find?_ofList_of_nodup {l : List (κ × ν)} (h : (l.map Prod.fst).Nodup) {k : κ} {v : ν} :
    (ofList l).find? k = some v ↔ (k, v) ∈ l := by
  induction l with
  | nil => simp [ofList, insertAll]
  | cons e rest ih =>
    rw [List.map_cons, List.nodup_cons] at h
    rw [ofList_cons_find?, Option.or_eq_some_iff, ih h.2, List.mem_cons]
    constructor
    · rintro (hmem | ⟨_, hk⟩)
      · exact .inr hmem
      · split at hk
        · next hke => exact .inl (by cases hk; rw [hke])
        · cases hk
    · rintro (rfl | hmem)
      · refine .inr ⟨?_, if_pos rfl⟩
        have hnot : ¬ k ∈ (ofList rest).keys := fun hk => h.1 (mem_keys_ofList.mp hk)
        rw [mem_keys_iff_isSome] at hnot
        simpa using hnot
      · exact .inl hmem

theorem entries_ofList_perm {l : List (κ × ν)} (h : (l.map Prod.fst).Nodup) :
    (ofList l).entries.Perm l := by
  apply (List.perm_ext_iff_of_nodup (entries_nodup _) h.of_map).mpr
  intro e
  rw [← find?_eq_some_iff, find?_ofList_of_nodup h]

theorem ofList_eq_of_perm {l m : List (κ × ν)} (h : l.Perm m) (hl : (l.map Prod.fst).Nodup) :
    ofList l = ofList m := by
  have hm : (m.map Prod.fst).Nodup := (h.map Prod.fst).nodup_iff.mp hl
  apply ext_find?
  intro k
  apply Option.ext
  intro v
  rw [find?_ofList_of_nodup hl, find?_ofList_of_nodup hm, h.mem_iff]

theorem ofList_entries (t : Table κ ν) : ofList t.entries = t := by
  apply ext_find?
  intro k
  have h : ∀ v, (ofList t.entries).find? k = some v ↔ t.find? k = some v := fun v => by
    rw [find?_ofList_of_nodup (keys_nodup t), find?_eq_some_iff]
  exact Option.ext h

theorem entries_ofList {l : List (κ × ν)}
    (h : (l.map Prod.fst).Pairwise fun j k => compare j k = .lt) : (ofList l).entries = l :=
  congrArg entries (ofList_entries ⟨l, List.pairwise_map.mp h⟩)

theorem entries_ofList_zip {ks : List κ} {vs : List ν}
    (hks : ks.Pairwise fun j k => compare j k = .lt) (hlength : ks.length ≤ vs.length) :
    (ofList (ks.zip vs)).entries = ks.zip vs := by
  apply entries_ofList
  rw [List.map_fst_zip hlength]
  exact hks

theorem find?_extend (t u : Table κ ν) (k : κ) :
    (t.extend u).find? k = (u.find? k).or (t.find? k) := by
  rw [extend, find?_insertAll, ofList_entries]

theorem extend_ofList (t : Table κ ν) (l : List (κ × ν)) : t.extend (ofList l) = t.insertAll l := by
  apply ext_find?
  intro k
  rw [find?_extend, find?_insertAll]

theorem find?_ofList_filterMap (g : κ → Option ν) (ks : List κ) (k : κ) :
    (ofList (ks.filterMap fun k => (g k).map fun v => (k, v))).find? k
      = if k ∈ ks then g k else none := by
  induction ks with
  | nil => rfl
  | cons k' rest ih =>
    cases hg : g k' with
    | none =>
      rw [List.filterMap_cons, hg, Option.map_none, ih]
      by_cases hk : k = k'
      · simp [hk, hg]
      · simp [hk]
    | some v =>
      rw [List.filterMap_cons, hg, Option.map_some, ofList_cons_find?, ih]
      by_cases hk : k = k'
      · cases hk
        by_cases hrest : k ∈ rest <;> simp [hrest, hg]
      · by_cases hrest : k ∈ rest <;> simp [hrest, hk]

theorem find?_ofList_map (g : κ → ν) (ks : List κ) (k : κ) :
    (ofList (ks.map fun k => (k, g k))).find? k = if k ∈ ks then some (g k) else none := by
  have hmap : (ks.map fun k => (k, g k)) = ks.filterMap fun k => (some (g k)).map fun v => (k, v) :=
    (congrFun List.filterMap_eq_map ks).symm
  rw [hmap]
  exact find?_ofList_filterMap (fun k => some (g k)) ks k

end PseudoBoolean.Table
