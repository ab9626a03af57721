import PseudoBoolean.Ordering

/-! # Finite maps as ascending association lists

A table is its list of entries in strictly ascending order of the keys. Every
change is an `upsert`, which gives a key a new value computed from its old one;
`find?_upsert` describes it through the look-up, and `ext_find?` says that a
table is determined by its look-ups.
-/

namespace PseudoBoolean

/-- A finite map, kept as its entries in strictly ascending order of the keys. -/
@[ext] structure Table (κ ν : Type) [Ord κ] where
  entries : List (κ × ν)
  ascending : entries.Pairwise (fun e f => compare e.1 f.1 = .lt)
deriving DecidableEq

namespace Table

variable {κ ν ω : Type} [Ord κ]

/-- Gives `k` the value that `f` computes from its old one, `none` if it has none. -/
def upsertEntries (k : κ) (f : Option ν → ν) : List (κ × ν) → List (κ × ν)
  | [] => [(k, f none)]
  | e :: rest =>
    match compare k e.1 with
    | .lt => (k, f none) :: e :: rest
    | .eq => (e.1, f (some e.2)) :: rest
    | .gt => e :: upsertEntries k f rest

def findIn? (k : κ) : List (κ × ν) → Option ν
  | [] => none
  | e :: rest => if compare k e.1 = .eq then some e.2 else findIn? k rest

theorem eq_or_mem_of_mem_upsertEntries {k : κ} {f : Option ν → ν} {l : List (κ × ν)} {e : κ × ν}
    (h : e ∈ upsertEntries k f l) : e.1 = k ∨ ∃ e' ∈ l, e'.1 = e.1 := by
  induction l with
  | nil => exact .inl (by simp_all [upsertEntries])
  | cons d rest ih =>
    simp only [upsertEntries] at h
    split at h
    · obtain rfl | h := List.mem_cons.mp h
      · exact .inl rfl
      · exact .inr ⟨e, h, rfl⟩
    · obtain rfl | h := List.mem_cons.mp h
      · exact .inr ⟨d, by simp, rfl⟩
      · exact .inr ⟨e, List.mem_cons_of_mem _ h, rfl⟩
    · obtain rfl | h := List.mem_cons.mp h
      · exact .inr ⟨e, by simp, rfl⟩
      · exact (ih h).imp_right fun ⟨e', he', hk⟩ => ⟨e', List.mem_cons_of_mem _ he', hk⟩

theorem upsertEntries_ascending [Std.TransOrd κ] (k : κ) (f : Option ν → ν) {l : List (κ × ν)}
    (h : l.Pairwise (fun d e => compare d.1 e.1 = .lt)) :
    (upsertEntries k f l).Pairwise (fun d e => compare d.1 e.1 = .lt) := by
  induction l with
  | nil => simp [upsertEntries]
  | cons d rest ih =>
    obtain ⟨hd, hrest⟩ := List.pairwise_cons.mp h
    simp only [upsertEntries]
    split
    · next hkd =>
      refine List.pairwise_cons.mpr ⟨fun e he => ?_, h⟩
      obtain rfl | he := List.mem_cons.mp he
      · exact hkd
      · exact Std.TransCmp.lt_trans hkd (hd e he)
    · exact List.pairwise_cons.mpr ⟨hd, hrest⟩
    · next hkd =>
      refine List.pairwise_cons.mpr ⟨fun e he => ?_, ih hrest⟩
      obtain hk | ⟨e', he', hk⟩ := eq_or_mem_of_mem_upsertEntries he
      · exact hk ▸ Std.OrientedCmp.lt_of_gt hkd
      · exact hk ▸ hd e' he'

instance : EmptyCollection (Table κ ν) := ⟨⟨[], .nil⟩⟩

instance : Inhabited (Table κ ν) := ⟨∅⟩

instance [BEq κ] [BEq ν] : BEq (Table κ ν) := ⟨fun s t => s.entries == t.entries⟩

def size (t : Table κ ν) : Nat := t.entries.length

def isEmpty (t : Table κ ν) : Bool := t.entries.isEmpty

def keys (t : Table κ ν) : List κ := t.entries.map Prod.fst

def find? (t : Table κ ν) (k : κ) : Option ν := findIn? k t.entries

def contains (t : Table κ ν) (k : κ) : Bool := (t.find? k).isSome

def mapValues (f : ν → ω) (t : Table κ ν) : Table κ ω where
  entries := t.entries.map fun e => (e.1, f e.2)
  ascending := List.pairwise_map.mpr t.ascending

section
variable [Std.TransOrd κ]

def upsert (t : Table κ ν) (k : κ) (f : Option ν → ν) : Table κ ν :=
  ⟨upsertEntries k f t.entries, upsertEntries_ascending k f t.ascending⟩

def insert (t : Table κ ν) (k : κ) (v : ν) : Table κ ν := t.upsert k fun _ => v

def insertNew (t : Table κ ν) (k : κ) (v : ν) : Table κ ν := t.upsert k fun old => old.getD v

/-- Enters a list from left to right, so that the last value of a key stays. -/
def insertAll (t : Table κ ν) (l : List (κ × ν)) : Table κ ν :=
  l.foldl (fun t e => t.insert e.1 e.2) t

def ofList (l : List (κ × ν)) : Table κ ν := insertAll ∅ l

/-- Enters all of `u`, whose values take precedence. -/
def extend (t u : Table κ ν) : Table κ ν := t.insertAll u.entries

def single (k : κ) (v : ν) : Table κ ν := insert ∅ k v

end

/-! ## Look-ups -/

@[simp] theorem find?_empty (k : κ) : (∅ : Table κ ν).find? k = none := rfl

theorem findIn?_eq_none_of_lt {k : κ} {l : List (κ × ν)}
    (h : ∀ e ∈ l, compare k e.1 = .lt) : findIn? k l = none := by
  induction l with
  | nil => rfl
  | cons e rest ih =>
    have he := h e (by simp)
    simp [findIn?, he, ih fun e' he' => h e' (List.mem_cons_of_mem _ he')]

theorem findIn?_eq_some_iff [Std.LawfulEqOrd κ] {k : κ} {v : ν} {l : List (κ × ν)}
    (h : l.Pairwise (fun d e => compare d.1 e.1 = .lt)) :
    findIn? k l = some v ↔ (k, v) ∈ l := by
  induction l with
  | nil => simp [findIn?]
  | cons d rest ih =>
    obtain ⟨hd, hrest⟩ := List.pairwise_cons.mp h
    simp only [findIn?, List.mem_cons]
    split
    · next hk =>
      obtain rfl := Std.LawfulEqOrd.eq_of_compare hk
      constructor
      · intro hv
        exact .inl (by cases hv; rfl)
      · rintro (hv | hmem)
        · rw [← hv]
        · simpa using hd _ hmem
    · next hk =>
      rw [ih hrest]
      refine ⟨.inr, fun hv => hv.resolve_left ?_⟩
      rintro rfl
      exact hk Std.ReflOrd.compare_self

theorem find?_eq_some_iff [Std.LawfulEqOrd κ] {t : Table κ ν} {k : κ} {v : ν} :
    t.find? k = some v ↔ (k, v) ∈ t.entries := findIn?_eq_some_iff t.ascending

theorem mem_keys_iff [Std.LawfulEqOrd κ] {t : Table κ ν} {k : κ} :
    k ∈ t.keys ↔ ∃ v, t.find? k = some v := by
  simp [keys, find?_eq_some_iff]

variable [Std.TransOrd κ] [Std.LawfulEqOrd κ]

theorem findIn?_upsertEntries [DecidableEq κ] {k k' : κ} {f : Option ν → ν} {l : List (κ × ν)}
    (h : l.Pairwise (fun d e => compare d.1 e.1 = .lt)) :
    findIn? k' (upsertEntries k f l) =
      if k' = k then some (f (findIn? k l)) else findIn? k' l := by
  induction l with
  | nil => simp [upsertEntries, findIn?]
  | cons d rest ih =>
    obtain ⟨hd, hrest⟩ := List.pairwise_cons.mp h
    simp only [upsertEntries]
    split
    · next hkd =>
      have hnone : findIn? k (d :: rest) = none := by
        refine findIn?_eq_none_of_lt fun e he => ?_
        obtain rfl | he := List.mem_cons.mp he
        · exact hkd
        · exact Std.TransCmp.lt_trans hkd (hd e he)
      show (if compare k' k = .eq then some (f none) else findIn? k' (d :: rest)) = _
      simp only [hnone, Std.LawfulEqOrd.compare_eq_iff_eq]
    · next hkd =>
      obtain rfl := Std.LawfulEqOrd.eq_of_compare hkd
      simp only [findIn?, Std.LawfulEqOrd.compare_eq_iff_eq, if_true]
      split <;> rfl
    · next hkd =>
      have hne : k ≠ d.1 := by
        rintro rfl
        simp at hkd
      simp only [findIn?, ih hrest, Std.LawfulEqOrd.compare_eq_iff_eq, if_neg hne]
      split
      · next hk' => simp [hk', Ne.symm hne]
      · rfl

theorem find?_upsert [DecidableEq κ] (t : Table κ ν) (k k' : κ) (f : Option ν → ν) :
    (t.upsert k f).find? k' = if k' = k then some (f (t.find? k)) else t.find? k' :=
  findIn?_upsertEntries t.ascending

theorem find?_insert [DecidableEq κ] (t : Table κ ν) (k k' : κ) (v : ν) :
    (t.insert k v).find? k' = if k' = k then some v else t.find? k' :=
  find?_upsert t k k' fun _ => v

theorem ext_find? {s t : Table κ ν} (h : ∀ k, s.find? k = t.find? k) : s = t := by
  apply Table.ext
  apply eq_of_ascending Prod.fst s.ascending t.ascending
  intro e
  rw [← find?_eq_some_iff, ← find?_eq_some_iff, h]

end Table

end PseudoBoolean
