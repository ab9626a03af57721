import PseudoBoolean.Proofs.Fold
import PseudoBoolean.Proofs.Table.Lookup
import PseudoBoolean.Solution

/-! # Accepted solutions

A solution is accepted exactly if it names nothing unknown, assigns every variable, and
has all its values in the domain. The labels that it assigns are then those with a bit.
No law of arithmetic is used.
-/

namespace PseudoBoolean

variable {α : Type} [Scalar α]

namespace Domain

/-- Whether a value lies in a domain. -/
def Has : Domain → α → Prop
  | binary, x => (x == 0) = true ∨ (x == 1) = true
  | spin, x => (x == -1) = true ∨ (x == 1) = true

instance : (domain : Domain) → (x : α) → Decidable (domain.Has x)
  | binary, x => inferInstanceAs (Decidable ((x == 0) = true ∨ (x == 1) = true))
  | spin, x => inferInstanceAs (Decidable ((x == -1) = true ∨ (x == 1) = true))

theorem exists_toBit?_iff {domain : Domain} {x : α} :
    (∃ b, domain.toBit? x = some b) ↔ domain.Has x := by
  have hif : ∀ (c : Bool) (y : α), (∃ b, (if c then some y else none) = some b) ↔ c = true := by
    intro c y
    cases c with
    | true => exact ⟨fun _ => rfl, fun _ => ⟨y, rfl⟩⟩
    | false => exact ⟨nofun, nofun⟩
  cases domain with
  | binary => rw [toBit?, hif, Bool.or_eq_true, Has]
  | spin => rw [toBit?, hif, Bool.or_eq_true, Has]

end Domain

namespace Solution

variable {order : List String} {extra : String → Bool} {domain : Domain} {s : Solution α}
  {entries bits : List (String × α)}

/-! ## Entries -/

/-- Whether a solution names nothing but variables in `order` and labels in `extra`. A
list names as many variables as it has values. -/
def Known (order : List String) (extra : String → Bool) : Solution α → Prop
  | list values => values.length = order.length
  | labels table => ∀ l ∈ table.keys, l ∈ order ∨ extra l = true
  | indices table => ∀ k ∈ table.keys, k < order.length

/-- The labels that a solution gives a value. -/
def assigned (order : List String) : Solution α → List String
  | list _ => order
  | labels table => table.keys
  | indices table => table.keys.filterMap fun k => order[k]?

def values : Solution α → List α
  | list values => values
  | labels table => table.entries.map Prod.snd
  | indices table => table.entries.map Prod.snd

omit [Scalar α] in
theorem entries_of_known (h : s.Known order extra) :
    ∃ entries, s.entries order extra = .ok entries ∧
      entries.map Prod.fst = s.assigned order ∧ entries.map Prod.snd = s.values := by
  cases s with
  | list values =>
    exact ⟨order.zip values, if_pos h, List.map_fst_zip h.ge, List.map_snd_zip h.le⟩
  | labels table =>
    refine ⟨table.entries.map id, mapM_eq_ok fun e he => ?_, ?_, ?_⟩
    · rw [if_pos, id]
      rw [Bool.or_eq_true, List.contains_iff_mem]
      exact h e.1 (List.mem_map_of_mem he)
    · rw [List.map_id]
      rfl
    · rw [List.map_id]
      rfl
  | indices table =>
    have hlabel : ∀ k ∈ table.keys, order[k]? = some (order.getD k "") := by
      intro k hk
      rw [List.getD_eq_getElem?_getD, List.getElem?_eq_getElem (h k hk), Option.getD_some]
    refine ⟨table.entries.map fun e => (order.getD e.1 "", e.2), mapM_eq_ok fun e he => ?_, ?_, ?_⟩
    · rw [hlabel e.1 (List.mem_map_of_mem he)]
    · rw [assigned, List.filterMap_congr hlabel, ← Function.comp_def some, List.filterMap_eq_map,
        Table.keys, List.map_map, List.map_map]
      rfl
    · rw [List.map_map]
      rfl

omit [Scalar α] in
theorem known_of_entries (h : s.entries order extra = .ok entries) : s.Known order extra := by
  cases s with
  | list values =>
    rw [Solution.entries] at h
    split at h
    · next hlength => exact hlength
    · cases h
  | labels table =>
    intro l hl
    obtain ⟨e, he, rfl⟩ := List.mem_map.mp hl
    obtain ⟨c, hc, -⟩ := exists_of_mapM_eq_ok h e he
    split at hc
    · next hknown => rwa [Bool.or_eq_true, List.contains_iff_mem] at hknown
    · cases hc
  | indices table =>
    intro k hk
    obtain ⟨e, he, rfl⟩ := List.mem_map.mp hk
    obtain ⟨c, hc, -⟩ := exists_of_mapM_eq_ok h e he
    split at hc
    · next label hlabel => exact (List.getElem?_eq_some_iff.mp hlabel).1
    · cases hc

omit [Scalar α] in
theorem names_of_entries (h : s.entries order extra = .ok entries) :
    entries.map Prod.fst = s.assigned order ∧ entries.map Prod.snd = s.values := by
  obtain ⟨entries', hentries, hnames⟩ := entries_of_known (known_of_entries h)
  rw [h] at hentries
  cases hentries
  exact hnames

/-! ## Bits -/

theorem bit_eq_ok_iff {e c : String × α} :
    bit domain e = .ok c ↔ c.1 = e.1 ∧ domain.toBit? e.2 = some c.2 := by
  obtain ⟨l, b⟩ := c
  rw [bit]
  cases h : domain.toBit? e.2 with
  | none => simp
  | some b' => simp [eq_comm]

theorem map_fst_bits (h : entries.mapM (bit domain) = .ok bits) :
    bits.map Prod.fst = entries.map Prod.fst := by
  rw [mapM_eq_ok_iff] at h
  induction h with
  | nil => rfl
  | cons he _ ih => rw [List.map_cons, List.map_cons, (bit_eq_ok_iff.mp he).1, ih]

theorem exists_mapM_bit_iff :
    (∃ bits, entries.mapM (bit domain) = .ok bits) ↔ ∀ x ∈ entries.map Prod.snd, domain.Has x := by
  rw [exists_mapM_iff, List.forall_mem_map]
  refine forall₂_congr fun e _ => ?_
  simp only [bit_eq_ok_iff, ← Domain.exists_toBit?_iff]
  constructor
  · rintro ⟨c, -, hc⟩
    exact ⟨c.2, hc⟩
  · rintro ⟨b, hb⟩
    exact ⟨(e.1, b), rfl, hb⟩

theorem bits_eq_ok (hentries : s.entries order extra = .ok entries)
    (hbits : entries.mapM (bit domain) = .ok bits)
    (horder : ∀ l ∈ order, l ∈ entries.map Prod.fst) :
    s.bits order extra domain = .ok (Table.ofList bits) := by
  have hassigned : order.filter (Table.ofList bits).contains = order := by
    rw [List.filter_eq_self]
    intro l hl
    rw [Table.contains, ← Table.mem_keys_iff_isSome, Table.mem_keys_ofList, map_fst_bits hbits]
    exact horder l hl
  simp only [Solution.bits, hentries, hbits, hassigned, bind, Except.bind, if_true]
  rfl

/-- What is known of an accepted solution. -/
theorem entries_of_bits {table : Table String α} (h : s.bits order extra domain = .ok table) :
    ∃ entries bits, s.entries order extra = .ok entries ∧ entries.mapM (bit domain) = .ok bits ∧
      table = Table.ofList bits ∧ ∀ l ∈ order, l ∈ table.keys := by
  obtain ⟨entries, hentries, h⟩ := bind_eq_ok h
  obtain ⟨bits, hbits, h⟩ := bind_eq_ok h
  simp only at h
  split at h
  · next hassigned =>
    cases h
    refine ⟨entries, bits, hentries, hbits, rfl, fun l hl => ?_⟩
    exact Table.mem_keys_iff_isSome.mpr (List.length_filter_eq_length_iff.mp hassigned l hl)
  · cases h

theorem mem_keys_bits_iff {table : Table String α} (h : s.bits order extra domain = .ok table)
    {l : String} : l ∈ table.keys ↔ l ∈ s.assigned order := by
  obtain ⟨entries, bits, hentries, hbits, rfl, -⟩ := entries_of_bits h
  rw [Table.mem_keys_ofList, map_fst_bits hbits, (names_of_entries hentries).1]

/-- A solution is accepted exactly if it names nothing unknown, has all its values in the
domain, and assigns every variable. -/
theorem exists_bits_iff : (∃ table, s.bits order extra domain = .ok table) ↔
    s.Known order extra ∧ (∀ x ∈ s.values, domain.Has x) ∧ ∀ l ∈ order, l ∈ s.assigned order := by
  constructor
  · rintro ⟨table, h⟩
    obtain ⟨entries, bits, hentries, hbits, -, horder⟩ := entries_of_bits h
    refine ⟨known_of_entries hentries, ?_, fun l hl => (mem_keys_bits_iff h).mp (horder l hl)⟩
    rw [← (names_of_entries hentries).2]
    exact exists_mapM_bit_iff.mp ⟨bits, hbits⟩
  · rintro ⟨hknown, hdomain, horder⟩
    obtain ⟨entries, hentries, hnames, hvalues⟩ := entries_of_known hknown
    obtain ⟨bits, hbits⟩ := exists_mapM_bit_iff.mpr (hvalues ▸ hdomain)
    exact ⟨_, bits_eq_ok hentries hbits (hnames ▸ horder)⟩

theorem exists_toBit?_of_bits {table : Table String α} (h : s.bits order extra domain = .ok table)
    {l : String} {b : α} (hb : table.find? l = some b) : ∃ x, domain.toBit? x = some b := by
  obtain ⟨entries, bits, -, hbits, rfl, -⟩ := entries_of_bits h
  refine Table.allValues_iff.mp
    (Table.allValues_ofList (P := fun b => ∃ x, domain.toBit? x = some b) fun c hc => ?_) l b hb
  obtain ⟨e, -, he⟩ := exists_of_mem_mapM hbits c hc
  exact ⟨e.2, (bit_eq_ok_iff.mp he).2⟩

/-- The bits of a solution by label. -/
theorem find?_bits_labels {values table : Table String α}
    (h : (labels values).bits order extra domain = .ok table) (l : String) :
    table.find? l = (values.find? l).bind domain.toBit? := by
  obtain ⟨entries, bits, hentries, hbits, rfl, -⟩ := entries_of_bits h
  have hnodup : (bits.map Prod.fst).Nodup := by
    rw [map_fst_bits hbits, (names_of_entries hentries).1]
    exact values.keys_nodup
  cases hx : values.find? l with
  | none =>
    rw [Option.bind_none, ← Option.not_isSome_iff_eq_none, ← Table.mem_keys_iff_isSome,
      mem_keys_bits_iff h, assigned, Table.mem_keys_iff_isSome, hx]
    exact Bool.false_ne_true
  | some x =>
    obtain ⟨e, hentry, he⟩ := exists_of_mapM_eq_ok hentries (l, x) (Table.find?_eq_some_iff.mp hx)
    split at hentry
    · cases hentry
      obtain ⟨c, hc, hmem⟩ := exists_of_mapM_eq_ok hbits (l, x) he
      obtain ⟨hname, hbit⟩ := bit_eq_ok_iff.mp hc
      rw [Option.bind_some, hbit, Table.find?_ofList_of_nodup hnodup, ← show c.1 = l from hname]
      exact hmem
    · cases hentry

theorem mem_keys_of_bits {table : Table String α} (h : s.bits order extra domain = .ok table) :
    ∀ l ∈ order, l ∈ table.keys := by
  obtain ⟨-, -, -, -, -, horder⟩ := entries_of_bits h
  exact horder

end Solution

/-! ## Rejections -/

/-- Whether a failure lies in the solution alone. -/
def SolutionError.IsRejection : SolutionError α → Prop
  | .negativeConstraint _ _ | .eval _ => False
  | _ => True

theorem Solution.isRejection_of_bits {order : List String} {extra : String → Bool} {domain : Domain}
    {s : Solution α} {err : SolutionError α} (h : s.bits order extra domain = .error err) :
    err.IsRejection := by
  obtain h | ⟨entries, -, h⟩ := bind_eq_error h
  · cases s with
    | list values =>
      rw [entries] at h
      split at h <;> cases h
      trivial
    | labels values =>
      obtain ⟨e, -, he⟩ := exists_of_mapM_eq_error h
      split at he <;> cases he
      trivial
    | indices values =>
      obtain ⟨e, -, he⟩ := exists_of_mapM_eq_error h
      split at he <;> cases he
      trivial
  · obtain h | ⟨list, -, h⟩ := bind_eq_error h
    · obtain ⟨e, -, he⟩ := exists_of_mapM_eq_error h
      rw [bit] at he
      split at he <;> cases he
      trivial
    · simp only at h
      split at h <;> cases h
      trivial

end PseudoBoolean
