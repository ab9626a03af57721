import Mathlib
import PseudoBoolean.Proofs.Decoded.Leaves
import PseudoBoolean.Proofs.Model.Presentation

/-! # Placement of values

A decoded solution has the values of the solution at its leaves, spins as spins. A label
of the layout with a value has it at the end of its path, unless a greater one with a
value has a path that overlaps this path. There are no other leaves.
-/

namespace PseudoBoolean

/-! ## Submitted values -/

namespace Solution

variable {α : Type} {order : List String} {extra : String → Bool} {s : Solution α}
  {entries : List (String × α)} {l : String} {x : α}

/-- The value that a solution has for a label. -/
def value? (order : List String) (l : String) : Solution α → Option α
  | list values => (order.idxOf? l).bind fun k => values[k]?
  | labels values => values.find? l
  | indices values => (order.idxOf? l).bind values.find?

theorem mem_entries_iff (horder : order.Nodup) (h : s.entries order extra = .ok entries) :
    (l, x) ∈ entries ↔ s.value? order l = some x := by
  have hindex : ∀ (f : Nat → Option α),
      (order.idxOf? l).bind f = some x ↔ ∃ k, order[k]? = some l ∧ f k = some x := by
    intro f
    simp only [Option.bind_eq_some_iff, idxOf?_eq_some_iff_of_nodup horder]
  cases s with
  | list values =>
    rw [Solution.entries] at h
    split at h
    · cases h
      rw [value?, hindex, List.mem_iff_getElem?]
      simp only [List.getElem?_zip_eq_some]
    · cases h
  | labels values =>
    rw [value?, Table.find?_eq_some_iff]
    constructor
    · intro hmem
      obtain ⟨e, he, hentry⟩ := exists_of_mem_mapM h _ hmem
      split at hentry
      · cases hentry
        exact he
      · cases hentry
    · intro hmem
      obtain ⟨c, hentry, hc⟩ := exists_of_mapM_eq_ok h _ hmem
      split at hentry
      · cases hentry
        exact hc
      · cases hentry
  | indices values =>
    rw [value?, hindex]
    simp only [Table.find?_eq_some_iff]
    constructor
    · intro hmem
      obtain ⟨e, he, hentry⟩ := exists_of_mem_mapM h _ hmem
      split at hentry
      · next label hlabel =>
        cases hentry
        exact ⟨e.1, hlabel, he⟩
      · cases hentry
    · rintro ⟨k, hk, hmem⟩
      obtain ⟨c, hentry, hc⟩ := exists_of_mapM_eq_ok h _ hmem
      rw [hk] at hentry
      cases hentry
      exact hc

theorem assigned_nodup (horder : order.Nodup) : (s.assigned order).Nodup := by
  cases s with
  | list values => exact horder
  | labels values => exact values.keys_nodup
  | indices values =>
    refine values.keys_nodup.filterMap fun j k l hj hk => ?_
    obtain ⟨hj, hjl⟩ := List.getElem?_eq_some_iff.mp hj
    obtain ⟨hk, hkl⟩ := List.getElem?_eq_some_iff.mp hk
    exact horder.getElem_inj_iff.mp (hjl.trans hkl.symm)

/-- The bits of an accepted solution, read back, are the values that it was submitted with. -/
theorem map_ofBit_find?_bits [Scalar α] [LawfulReadback α] {domain : Domain}
    {table : Table String α} (horder : order.Nodup) (h : s.bits order extra domain = .ok table)
    (l : String) : (table.find? l).map domain.ofBit = s.value? order l := by
  obtain ⟨entries, bits, hentries, hbits, rfl, -⟩ := entries_of_bits h
  have hnodup : (bits.map Prod.fst).Nodup := by
    rw [map_fst_bits hbits, (names_of_entries hentries).1]
    exact assigned_nodup horder
  ext x
  rw [← mem_entries_iff horder hentries, Option.map_eq_some_iff]
  simp only [Table.find?_ofList_of_nodup hnodup]
  constructor
  · rintro ⟨b, hb, rfl⟩
    obtain ⟨e, he, hbit⟩ := exists_of_mem_mapM hbits _ hb
    obtain ⟨rfl, hbit⟩ := bit_eq_ok_iff.mp hbit
    rwa [LawfulReadback.ofBit_of_toBit? hbit]
  · intro hx
    obtain ⟨c, hbit, hc⟩ := exists_of_mapM_eq_ok hbits _ hx
    obtain ⟨rfl, hbit⟩ := bit_eq_ok_iff.mp hbit
    exact ⟨c.2, hc, LawfulReadback.ofBit_of_toBit? hbit⟩

end Solution

/-! ## The tree -/

namespace Model

variable {α : Type} [Scalar α] {m : Model α} {domain : Domain} {s : Solution α} {feed : Feed α}

theorem place_eq (bits : Table String α) : m.place domain bits
    = Decoded.placeAll (fun l => (bits.find? l).map domain.ofBit) m.layout.entries := by
  rw [place, Decoded.placeAll]
  congr 1
  funext d e
  cases bits.find? e.1 <;> rfl

theorem tree_of_decode [LawfulReadback α] {d : DecodedSolution α}
    (h : m.decode domain s feed = .ok d) :
    d.tree = Decoded.placeAll (fun l => s.value? m.order l) m.layout.entries := by
  obtain ⟨bits, hbits, h⟩ := bind_eq_ok h
  obtain ⟨broken, -, h⟩ := bind_eq_ok h
  obtain ⟨energy, -, h⟩ := bind_eq_ok h
  cases h
  refine (place_eq bits).trans (congrArg (Decoded.placeAll · _) (funext fun l => ?_))
  exact Solution.map_ofBit_find?_bits m.form.diagonal_nodup hbits l

/-- Whether a label of the layout has the path `p` there, and the value `x` in a solution. -/
def Assigns (m : Model α) (s : Solution α) (l : String) (p : Path) (x : α) : Prop :=
  m.layout.find? l = some p ∧ s.value? m.order l = some x

omit [Scalar α] in
theorem lasts_layout_iff {p : Path} {x : α} :
    Decoded.Lasts (fun l => s.value? m.order l) m.layout.entries p x ↔
      ∃ l, m.Assigns s l p x ∧ ∀ l' q y, m.Assigns s l' q y → compare l l' = .lt →
        ¬ Path.Overlaps p q := by
  simp only [Decoded.Lasts, Assigns, Table.find?_eq_some_iff, Option.isSome_iff_exists]
  constructor
  · rintro ⟨⟨l, _⟩, hl, rfl, hx, hlater⟩
    exact ⟨l, ⟨hl, hx⟩, fun l' q y ⟨hq, hy⟩ hlt => hlater (l', q) hq hlt ⟨y, hy⟩⟩
  · rintro ⟨l, ⟨hl, hx⟩, hlater⟩
    exact ⟨(l, p), hl, rfl, hx, fun ⟨l', q⟩ hq hlt ⟨y, hy⟩ => hlater l' q y ⟨hq, hy⟩ hlt⟩

/-- The leaves of a decoded solution are the values at the ends of the paths of their
labels, less those whose path a greater label with a value overlaps. Where no two paths
overlap, all values are leaves, and all leaves are values. -/
theorem leaves_decode [LawfulReadback α] (m : Model α) (domain : Domain) (s : Solution α)
    (feed : Feed α) {d : DecodedSolution α} (hd : m.decode domain s feed = .ok d) :
    (∀ p x, d.tree.getPath? p = some (.value x) ↔
      ∃ l, m.Assigns s l p x ∧ ∀ l' q y, m.Assigns s l' q y → compare l l' = .lt →
        ¬ Path.Overlaps p q) ∧
    ((∀ l p x l' q y, m.Assigns s l p x → m.Assigns s l' q y → l ≠ l' → ¬ Path.Overlaps p q) →
      (∀ l p x, m.Assigns s l p x → (d.tree.getPath? p).bind Decoded.value? = some x) ∧
      ∀ p x, d.tree.getPath? p = some (.value x) → ∃ l, m.Assigns s l p x) := by
  have hleaf : ∀ p x, d.tree.leafAt? p = some x ↔
      ∃ l, m.Assigns s l p x ∧ ∀ l' q y, m.Assigns s l' q y → compare l l' = .lt →
        ¬ Path.Overlaps p q := by
    intro p x
    rw [tree_of_decode hd, Decoded.leafAt?_placeAll_eq_some_iff m.layout.ascending,
      lasts_layout_iff]
  have hpath := fun p x => Decoded.leafAt?_eq_some_iff.symm.trans (hleaf p x)
  refine ⟨hpath, fun hapart => ⟨fun l p x hl => ?_, fun p x hx => ?_⟩⟩
  · refine (hleaf p x).mpr ⟨l, hl, fun l' q y hl' hlt => hapart l p x l' q y hl hl' ?_⟩
    rintro rfl
    simp at hlt
  · obtain ⟨l, hl, -⟩ := (hpath p x).mp hx
    exact ⟨l, hl⟩

/-- A cell of a family that has the name of a variable, and a cell that no term uses. -/
def nestedCells : Model Float where
  form := Qubo.ofPolynomial (Expr.variablePolynomial .spin "x")
  layout := Table.ofList [("x", [.name "x"]), ("x[0]", [.name "x", .index 0]), ("y", [.name "y"])]
  constraints := ∅

theorem leaves_decode_nestedCells :
    let s : Solution Float := .labels (Table.ofList [("x", 1), ("x[0]", -1), ("y", 1)])
    ∃ d, nestedCells.decode .spin s ∅ = .ok d ∧
      d.tree.getPath? [.name "x", .index 0] = some (.value (-1)) ∧
      d.tree.getPath? [.name "y"] = some (.value 1) ∧
      ∀ x, d.tree.getPath? [.name "x"] ≠ some (.value x) := by
  intro s
  obtain ⟨d, hd⟩ := exists_eq_ok
    (show (nestedCells.decode .spin s ∅).toOption.isSome = true by decide +kernel)
  obtain ⟨hleaves, -⟩ := leaves_decode nestedCells .spin s ∅ hd
  have hlayout : ∀ l p, nestedCells.layout.find? l = some p → (l, p) = ("x", [.name "x"]) ∨
      (l, p) = ("x[0]", [.name "x", .index 0]) ∨ (l, p) = ("y", [.name "y"]) := by
    intro l p h
    have hmem := Table.find?_eq_some_iff.mp h
    have hentries : nestedCells.layout.entries = [("x", [.name "x"]),
        ("x[0]", [.name "x", .index 0]), ("y", [.name "y"])] := by decide +kernel
    simpa [hentries] using hmem
  refine ⟨d, hd, (hleaves _ _).mpr ⟨"x[0]", ⟨by decide +kernel, by decide +kernel⟩, ?_⟩,
    (hleaves _ _).mpr ⟨"y", ⟨by decide +kernel, by decide +kernel⟩, ?_⟩, fun x hx => ?_⟩
  · rintro l' q y ⟨hq, -⟩ hlt
    obtain h | h | h := hlayout l' q hq <;> cases h
    · exact absurd hlt (by decide +kernel)
    · exact absurd hlt (by decide +kernel)
    · decide +kernel
  · rintro l' q y ⟨hq, -⟩ hlt
    obtain h | h | h := hlayout l' q hq <;> cases h <;> exact absurd hlt (by decide +kernel)
  · obtain ⟨l, ⟨hl, -⟩, hlater⟩ := (hleaves _ x).mp hx
    have hx : l = "x" := by simpa using hlayout l _ hl
    subst hx
    exact hlater "x[0]" [.name "x", .index 0] (-1) ⟨by decide +kernel, by decide +kernel⟩
      (by decide +kernel) (by decide +kernel)

end Model

end PseudoBoolean
