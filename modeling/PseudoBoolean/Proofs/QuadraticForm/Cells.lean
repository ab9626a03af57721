import Mathlib
import PseudoBoolean.Proofs.Polynomial.Support
import PseudoBoolean.QuadraticForm.Basic

/-! # Cells of a quadratic form

A monomial of degree 1 or 2 has a cell, whose row and column are its variables in
ascending order. The form of a quadratic polynomial has the cells of its monomials and,
for each of its variables, one on the diagonal. So the diagonal lists the variables. No
law of arithmetic is used.
-/

namespace PseudoBoolean

/-- Whether a cell names the variables of a monomial, in ascending order. -/
structure Monomial.HasCell (m : Monomial) (c : Cell String) : Prop where
  mem_labels : ∀ l, l ∈ m.labels ↔ l = c.row ∨ l = c.col
  upper : (compare c.row c.col).isLE = true

namespace Monomial

variable {m : Monomial} {c d : Cell String}

theorem HasCell.row_mem (h : m.HasCell c) : c.row ∈ m.labels := (h.mem_labels _).mpr (.inl rfl)

theorem HasCell.col_mem (h : m.HasCell c) : c.col ∈ m.labels := (h.mem_labels _).mpr (.inr rfl)

theorem HasCell.eq (hc : m.HasCell c) (hd : m.HasCell d) : c = d := by
  have hrow : c.row = d.row := by
    obtain hcd | hcd := (hd.mem_labels c.row).mp hc.row_mem
    · exact hcd
    · obtain hdc | hdc := (hc.mem_labels d.row).mp hd.row_mem
      · exact hdc.symm
      · have hle := hc.upper
        rw [hcd, ← hdc] at hle
        exact hcd.trans (Std.LawfulEqOrd.eq_of_compare (Std.OrientedCmp.isLE_antisymm hle hd.upper))
  have hcol : c.col = d.col := by
    obtain hcd | hcd := (hd.mem_labels c.col).mp hc.col_mem
    · obtain hdc | hdc := (hc.mem_labels d.col).mp hd.col_mem
      · exact hcd.trans (hrow.symm.trans hdc.symm)
      · exact hdc.symm
    · exact hcd
  exact Cell.ext hrow hcol

theorem labels_cases (m : Monomial) (hm : m.degree ≤ 2) :
    m.labels = [] ∨ (∃ a, m.labels = [a] ∧ m.HasCell ⟨a, a⟩) ∨
      ∃ a b, m.labels = [a, b] ∧ m.HasCell ⟨a, b⟩ := by
  have hsize : m.labels.length ≤ 2 := hm
  have hascending : m.labels.Pairwise fun x y => compare x y = .lt := m.factors.ascending
  match h : m.labels with
  | [] => exact .inl rfl
  | [a] =>
    refine .inr (.inl ⟨a, rfl, fun l => ?_, Std.ReflCmp.isLE_rfl⟩)
    rw [h, List.mem_singleton, or_self]
  | [a, b] =>
    refine .inr (.inr ⟨a, b, rfl, fun l => ?_, ?_⟩)
    · rw [h, List.mem_cons, List.mem_singleton]
    · rw [h] at hascending
      rw [List.rel_of_pairwise_cons hascending (List.mem_singleton_self b)]
      rfl
  | _ :: _ :: _ :: _ =>
    rw [h] at hsize
    simp only [List.length_cons] at hsize
    omega

theorem exists_hasCell (hm : m.degree ≤ 2) {l : String} (hl : l ∈ m.labels) :
    ∃ c, m.HasCell c := by
  obtain h | ⟨a, -, hc⟩ | ⟨a, b, -, hc⟩ := m.labels_cases hm
  · rw [h] at hl
    exact absurd hl List.not_mem_nil
  · exact ⟨_, hc⟩
  · exact ⟨_, hc⟩

end Monomial

namespace QuadraticForm

variable {ν : Type} (f : QuadraticForm String ν)

theorem mem_diagonal {f : QuadraticForm String ν} {l : String} :
    l ∈ f.diagonal ↔ Cell.mk l l ∈ f.entries.keys := by
  rw [diagonal, List.mem_filterMap]
  constructor
  · rintro ⟨⟨row, col⟩, hc, hl⟩
    split at hl
    · next hrow =>
      cases hl
      cases hrow
      exact hc
    · cases hl
  · intro hl
    exact ⟨⟨l, l⟩, hl, if_pos rfl⟩

theorem diagonal_ascending : f.diagonal.Pairwise fun a b => compare a b = .lt := by
  refine f.entries.keys_ascending.filterMap _ fun c d hcd a ha b hb => ?_
  obtain ⟨hc, ha⟩ := Option.ite_none_right_eq_some.mp ha
  obtain ⟨hd, hb⟩ := Option.ite_none_right_eq_some.mp hb
  cases ha
  cases hb
  have hlex : (compare c.row d.row).then (compare c.col d.col) = .lt := hcd
  rw [← hc, ← hd] at hlex
  cases hrow : compare c.row d.row with
  | lt => rfl
  | eq => rw [hrow] at hlex; exact hlex
  | gt => rw [hrow] at hlex; exact hlex

theorem diagonal_nodup : f.diagonal.Nodup :=
  f.diagonal_ascending.imp fun hab heq => by simp [heq] at hab

theorem energy_congr {α : Type} [Scalar α] {x y : String → α} {f : QuadraticForm String α}
    (h : ∀ c ∈ f.entries.keys, x c.row = y c.row ∧ x c.col = y c.col) :
    f.energy x = f.energy y := by
  refine List.foldl_ext _ _ f.offset fun sum e he => ?_
  obtain ⟨hrow, hcol⟩ := h e.1 (List.mem_map_of_mem he)
  rw [hrow, hcol]

end QuadraticForm

namespace Qubo

variable {α : Type} [Scalar α]

theorem addEntry_eq (f : Qubo α) (c : Cell String) (w : Weight α) :
    f.addEntry c w = ⟨f.entries + Table.entry c w, f.offset⟩ := by
  rw [addEntry, ← Table.addAt_eq, Table.addAt]
  congr 2
  funext old
  cases old <;> rfl

theorem addTerms_cons (f : Qubo α) (e : Monomial × Weight α) (rest : List (Monomial × Weight α)) :
    f.addTerms (e :: rest) = (f.addTerm e.1 e.2).addTerms rest := rfl

/-- The ways a term enters a form: at the offset, or at the cell of its variables. -/
theorem addTerm_cases (f : Qubo α) {m : Monomial} (hm : m.degree ≤ 2) (w : Weight α) :
    m.labels = [] ∧ f.addTerm m w = ⟨f.entries, f.offset + w⟩ ∨
      ∃ c : Cell String, m.HasCell c ∧
        f.addTerm m w = ⟨f.entries + Table.entry c w, f.offset⟩ := by
  obtain h | ⟨a, h, hc⟩ | ⟨a, b, h, hc⟩ := m.labels_cases hm
  · exact .inl ⟨h, by rw [addTerm, h]⟩
  · refine .inr ⟨⟨a, a⟩, hc, ?_⟩
    rw [addTerm, h]
    exact f.addEntry_eq ⟨a, a⟩ w
  · refine .inr ⟨⟨a, b⟩, hc, ?_⟩
    rw [addTerm, h]
    exact f.addEntry_eq ⟨a, b⟩ w

/-! ## The cells of a form -/

theorem mem_keys_addTerm {f : Qubo α} {m : Monomial} (hm : m.degree ≤ 2) {w : Weight α}
    {c : Cell String} : c ∈ (f.addTerm m w).entries.keys ↔ c ∈ f.entries.keys ∨ m.HasCell c := by
  obtain ⟨hnil, h⟩ | ⟨d, hd, h⟩ := f.addTerm_cases hm w
  · have hnone : ¬ m.HasCell c := fun hc => by
      have hrow := hc.row_mem
      rw [hnil] at hrow
      exact absurd hrow List.not_mem_nil
    rw [h, or_iff_left hnone]
  · rw [h, Table.mem_keys_add, Table.mem_keys_entry]
    refine or_congr_right ⟨fun hc => hc ▸ hd, fun hc => hc.eq hd⟩

theorem mem_keys_addTerms {f : Qubo α} {l : List (Monomial × Weight α)}
    (hl : ∀ e ∈ l, e.1.degree ≤ 2) {c : Cell String} :
    c ∈ (f.addTerms l).entries.keys ↔ c ∈ f.entries.keys ∨ ∃ e ∈ l, e.1.HasCell c := by
  induction l generalizing f with
  | nil => exact (or_iff_left fun ⟨e, he, _⟩ => List.not_mem_nil he).symm
  | cons e rest ih =>
    rw [addTerms_cons, ih fun d hd => hl d (List.mem_cons_of_mem _ hd),
      mem_keys_addTerm (hl e List.mem_cons_self), List.exists_mem_cons_iff, or_assoc]

omit [Scalar α] in
theorem mem_labels {f : Qubo α} {l : String} :
    l ∈ f.labels.elems ↔ ∃ c ∈ f.entries.keys, l = c.row ∨ l = c.col := by
  rw [← OrderedSet.mem_iff, labels, OrderedSet.mem_ofList, List.mem_flatMap]
  simp only [List.mem_cons, List.not_mem_nil, or_false]

theorem mem_keys_fillDiagonal {f : Qubo α} {c : Cell String} :
    c ∈ f.fillDiagonal.entries.keys ↔
      c ∈ f.entries.keys ∨ ∃ l ∈ f.labels.elems, c = ⟨l, l⟩ := by
  have hfold : ∀ (l : List String) (t : Table (Cell String) (Weight α)),
      c ∈ (l.foldl (fun t a => t.insertNew ⟨a, a⟩ 0) t).keys ↔
        c ∈ t.keys ∨ ∃ a ∈ l, c = ⟨a, a⟩ := by
    intro l
    induction l with
    | nil =>
      intro t
      rw [List.foldl_nil]
      exact ⟨.inl, fun h => h.resolve_right fun ⟨_, ha, _⟩ => nomatch ha⟩
    | cons a rest ih =>
      intro t
      rw [List.foldl_cons, ih, Table.insertNew, Table.mem_keys_upsert]
      simp only [List.mem_cons, exists_eq_or_imp]
      rw [or_comm (a := c = _), or_assoc]
  exact hfold f.labels.elems f.entries

section
variable {p : Polynomial α} (h : ∀ m ∈ p.monomials, m.degree ≤ 2)
include h

theorem mem_keys_addTerms_polynomial {c : Cell String} :
    c ∈ (addTerms ⟨∅, 0⟩ p.terms.entries).entries.keys ↔ ∃ m ∈ p.monomials, m.HasCell c := by
  rw [mem_keys_addTerms fun e he => h e.1 (List.mem_map_of_mem he)]
  refine (or_iff_right List.not_mem_nil).trans ?_
  simp only [Polynomial.monomials, Table.keys, List.mem_map, exists_exists_and_eq_and]

theorem mem_labels_addTerms_polynomial {l : String} :
    l ∈ (addTerms ⟨∅, 0⟩ p.terms.entries).labels.elems ↔ l ∈ p.labels := by
  rw [mem_labels, Polynomial.mem_labels]
  constructor
  · rintro ⟨c, hc, hl⟩
    obtain ⟨m, hm, hmc⟩ := (mem_keys_addTerms_polynomial h).mp hc
    exact ⟨m, hm, (hmc.mem_labels l).mpr hl⟩
  · rintro ⟨m, hm, hl⟩
    obtain ⟨c, hc⟩ := Monomial.exists_hasCell (h m hm) hl
    exact ⟨c, (mem_keys_addTerms_polynomial h).mpr ⟨m, hm, hc⟩, (hc.mem_labels l).mp hl⟩

/-- The cells of the form of a polynomial: those of the monomials, and a diagonal of its
variables. -/
theorem mem_keys_ofPolynomial {c : Cell String} :
    c ∈ (ofPolynomial p).entries.keys ↔
      (∃ m ∈ p.monomials, m.HasCell c) ∨ ∃ l ∈ p.labels, c = ⟨l, l⟩ := by
  rw [ofPolynomial, mem_keys_fillDiagonal, mem_keys_addTerms_polynomial h]
  simp only [mem_labels_addTerms_polynomial h]

theorem mem_diagonal_ofPolynomial {l : String} : l ∈ (ofPolynomial p).diagonal ↔ l ∈ p.labels := by
  rw [QuadraticForm.mem_diagonal, mem_keys_ofPolynomial h]
  constructor
  · rintro (⟨m, hm, hl⟩ | ⟨k, hk, hl⟩)
    · exact Polynomial.mem_labels.mpr ⟨m, hm, hl.row_mem⟩
    · cases hl
      exact hk
  · exact fun hl => .inr ⟨l, hl, rfl⟩

theorem upper_of_mem_ofPolynomial {c : Cell String} (hc : c ∈ (ofPolynomial p).entries.keys) :
    (compare c.row c.col).isLE = true := by
  obtain ⟨m, -, hm⟩ | ⟨l, -, rfl⟩ := (mem_keys_ofPolynomial h).mp hc
  · exact hm.upper
  · exact Std.ReflCmp.isLE_rfl

theorem mem_diagonal_of_mem_ofPolynomial {c : Cell String}
    (hc : c ∈ (ofPolynomial p).entries.keys) :
    c.row ∈ (ofPolynomial p).diagonal ∧ c.col ∈ (ofPolynomial p).diagonal := by
  rw [mem_diagonal_ofPolynomial h, mem_diagonal_ofPolynomial h]
  obtain ⟨m, hm, hmc⟩ | ⟨l, hl, rfl⟩ := (mem_keys_ofPolynomial h).mp hc
  · exact ⟨Polynomial.mem_labels.mpr ⟨m, hm, hmc.row_mem⟩,
      Polynomial.mem_labels.mpr ⟨m, hm, hmc.col_mem⟩⟩
  · exact ⟨hl, hl⟩

end

end Qubo

end PseudoBoolean
