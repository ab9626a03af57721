import Mathlib
import PseudoBoolean.Proofs.Polynomial.Value
import PseudoBoolean.Proofs.Weight.Placeholders

/-! # Labels and placeholders that stay

A polynomial keeps its monomials and the placeholders of its weights when others are
added to it, and when it is multiplied by one that has terms itself. A property that
passes from every sum of weights to the summands is therefore found in all the parts
that a polynomial is made of. No law of arithmetic is used.
-/

namespace PseudoBoolean.Polynomial

theorem mem_labels {α : Type} {p : Polynomial α} {l : String} :
    l ∈ p.labels ↔ ∃ m ∈ p.monomials, l ∈ m.labels := by
  have hfold : ∀ (ms : List Monomial) (s : OrderedSet String),
      l ∈ ms.foldl (fun s m => s ∪ m.factors) s ↔ l ∈ s ∨ ∃ m ∈ ms, l ∈ m.labels := by
    intro ms
    induction ms with
    | nil => simp
    | cons m rest ih =>
      intro s
      rw [List.foldl_cons, ih, OrderedSet.mem_union, List.exists_mem_cons_iff, or_assoc]
      rfl
  rw [labels, hfold]
  exact or_iff_right (OrderedSet.not_mem_empty l)

theorem mem_labels_add {α : Type} [Scalar α] {p q : Polynomial α} {l : String} :
    l ∈ (p + q).labels ↔ l ∈ p.labels ∨ l ∈ q.labels := by
  simp only [mem_labels, mem_monomials_add, or_and_right, exists_or]

theorem mem_labels_mul {α : Type} [Scalar α] {p q : Polynomial α} (hp : ∃ m, m ∈ p.monomials)
    (hq : ∃ m, m ∈ q.monomials) {l : String} :
    l ∈ (p * q).labels ↔ l ∈ p.labels ∨ l ∈ q.labels := by
  simp only [mem_labels, mem_monomials_mul]
  constructor
  · rintro ⟨_, ⟨k, hk, n, hn, rfl⟩, hl⟩
    obtain hl | hl := Monomial.mem_labels_mul.mp hl
    · exact .inl ⟨k, hk, hl⟩
    · exact .inr ⟨n, hn, hl⟩
  · rintro (⟨k, hk, hl⟩ | ⟨n, hn, hl⟩)
    · obtain ⟨n, hn⟩ := hq
      exact ⟨k * n, ⟨k, hk, n, hn, rfl⟩, Monomial.mem_labels_mul.mpr (.inl hl)⟩
    · obtain ⟨k, hk⟩ := hp
      exact ⟨k * n, ⟨k, hk, n, hn, rfl⟩, Monomial.mem_labels_mul.mpr (.inr hl)⟩

variable {α : Type} [Scalar α] {p q : Polynomial α}

/-! ## Properties of the weights of parts -/

section
variable {P : Weight α → Prop} (hP : ∀ v w, P (v + w) → P v ∧ P w)
include hP

theorem AllWeights.of_addTerms {l : List (Monomial × Weight α)}
    (h : (p.addTerms l).AllWeights P) : p.AllWeights P ∧ ∀ e ∈ l, P e.2 := by
  rw [addTerms_eq] at h
  exact Table.AllValues.of_addAll hP h

theorem AllWeights.of_add (h : (p + q).AllWeights P) : p.AllWeights P ∧ q.AllWeights P := by
  rw [add_eq] at h
  split at h
  · exact (AllWeights.of_addTerms hP h).symm
  · exact AllWeights.of_addTerms hP h

theorem AllWeights.of_ofList {l : List (Monomial × Weight α)} (h : (ofList l).AllWeights P) :
    ∀ e ∈ l, P e.2 := (AllWeights.of_addTerms hP h).2

end

section
variable {Q : Weight α → Prop} (hQ : ∀ v w, Q (v + w) ↔ Q v ∨ Q w)
include hQ

theorem exists_weight_add : (∃ e ∈ (p + q).terms.entries, Q e.2) ↔
    (∃ e ∈ p.terms.entries, Q e.2) ∨ ∃ e ∈ q.terms.entries, Q e.2 := by
  have hnot : ∀ v w, ¬ Q (v + w) ↔ ¬ Q v ∧ ¬ Q w := fun v w => by rw [hQ, not_or]
  rw [← not_iff_not, not_or]
  push Not
  constructor
  · exact AllWeights.of_add (P := (¬ Q ·)) fun v w => (hnot v w).mp
  · rintro ⟨hp, hq⟩
    exact allWeights_add (P := (¬ Q ·)) (fun v w hv hw => (hnot v w).mpr ⟨hv, hw⟩) hp hq

theorem exists_weight_ofList {terms : List (Monomial × Weight α)} :
    (∃ e ∈ (ofList terms).terms.entries, Q e.2) ↔ ∃ e ∈ terms, Q e.2 := by
  have hnot : ∀ v w, ¬ Q (v + w) ↔ ¬ Q v ∧ ¬ Q w := fun v w => by rw [hQ, not_or]
  rw [← not_iff_not]
  push Not
  constructor
  · exact AllWeights.of_ofList (P := (¬ Q ·)) fun v w => (hnot v w).mp
  · exact allWeights_ofList (P := (¬ Q ·)) fun v w hv hw => (hnot v w).mpr ⟨hv, hw⟩

end

/-! ## Placeholders -/

def placeholders {α : Type} (p : Polynomial α) : List String :=
  p.terms.entries.flatMap fun e => e.2.placeholders

omit [Scalar α] in
theorem mem_placeholders {l : String} :
    l ∈ p.placeholders ↔ ∃ e ∈ p.terms.entries, l ∈ e.2.placeholders := List.mem_flatMap

omit [Scalar α] in
theorem not_mem_placeholders {l : String} :
    ¬ l ∈ p.placeholders ↔ p.AllWeights fun w => ¬ l ∈ w.placeholders := by
  rw [mem_placeholders]
  push Not
  exact Iff.rfl

theorem mem_placeholders_add {l : String} :
    l ∈ (p + q).placeholders ↔ l ∈ p.placeholders ∨ l ∈ q.placeholders := by
  rw [mem_placeholders, mem_placeholders, mem_placeholders]
  exact exists_weight_add (Q := (l ∈ ·.placeholders)) fun v w => Weight.mem_placeholders_add

theorem mem_placeholders_ofList {terms : List (Monomial × Weight α)} {l : String} :
    l ∈ (ofList terms).placeholders ↔ ∃ e ∈ terms, l ∈ e.2.placeholders := by
  rw [mem_placeholders]
  exact exists_weight_ofList (Q := (l ∈ ·.placeholders)) fun v w => Weight.mem_placeholders_add

theorem mem_placeholders_rename {r : Monomial → Monomial} {l : String} :
    l ∈ (p.rename r).placeholders ↔ l ∈ p.placeholders := by
  rw [rename, mem_placeholders_ofList, mem_placeholders]
  simp only [List.mem_map, exists_exists_and_eq_and]

/-- Whether a polynomial has a monomial, and terms in all its weights. -/
structure HasTerms (p : Polynomial α) : Prop where
  monomial : ∃ m, m ∈ p.monomials
  weights : p.AllWeights Weight.HasTerms

theorem mem_placeholders_mul (hp : p.HasTerms) (hq : q.HasTerms) {l : String} :
    l ∈ (p * q).placeholders ↔ l ∈ p.placeholders ∨ l ∈ q.placeholders := by
  have hproduct : l ∈ (p * q).placeholders ↔ ∃ e ∈ p.terms.entries, ∃ f ∈ q.terms.entries,
      l ∈ e.2.placeholders ∨ l ∈ f.2.placeholders := by
    refine mem_placeholders_ofList.trans ?_
    simp only [List.mem_flatMap, List.mem_map]
    constructor
    · rintro ⟨_, ⟨e, he, f, hf, rfl⟩, hl⟩
      exact ⟨e, he, f, hf, Weight.mem_placeholders_of_mul hl⟩
    · rintro ⟨e, he, f, hf, hl⟩
      exact ⟨_, ⟨e, he, f, hf, rfl⟩,
        (Weight.mem_placeholders_mul (hp.weights e he) (hq.weights f hf)).mpr hl⟩
  rw [hproduct, mem_placeholders, mem_placeholders]
  constructor
  · rintro ⟨e, he, f, hf, hl | hl⟩
    · exact .inl ⟨e, he, hl⟩
    · exact .inr ⟨f, hf, hl⟩
  · obtain ⟨m, hm⟩ := hp.monomial
    obtain ⟨n, hn⟩ := hq.monomial
    obtain ⟨d, hd, -⟩ := List.mem_map.mp hm
    obtain ⟨g, hg, -⟩ := List.mem_map.mp hn
    rintro (⟨e, he, hl⟩ | ⟨f, hf, hl⟩)
    · exact ⟨e, he, g, hg, .inl hl⟩
    · exact ⟨d, hd, f, hf, .inr hl⟩

end PseudoBoolean.Polynomial
