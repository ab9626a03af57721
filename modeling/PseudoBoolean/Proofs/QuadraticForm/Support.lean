import PseudoBoolean.Proofs.QuadraticForm.Cells

/-! # What a quadratic form keeps

Every weight of a quadratic polynomial is added into one of the entries of its form or
into the offset. So the form has what all weights have and sums keep, and its weights
show what passes from sums to the summands. In particular it has the placeholders of the
polynomial. No law of arithmetic is used.
-/

namespace PseudoBoolean.Qubo

structure AllWeights {α : Type} (P : Weight α → Prop) (f : Qubo α) : Prop where
  entries : f.entries.AllValues P
  offset : P f.offset

variable {α : Type} [Scalar α] {f : Qubo α} {p : Polynomial α}

section
variable {P : Weight α → Prop} (hzero : P 0) (hadd : ∀ v w, P v → P w → P (v + w))

include hadd in
theorem allWeights_addTerm (hf : AllWeights P f) {m : Monomial} (hm : m.degree ≤ 2)
    {w : Weight α} (hw : P w) : AllWeights P (f.addTerm m w) := by
  obtain ⟨-, h⟩ | ⟨c, -, h⟩ := f.addTerm_cases hm w
  · rw [h]
    exact ⟨hf.entries, hadd _ _ hf.offset hw⟩
  · rw [h]
    exact ⟨Table.allValues_add hadd hf.entries (Table.allValues_entry hw), hf.offset⟩

include hadd in
theorem allWeights_addTerms (hf : AllWeights P f) {l : List (Monomial × Weight α)}
    (hl : ∀ e ∈ l, e.1.degree ≤ 2 ∧ P e.2) : AllWeights P (f.addTerms l) := by
  induction l generalizing f with
  | nil => exact hf
  | cons e rest ih =>
    obtain ⟨hdegree, hw⟩ := hl e List.mem_cons_self
    exact ih (allWeights_addTerm hadd hf hdegree hw) fun d hd => hl d (List.mem_cons_of_mem _ hd)

include hzero in
theorem allWeights_fillDiagonal (hf : AllWeights P f) : AllWeights P f.fillDiagonal := by
  have hfold : ∀ (l : List String) (t : Table (Cell String) (Weight α)), t.AllValues P →
      (l.foldl (fun t a => t.insertNew ⟨a, a⟩ 0) t).AllValues P := by
    intro l
    induction l with
    | nil => exact fun t ht => ht
    | cons a rest ih => exact fun t ht => ih _ (Table.allValues_insertNew ht ⟨a, a⟩ hzero)
  exact ⟨hfold f.labels.elems f.entries hf.entries, hf.offset⟩

include hzero hadd in
theorem allWeights_ofPolynomial (hp : p.AllWeights P) (h : ∀ m ∈ p.monomials, m.degree ≤ 2) :
    AllWeights P (ofPolynomial p) := by
  apply allWeights_fillDiagonal hzero
  apply allWeights_addTerms hadd ⟨fun e he => absurd he List.not_mem_nil, hzero⟩
  exact fun e he => ⟨h e.1 (List.mem_map_of_mem he), hp e he⟩

end

section
variable {P : Weight α → Prop} (hP : ∀ v w, P (v + w) → P v ∧ P w)
include hP

theorem AllWeights.of_addTerm {m : Monomial} (hm : m.degree ≤ 2) {w : Weight α}
    (h : (f.addTerm m w).AllWeights P) : f.AllWeights P ∧ P w := by
  obtain ⟨-, hadd⟩ | ⟨c, -, hadd⟩ := f.addTerm_cases hm w
  · rw [hadd] at h
    obtain ⟨hoffset, hw⟩ := hP _ _ h.offset
    exact ⟨⟨h.entries, hoffset⟩, hw⟩
  · rw [hadd] at h
    obtain ⟨hentries, hcell⟩ := Table.AllValues.of_add hP h.entries
    exact ⟨⟨hentries, h.offset⟩, hcell (c, w) (List.mem_singleton_self _)⟩

theorem AllWeights.of_addTerms {l : List (Monomial × Weight α)}
    (hl : ∀ e ∈ l, e.1.degree ≤ 2) (h : (f.addTerms l).AllWeights P) :
    f.AllWeights P ∧ ∀ e ∈ l, P e.2 := by
  induction l generalizing f with
  | nil => exact ⟨h, fun e he => nomatch he⟩
  | cons d rest ih =>
    rw [addTerms_cons] at h
    obtain ⟨hstep, hrest⟩ := ih (fun e he => hl e (List.mem_cons_of_mem _ he)) h
    obtain ⟨hf, hd⟩ := AllWeights.of_addTerm hP (hl d List.mem_cons_self) hstep
    exact ⟨hf, List.forall_mem_cons.mpr ⟨hd, hrest⟩⟩

omit hP in
theorem AllWeights.of_fillDiagonal (h : f.fillDiagonal.AllWeights P) : f.AllWeights P := by
  have hfold : ∀ (l : List String) (t : Table (Cell String) (Weight α)),
      (l.foldl (fun t a => t.insertNew ⟨a, a⟩ 0) t).AllValues P → t.AllValues P := by
    intro l
    induction l with
    | nil => exact fun t ht => ht
    | cons a rest ih => exact fun t ht => Table.AllValues.of_insertNew (ih _ ht)
  exact ⟨hfold f.labels.elems f.entries h.entries, h.offset⟩

theorem AllWeights.of_ofPolynomial (h : ∀ m ∈ p.monomials, m.degree ≤ 2)
    (hform : (ofPolynomial p).AllWeights P) : p.AllWeights P :=
  (AllWeights.of_addTerms hP (fun e he => h e.1 (List.mem_map_of_mem he))
    (AllWeights.of_fillDiagonal hform)).2

end

/-! ## Placeholders -/

def placeholders {α : Type} (f : Qubo α) : List String :=
  (f.entries.entries.flatMap fun e => e.2.placeholders) ++ f.offset.placeholders

omit [Scalar α] in
theorem mem_placeholders {l : String} : l ∈ f.placeholders ↔
    (∃ e ∈ f.entries.entries, l ∈ e.2.placeholders) ∨ l ∈ f.offset.placeholders := by
  rw [placeholders, List.mem_append, List.mem_flatMap]

omit [Scalar α] in
theorem not_mem_placeholders {l : String} :
    ¬ l ∈ f.placeholders ↔ f.AllWeights fun w => ¬ l ∈ w.placeholders := by
  rw [mem_placeholders]
  push Not
  exact ⟨fun h => ⟨h.1, h.2⟩, fun h => ⟨h.entries, h.offset⟩⟩

theorem mem_placeholders_ofPolynomial (h : ∀ m ∈ p.monomials, m.degree ≤ 2) {l : String} :
    l ∈ (ofPolynomial p).placeholders ↔ l ∈ p.placeholders := by
  rw [← not_iff_not, not_mem_placeholders, Polynomial.not_mem_placeholders]
  constructor
  · exact AllWeights.of_ofPolynomial (fun v w => Weight.not_mem_placeholders_add.mp) h
  · intro hp
    exact allWeights_ofPolynomial List.not_mem_nil
      (fun v w hv hw => Weight.not_mem_placeholders_add.mpr ⟨hv, hw⟩) hp h

end PseudoBoolean.Qubo
