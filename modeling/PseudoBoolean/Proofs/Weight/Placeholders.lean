import PseudoBoolean.Proofs.Table.Sum
import PseudoBoolean.Weight

/-! # Placeholders of weights

The placeholders of a weight are the labels in the power products of its terms. A term
is never dropped, whatever becomes of its factor, so a sum has the placeholders of both
summands, and a product those of both factors as long as neither is a coefficient
without terms. No law of arithmetic is used.
-/

namespace PseudoBoolean

namespace PowerProduct

theorem mulPower_eq (p : PowerProduct) (label : String) (n : Nat) :
    p.mulPower label n = ⟨p.exponents.addAt label n⟩ :=
  congrArg mk (p.exponents.upsert_getD_add label n)

theorem exponents_mul (p q : PowerProduct) : (p * q).exponents = p.exponents + q.exponents := by
  have hfold : ∀ (l : List (String × Nat)) (p : PowerProduct),
      l.foldl (fun p e => p.mulPower e.1 e.2) p = ⟨p.exponents.addAll l⟩ := by
    intro l
    induction l with
    | nil => intro p; rfl
    | cons e rest ih => intro p; rw [List.foldl_cons, ih, mulPower_eq]; rfl
  exact congrArg exponents (hfold q.exponents.entries p)

def labels (p : PowerProduct) : List String := p.exponents.keys

theorem mem_labels_mul {p q : PowerProduct} {l : String} :
    l ∈ (p * q).labels ↔ l ∈ p.labels ∨ l ∈ q.labels := by
  rw [labels, exponents_mul]
  exact Table.mem_keys_add

theorem isConstant_iff {p : PowerProduct} : p.isConstant = true ↔ p.labels = [] :=
  Table.isEmpty_iff

end PowerProduct

namespace Coefficient

def placeholders {α : Type} (c : Coefficient α) : List String :=
  c.terms.keys.flatMap PowerProduct.labels

theorem mem_placeholders {α : Type} {c : Coefficient α} {l : String} :
    l ∈ c.placeholders ↔ ∃ p ∈ c.terms.keys, l ∈ p.labels := List.mem_flatMap

theorem isConstant_iff {α : Type} {c : Coefficient α} :
    c.isConstant = true ↔ ∀ p ∈ c.terms.keys, p.labels = [] := by
  simp only [isConstant, List.all_eq_true, PowerProduct.isConstant_iff]

variable {α : Type} [Scalar α] {c d : Coefficient α} {p : PowerProduct} {l : String}

/-! ## Terms of coefficients -/

theorem mem_keys_addTerms {terms : List (PowerProduct × α)} :
    p ∈ (c.addTerms terms).terms.keys ↔ p ∈ c.terms.keys ∨ p ∈ terms.map Prod.fst := by
  induction terms generalizing c with
  | nil => exact (or_iff_left List.not_mem_nil).symm
  | cons e rest ih =>
    have hstep : c.addTerms (e :: rest) = (c.addTerm e.1 e.2).addTerms rest := rfl
    rw [hstep, ih, addTerm, Table.mem_keys_upsert, List.map_cons, List.mem_cons,
      or_comm (a := p = e.1), or_assoc]

theorem mem_keys_add : p ∈ (c + d).terms.keys ↔ p ∈ c.terms.keys ∨ p ∈ d.terms.keys :=
  mem_keys_addTerms

theorem mem_keys_ofList {terms : List (PowerProduct × α)} :
    p ∈ (ofList terms).terms.keys ↔ p ∈ terms.map Prod.fst :=
  mem_keys_addTerms.trans (or_iff_right List.not_mem_nil)

theorem mem_keys_constant {x : α} : p ∈ (constant x).terms.keys ↔ p = 1 :=
  mem_keys_ofList.trans List.mem_singleton

theorem mem_keys_placeholder {label : String} :
    p ∈ (placeholder label : Coefficient α).terms.keys ↔ p = PowerProduct.placeholder label :=
  mem_keys_ofList.trans List.mem_singleton

theorem keys_scale (c : Coefficient α) (x : α) : (c.scale x).terms.keys = c.terms.keys :=
  c.terms.keys_mapValues (· * x)

theorem mem_keys_mul :
    p ∈ (c * d).terms.keys ↔ ∃ q ∈ c.terms.keys, ∃ r ∈ d.terms.keys, p = q * r := by
  refine mem_keys_ofList.trans ?_
  simp only [Table.keys, List.mem_map, List.mem_flatMap]
  constructor
  · rintro ⟨_, ⟨e, he, f, hf, rfl⟩, rfl⟩
    exact ⟨e.1, ⟨e, he, rfl⟩, f.1, ⟨f, hf, rfl⟩, rfl⟩
  · rintro ⟨_, ⟨e, he, rfl⟩, _, ⟨f, hf, rfl⟩, rfl⟩
    exact ⟨(e.1 * f.1, e.2 * f.2), ⟨e, he, f, hf, rfl⟩, rfl⟩

theorem mem_placeholders_of_mul (h : l ∈ (c * d).placeholders) :
    l ∈ c.placeholders ∨ l ∈ d.placeholders := by
  obtain ⟨p, hp, hl⟩ := mem_placeholders.mp h
  obtain ⟨q, hq, r, hr, rfl⟩ := mem_keys_mul.mp hp
  obtain hl | hl := PowerProduct.mem_labels_mul.mp hl
  · exact .inl (mem_placeholders.mpr ⟨q, hq, hl⟩)
  · exact .inr (mem_placeholders.mpr ⟨r, hr, hl⟩)

/-- A factor has the placeholder in a term, and the other one some term to go with it. -/
theorem mem_placeholders_mul (hc : ∃ p, p ∈ c.terms.keys) (hd : ∃ p, p ∈ d.terms.keys) :
    l ∈ (c * d).placeholders ↔ l ∈ c.placeholders ∨ l ∈ d.placeholders := by
  refine ⟨mem_placeholders_of_mul, fun h => ?_⟩
  obtain h | h := h
  · obtain ⟨q, hq, hl⟩ := mem_placeholders.mp h
    obtain ⟨r, hr⟩ := hd
    exact mem_placeholders.mpr ⟨q * r, mem_keys_mul.mpr ⟨q, hq, r, hr, rfl⟩,
      PowerProduct.mem_labels_mul.mpr (.inl hl)⟩
  · obtain ⟨r, hr, hl⟩ := mem_placeholders.mp h
    obtain ⟨q, hq⟩ := hc
    exact mem_placeholders.mpr ⟨q * r, mem_keys_mul.mpr ⟨q, hq, r, hr, rfl⟩,
      PowerProduct.mem_labels_mul.mpr (.inr hl)⟩

end Coefficient

namespace Weight

def placeholders {α : Type} : Weight α → List String
  | number _ => []
  | symbolic c => c.placeholders

variable {α : Type} [Scalar α] {v w : Weight α} {p : PowerProduct} {l : String}

/-! ## Terms of weights -/

theorem mem_keys_add : p ∈ (v + w).toCoefficient.terms.keys
    ↔ p ∈ v.toCoefficient.terms.keys ∨ p ∈ w.toCoefficient.terms.keys := by
  cases v with
  | symbolic c => exact Coefficient.mem_keys_add
  | number x =>
    cases w with
    | symbolic d => exact Coefficient.mem_keys_add
    | number y =>
      rw [toCoefficient, toCoefficient, Coefficient.mem_keys_constant,
        Coefficient.mem_keys_constant, or_self]
      exact Coefficient.mem_keys_constant

/-- Whether a weight is a number or a coefficient with a term. -/
def HasTerms (w : Weight α) : Prop := ∃ p, p ∈ w.toCoefficient.terms.keys

theorem hasTerms_number (x : α) : (number x).HasTerms :=
  ⟨1, Coefficient.mem_keys_constant.mpr rfl⟩

theorem hasTerms_placeholder (label : String) : (placeholder label : Weight α).HasTerms :=
  ⟨PowerProduct.placeholder label, Coefficient.mem_keys_placeholder.mpr rfl⟩

theorem hasTerms_add (hv : v.HasTerms) : (v + w).HasTerms := by
  obtain ⟨p, hp⟩ := hv
  exact ⟨p, mem_keys_add.mpr (.inl hp)⟩

theorem hasTerms_scale (hw : w.HasTerms) (x : α) : (w.scale x).HasTerms := by
  cases w with
  | number y => exact hasTerms_number _
  | symbolic c =>
    obtain ⟨p, hp⟩ := hw
    exact ⟨p, (c.keys_scale x).symm ▸ hp⟩

theorem hasTerms_mul (hv : v.HasTerms) (hw : w.HasTerms) : (v * w).HasTerms := by
  cases w with
  | number y => exact hasTerms_scale hv y
  | symbolic d =>
    cases v with
    | number x => exact hasTerms_scale hw x
    | symbolic c =>
      obtain ⟨p, hp⟩ := hv
      obtain ⟨q, hq⟩ := hw
      exact ⟨p * q, Coefficient.mem_keys_mul.mpr ⟨p, hp, q, hq, rfl⟩⟩

/-! ## Placeholders of weights -/

theorem mem_placeholders_iff :
    l ∈ w.placeholders ↔ ∃ p ∈ w.toCoefficient.terms.keys, l ∈ p.labels := by
  cases w with
  | symbolic c => exact Coefficient.mem_placeholders
  | number x =>
    refine iff_of_false List.not_mem_nil ?_
    rintro ⟨p, hp, hl⟩
    rw [Coefficient.mem_keys_constant.mp hp] at hl
    cases hl

theorem mem_placeholders_placeholder {label : String} :
    l ∈ (placeholder label : Weight α).placeholders ↔ l = label := by
  refine Coefficient.mem_placeholders.trans ?_
  simp only [Coefficient.mem_keys_placeholder, exists_eq_left]
  exact List.mem_singleton

theorem mem_placeholders_add :
    l ∈ (v + w).placeholders ↔ l ∈ v.placeholders ∨ l ∈ w.placeholders := by
  simp only [mem_placeholders_iff, mem_keys_add, or_and_right, exists_or]

theorem not_mem_placeholders_add :
    ¬ l ∈ (v + w).placeholders ↔ ¬ l ∈ v.placeholders ∧ ¬ l ∈ w.placeholders := by
  rw [mem_placeholders_add, not_or]

theorem placeholders_scale (w : Weight α) (x : α) : (w.scale x).placeholders = w.placeholders := by
  cases w with
  | number y => rfl
  | symbolic c => exact congrArg (·.flatMap PowerProduct.labels) (c.keys_scale x)

theorem mem_placeholders_of_mul (h : l ∈ (v * w).placeholders) :
    l ∈ v.placeholders ∨ l ∈ w.placeholders := by
  cases w with
  | number y => exact .inl (placeholders_scale v y ▸ h)
  | symbolic d =>
    cases v with
    | number x => exact .inr (placeholders_scale (symbolic d) x ▸ h)
    | symbolic c => exact Coefficient.mem_placeholders_of_mul h

theorem mem_placeholders_mul (hv : v.HasTerms) (hw : w.HasTerms) :
    l ∈ (v * w).placeholders ↔ l ∈ v.placeholders ∨ l ∈ w.placeholders := by
  refine ⟨mem_placeholders_of_mul, fun h => ?_⟩
  cases w with
  | number y =>
    have hl := h.resolve_right List.not_mem_nil
    exact (placeholders_scale v y).symm ▸ hl
  | symbolic d =>
    cases v with
    | number x =>
      have hl := h.resolve_left List.not_mem_nil
      exact (placeholders_scale (symbolic d) x).symm ▸ hl
    | symbolic c => exact (Coefficient.mem_placeholders_mul hv hw).mpr h

end Weight

end PseudoBoolean
