import Mathlib
import PseudoBoolean.Proofs.AuxiliaryLabel
import PseudoBoolean.Proofs.Quadratization.Value

/-! # Blocks of variables

A label stands for the block of its parts, and the labels of a monomial divide its
variables into disjoint blocks. Contraction joins the blocks of the two factors and leaves
the others alone.
-/

namespace PseudoBoolean

namespace Monomial

def parts (m : Monomial) : List String := m.labels.flatMap labelParts

theorem mem_parts {m : Monomial} {x : String} :
    x ∈ m.parts ↔ ∃ l ∈ m.labels, x ∈ labelParts l := List.mem_flatMap

theorem labels_nodup (m : Monomial) : m.labels.Nodup := by
  apply m.factors.ascending.imp
  rintro a b hab rfl
  rw [Std.LawfulEqOrd.compare_eq_iff_eq.mpr rfl] at hab
  cases hab

theorem parts_eq_labels {m : Monomial} (h : ∀ l ∈ m.labels, ¬ '*' ∈ l.toList) :
    m.parts = m.labels := by
  rw [parts, List.flatMap_congr fun l hl => labelParts_eq_singleton (h l hl)]
  exact List.flatMap_singleton' m.labels

theorem eq_of_mem_labelParts {m : Monomial} (h : m.parts.Nodup) {a b x : String}
    (ha : a ∈ m.labels) (hb : b ∈ m.labels) (hxa : x ∈ labelParts a) (hxb : x ∈ labelParts b) :
    a = b := by
  apply Classical.byContradiction
  intro hab
  have hdisjoint := (List.nodup_flatMap.mp h).2
  have hsymm : Std.Symm (Function.onFun List.Disjoint labelParts) := ⟨fun _ _ h => h.symm⟩
  exact hdisjoint.forall ha hb hab hxa hxb

theorem auxiliaryLabel_not_mem {m : Monomial} (h : m.parts.Nodup) {a b : String}
    (ha : a ∈ m.labels) (hb : b ∈ m.labels) (hab : a ≠ b) : ¬ auxiliaryLabel a b ∈ m.labels := by
  intro hp
  obtain ⟨x, hx⟩ := exists_mem_labelParts a
  obtain ⟨y, hy⟩ := exists_mem_labelParts b
  have hperm := labelParts_auxiliaryLabel a b
  have hpa := eq_of_mem_labelParts h hp ha (hperm.mem_iff.mpr (List.mem_append_left _ hx)) hx
  have hpb := eq_of_mem_labelParts h hp hb (hperm.mem_iff.mpr (List.mem_append_right _ hy)) hy
  exact hab (hpa.symm.trans hpb)

theorem parts_substitute {m : Monomial} (h : m.parts.Nodup) {a b : String}
    (ha : a ∈ m.labels) (hb : b ∈ m.labels) (hab : a ≠ b) :
    (m.substitute a b (auxiliaryLabel a b)).parts.Perm m.parts := by
  -- Both monomials are compared with the labels that the substitution leaves as they are.
  let rest := m.labels.filter fun l => l ≠ a && l ≠ b
  have hrest : ∀ l, l ∈ rest ↔ l ∈ m.labels ∧ l ≠ a ∧ l ≠ b := by
    intro l
    rw [List.mem_filter, Bool.and_eq_true, decide_eq_true_iff, decide_eq_true_iff]
  have hnodup : rest.Nodup := m.labels_nodup.filter _
  have hnew : (m.substitute a b (auxiliaryLabel a b)).labels.Perm (auxiliaryLabel a b :: rest) := by
    have hp : ¬ auxiliaryLabel a b ∈ rest :=
      fun hp => auxiliaryLabel_not_mem h ha hb hab ((hrest _).mp hp).1
    apply (List.perm_ext_iff_of_nodup (labels_nodup _) (List.nodup_cons.mpr ⟨hp, hnodup⟩)).mpr
    intro l
    rw [Step.mem_labels_substitute, List.mem_cons, hrest]
  have hold : m.labels.Perm (a :: b :: rest) := by
    have hb' : ¬ b ∈ rest := fun hb' => ((hrest b).mp hb').2.2 rfl
    have ha' : ¬ a ∈ b :: rest := by
      intro ha'
      obtain hab' | ha' := List.mem_cons.mp ha'
      · exact hab hab'
      · exact ((hrest a).mp ha').2.1 rfl
    apply (List.perm_ext_iff_of_nodup (labels_nodup _)
      (List.nodup_cons.mpr ⟨ha', List.nodup_cons.mpr ⟨hb', hnodup⟩⟩)).mpr
    intro l
    rw [List.mem_cons, List.mem_cons, hrest]
    by_cases hla : l = a
    · simp only [hla, ha, true_or]
    · by_cases hlb : l = b
      · simp only [hlb, hb, true_or, or_true]
      · simp only [hla, hlb, false_or, ne_eq, not_false_iff, and_true]
  have hblock : (labelParts (auxiliaryLabel a b) ++ rest.flatMap labelParts).Perm
      (labelParts a ++ (labelParts b ++ rest.flatMap labelParts)) := by
    rw [← List.append_assoc]
    exact (labelParts_auxiliaryLabel a b).append_right _
  exact ((hnew.flatMap_right labelParts).trans hblock).trans (hold.flatMap_right labelParts).symm

/-- Whether some of the blocks of a monomial divide up `P`: each block lies in it or
outside of it, and they cover it. -/
structure Splits (m : Monomial) (P : List String) : Prop where
  inside : ∀ l ∈ m.labels, ∀ x ∈ labelParts l, x ∈ P → ∀ y ∈ labelParts l, y ∈ P
  cover : ∀ x ∈ P, x ∈ m.parts

end Monomial

namespace Step

/-- Whether a step is for the product of two different factors. -/
structure Proper (s : Step) : Prop where
  ne : s.first ≠ s.second
  product : s.product = auxiliaryLabel s.first s.second

theorem Proper.labelParts_product {s : Step} (hs : s.Proper) {x : String} :
    x ∈ labelParts s.product ↔ x ∈ labelParts s.first ∨ x ∈ labelParts s.second := by
  rw [hs.product, (labelParts_auxiliaryLabel s.first s.second).mem_iff, List.mem_append]

theorem Proper.parts_contract {s : Step} (hs : s.Proper) {m : Monomial} (h : m.parts.Nodup) :
    (s.contract m).parts.Perm m.parts := by
  by_cases hm : s.first ∈ m.labels ∧ s.second ∈ m.labels
  · rw [contract_of_mem hm.1 hm.2, hs.product]
    exact Monomial.parts_substitute h hm.1 hm.2 hs.ne
  · rw [contract_of_not_mem hm]

theorem mem_labels_contract {s : Step} {m : Monomial} {l : String}
    (h : l ∈ (s.contract m).labels) : l = s.product ∧ s.first ∈ m.labels ∧ s.second ∈ m.labels ∨
      l ∈ m.labels ∧
        ¬ (s.first ∈ m.labels ∧ s.second ∈ m.labels ∧ (l = s.first ∨ l = s.second)) := by
  by_cases hm : s.first ∈ m.labels ∧ s.second ∈ m.labels
  · rw [contract_of_mem hm.1 hm.2, mem_labels_substitute] at h
    obtain rfl | ⟨hl, hla, hlb⟩ := h
    · exact .inl ⟨rfl, hm⟩
    · exact .inr ⟨hl, fun h => h.2.2.elim hla hlb⟩
  · rw [contract_of_not_mem hm] at h
    exact .inr ⟨h, fun h => hm ⟨h.1, h.2.1⟩⟩

theorem mem_labels_contract_of_ne {s : Step} {m : Monomial} {l : String} (hl : l ∈ m.labels)
    (h : ¬ (s.first ∈ m.labels ∧ s.second ∈ m.labels ∧ (l = s.first ∨ l = s.second))) :
    l ∈ (s.contract m).labels := by
  by_cases hm : s.first ∈ m.labels ∧ s.second ∈ m.labels
  · rw [contract_of_mem hm.1 hm.2, mem_labels_substitute]
    exact .inr ⟨hl, fun hla => h ⟨hm.1, hm.2, .inl hla⟩, fun hlb => h ⟨hm.1, hm.2, .inr hlb⟩⟩
  · rw [contract_of_not_mem hm]
    exact hl

theorem product_mem_contract {s : Step} {m : Monomial} (ha : s.first ∈ m.labels)
    (hb : s.second ∈ m.labels) : s.product ∈ (s.contract m).labels := by
  rw [contract_of_mem ha hb, mem_labels_substitute]
  exact .inl rfl

/-- Contraction only joins blocks. -/
theorem Proper.splits_of_contract {s : Step} (hs : s.Proper) {m : Monomial} (h : m.parts.Nodup)
    {P : List String} (hP : (s.contract m).Splits P) : m.Splits P where
  inside l hl x hx hxP := by
    by_cases hm : s.first ∈ m.labels ∧ s.second ∈ m.labels ∧ (l = s.first ∨ l = s.second)
    · obtain ⟨ha, hb, hl⟩ := hm
      have hsub : ∀ y ∈ labelParts l, y ∈ labelParts s.product := by
        intro y hy
        rw [hs.labelParts_product]
        obtain rfl | rfl := hl
        · exact .inl hy
        · exact .inr hy
      intro y hy
      exact hP.inside _ (product_mem_contract ha hb) x (hsub x hx) hxP y (hsub y hy)
    · exact hP.inside l (mem_labels_contract_of_ne hl hm) x hx hxP
  cover x hx := (hs.parts_contract h).mem_iff.mp (hP.cover x hx)

end Step

end PseudoBoolean
