import Mathlib
import PseudoBoolean.Proofs.AuxiliaryLabel

/-! # Products of several variables

A product of several variables is made of products of two, in some order and with some
brackets. Its label depends on neither: whatever the labels are, it has their parts in
ascending order. Labels without a star are parts themselves, so the label of a product of
distinct variables tells which variables these are.
-/

namespace PseudoBoolean

theorem canonicalLabel_canonicalLabel (label : String) :
    canonicalLabel (canonicalLabel label) = canonicalLabel label := by
  apply canonicalLabel_eq_of_perm
  rw [labelParts_canonicalLabel]
  exact List.mergeSort_perm _ _

theorem canonicalLabel_eq_self {label : String} (h : ¬ '*' ∈ label.toList) :
    canonicalLabel label = label := by
  rw [canonicalLabel, labelParts_eq_singleton h, List.mergeSort_singleton]
  exact String.intercalate_singleton

theorem auxiliaryLabel_assoc (a b c : String) :
    auxiliaryLabel (auxiliaryLabel a b) c = auxiliaryLabel a (auxiliaryLabel b c) := by
  apply canonicalLabel_eq_of_perm
  rw [labelParts_append, labelParts_append]
  refine ((labelParts_auxiliaryLabel a b).append_right _).trans ?_
  rw [List.append_assoc]
  exact (labelParts_auxiliaryLabel b c).symm.append_left _

/-- An auxiliary variable has a longer label than its factors. -/
theorem auxiliaryLabel_ne (a b : String) : auxiliaryLabel a b ≠ a ∧ auxiliaryLabel a b ≠ b := by
  have hlength := length_auxiliaryLabel a b
  constructor
  · intro h
    rw [h] at hlength
    omega
  · intro h
    rw [h] at hlength
    omega

/-- A product of variables, as the brackets around two factors at a time. -/
inductive Grouping where
  | label (l : String)
  | pair (s t : Grouping)

namespace Grouping

def leaves : Grouping → List String
  | label l => [l]
  | pair s t => s.leaves ++ t.leaves

/-- The label that the auxiliary variables of the brackets come to. -/
def combined : Grouping → String
  | label l => l
  | pair s t => auxiliaryLabel s.combined t.combined

theorem leaves_ne_nil (t : Grouping) : t.leaves ≠ [] := by
  induction t with
  | label l => exact List.cons_ne_nil l []
  | pair s t ihs _ => exact List.append_ne_nil_of_left_ne_nil ihs t.leaves

theorem labelParts_combined (t : Grouping) :
    (labelParts t.combined).Perm (t.leaves.flatMap labelParts) := by
  induction t with
  | label l =>
    rw [leaves, List.flatMap_singleton]
    exact .refl _
  | pair s t ihs iht =>
    rw [leaves, List.flatMap_append]
    exact (labelParts_auxiliaryLabel s.combined t.combined).trans (ihs.append iht)

theorem two_le_length_leaves (s t : Grouping) : 2 ≤ (pair s t).leaves.length := by
  have hs := List.length_pos_iff.mpr s.leaves_ne_nil
  have ht := List.length_pos_iff.mpr t.leaves_ne_nil
  rw [leaves, List.length_append]
  omega

theorem canonicalLabel_combined_pair (s t : Grouping) :
    canonicalLabel (pair s t).combined = (pair s t).combined := canonicalLabel_canonicalLabel _

/-- Neither the order of the factors nor the brackets matter. -/
theorem combined_eq_of_perm {s t : Grouping} (h : s.leaves.Perm t.leaves) :
    s.combined = t.combined := by
  have hparts : (labelParts s.combined).Perm (labelParts t.combined) :=
    s.labelParts_combined.trans ((h.flatMap_right labelParts).trans t.labelParts_combined.symm)
  have hlength := h.length_eq
  cases s with
  | label l =>
    cases t with
    | label k => exact List.singleton_perm_singleton.mp h
    | pair t₁ t₂ =>
      have hle := two_le_length_leaves t₁ t₂
      rw [← hlength, leaves, List.length_singleton] at hle
      omega
  | pair s₁ s₂ =>
    cases t with
    | label k =>
      have hle := two_le_length_leaves s₁ s₂
      rw [hlength, leaves, List.length_singleton] at hle
      omega
    | pair t₁ t₂ =>
      rw [← canonicalLabel_combined_pair s₁ s₂, ← canonicalLabel_combined_pair t₁ t₂]
      exact canonicalLabel_eq_of_perm hparts

end Grouping

/-! ## Products of distinct variables -/

/-- The label of the product of all variables of a list. -/
def productLabel (l : List String) : String := canonicalLabel (String.intercalate "*" l)

theorem labelParts_productLabel {l : List String} (hne : l ≠ [])
    (h : ∀ x ∈ l, ¬ '*' ∈ x.toList) : (labelParts (productLabel l)).Perm l := by
  rw [productLabel, labelParts_canonicalLabel, labelParts_intercalate hne h]
  exact List.mergeSort_perm _ _

theorem productLabel_eq_iff_perm {l m : List String} (hl : l ≠ []) (hm : m ≠ [])
    (hlstar : ∀ x ∈ l, ¬ '*' ∈ x.toList) (hmstar : ∀ x ∈ m, ¬ '*' ∈ x.toList) :
    productLabel l = productLabel m ↔ l.Perm m := by
  constructor
  · intro h
    have hparts := labelParts_productLabel hl hlstar
    rw [h] at hparts
    exact hparts.symm.trans (labelParts_productLabel hm hmstar)
  · intro h
    apply canonicalLabel_eq_of_perm
    rw [labelParts_intercalate hl hlstar, labelParts_intercalate hm hmstar]
    exact h

theorem productLabel_eq_iff {l m : List String} (hl : l ≠ []) (hm : m ≠ []) (hlnodup : l.Nodup)
    (hmnodup : m.Nodup) (hstar : ∀ x ∈ l ++ m, ¬ '*' ∈ x.toList) :
    productLabel l = productLabel m ↔ ∀ x, x ∈ l ↔ x ∈ m := by
  rw [productLabel_eq_iff_perm hl hm (fun x hx => hstar x (List.mem_append_left m hx))
    fun x hx => hstar x (List.mem_append_right l hx)]
  exact List.perm_ext_iff_of_nodup hlnodup hmnodup

theorem Grouping.combined_eq_productLabel {t : Grouping} (h : ∀ x ∈ t.leaves, ¬ '*' ∈ x.toList) :
    t.combined = productLabel t.leaves := by
  have hcanonical : canonicalLabel t.combined = productLabel t.leaves := by
    apply canonicalLabel_eq_of_perm
    rw [labelParts_intercalate t.leaves_ne_nil h]
    refine t.labelParts_combined.trans ?_
    rw [List.flatMap_congr fun l hl => labelParts_eq_singleton (h l hl), List.flatMap_singleton']
  cases t with
  | label l =>
    rw [combined, canonicalLabel_eq_self (h l List.mem_cons_self)] at hcanonical
    exact hcanonical
  | pair s t => rw [← hcanonical, canonicalLabel_combined_pair]

/-- Labels of products commute and associate, so they do not depend on how a product is
grouped. They are in canonical form and differ from those of the factors, and for distinct
variables whose labels have no star they are equal exactly if the variables are the same. -/
theorem auxiliaryLabel_laws :
    (∀ a b, auxiliaryLabel a b = auxiliaryLabel b a) ∧
      (∀ a b c, auxiliaryLabel (auxiliaryLabel a b) c = auxiliaryLabel a (auxiliaryLabel b c)) ∧
      (∀ s t : Grouping, s.leaves.Perm t.leaves → s.combined = t.combined) ∧
      (∀ label, canonicalLabel (canonicalLabel label) = canonicalLabel label) ∧
      (∀ a b, auxiliaryLabel a b ≠ a ∧ auxiliaryLabel a b ≠ b) ∧
      (∀ t : Grouping, (∀ x ∈ t.leaves, ¬ '*' ∈ x.toList) → t.combined = productLabel t.leaves) ∧
      ∀ l m : List String, l ≠ [] → m ≠ [] → l.Nodup → m.Nodup →
        (∀ x ∈ l ++ m, ¬ '*' ∈ x.toList) →
        (productLabel l = productLabel m ↔ ∀ x, x ∈ l ↔ x ∈ m) :=
  ⟨auxiliaryLabel_comm, auxiliaryLabel_assoc, fun _ _ => Grouping.combined_eq_of_perm,
    canonicalLabel_canonicalLabel, auxiliaryLabel_ne, fun _ => Grouping.combined_eq_productLabel,
    fun _ _ => productLabel_eq_iff⟩

/-- Labels with stars, and the empty label, which has no star. -/
theorem auxiliaryLabel_laws_starredLabels :
    let s : Grouping := .pair (.pair (.label "c*a") (.label "")) (.label "*b")
    let t : Grouping := .pair (.label "") (.pair (.label "*b") (.label "c*a"))
    let u : Grouping := .pair (.label "y") (.pair (.label "") (.label "x"))
    s.combined = t.combined ∧ u.combined = productLabel ["y", "", "x"] ∧
      productLabel ["y", "", "x"] = productLabel ["x", "y", ""] ∧
      productLabel ["y", "", "x"] ≠ productLabel ["x", "y"] := by
  intro s t u
  obtain ⟨-, -, hgrouping, -, -, hproduct, hset⟩ := auxiliaryLabel_laws
  refine ⟨hgrouping s t (by decide), hproduct u (by decide), ?_, ?_⟩
  · rw [hset _ _ (by decide) (by decide) (by decide) (by decide) (by decide)]
    intro x
    simp only [List.mem_cons, List.not_mem_nil, or_false]
    tauto
  · rw [Ne, hset _ _ (by decide) (by decide) (by decide) (by decide) (by decide)]
    intro h
    exact absurd ((h "").mp (by decide)) (by decide)

end PseudoBoolean
