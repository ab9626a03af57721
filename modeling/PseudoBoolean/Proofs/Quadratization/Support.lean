import Mathlib
import PseudoBoolean.Proofs.Polynomial.Support
import PseudoBoolean.Proofs.Quadratization.Labels

/-! # What a quadratization keeps

A factor that a step contracts away everywhere stays in the penalty of the step, so
labels are never lost along a quadratization, and neither are the placeholders of the
weights, which are only added up. The first step brings in those of the strength.
-/

namespace PseudoBoolean.Polynomial

variable {α : Type} [Scalar α] {strength : Weight α} {f p : Polynomial α} {done : List Step}
  {s : Step} {l : String}

theorem mem_labels_penalty_of_mem (hl : l = s.first ∨ l = s.second ∨ l = s.product) :
    l ∈ (s.penalty strength).labels := by
  have hmonomial : ∀ (k : List String) (w : Weight α),
      (Monomial.ofList k, w) ∈ [(Monomial.ofList [s.product], strength.scale ((3 : Nat) : α)),
        (Monomial.ofList [s.second, s.product], strength.scale (-((2 : Nat) : α))),
        (Monomial.ofList [s.first, s.product], strength.scale (-((2 : Nat) : α))),
        (Monomial.ofList [s.first, s.second], strength)] →
      l ∈ k → l ∈ (s.penalty strength).labels := by
    intro k w hmem hlk
    exact mem_labels.mpr ⟨Monomial.ofList k, mem_monomials_ofList.mpr ⟨_, hmem, rfl⟩,
      Monomial.mem_labels_ofList.mpr hlk⟩
  obtain rfl | rfl | rfl := hl
  · exact hmonomial [s.first, s.second] strength (by simp) (by simp)
  · exact hmonomial [s.first, s.second] strength (by simp) (by simp)
  · exact hmonomial [s.product] (strength.scale ((3 : Nat) : α)) (by simp) (by simp)

theorem mem_labels_apply (hl : l ∈ p.labels) : l ∈ (p.apply strength s).labels := by
  rw [apply, mem_labels_add]
  obtain ⟨m, hm, hlm⟩ := mem_labels.mp hl
  by_cases hcontracted : l = s.first ∨ l = s.second
  · exact .inr (mem_labels_penalty_of_mem (hcontracted.imp_right .inl))
  · left
    rw [mem_labels, contract_eq_rename]
    refine ⟨s.contract m, mem_monomials_rename.mpr ⟨m, hm, rfl⟩, ?_⟩
    exact Step.mem_labels_contract_of_ne hlm fun h => hcontracted h.2.2

theorem Reaches.mem_labels (h : Reaches strength f done p) (hl : l ∈ f.labels) : l ∈ p.labels := by
  induction h with
  | start => exact hl
  | step _ _ ih => exact mem_labels_apply ih

theorem Reaches.mem_labels_of_step (h : Reaches strength f done p) (hs : s ∈ done)
    (hl : l = s.first ∨ l = s.second ∨ l = s.product) : l ∈ p.labels := by
  induction h with
  | start => cases hs
  | step _ _ ih =>
    obtain hs | hs := List.mem_append.mp hs
    · exact mem_labels_apply (ih hs)
    · rw [List.mem_singleton] at hs
      rw [apply, mem_labels_add, ← hs]
      exact .inr (mem_labels_penalty_of_mem hl)

/-! ## Placeholders -/

theorem mem_placeholders_penalty :
    l ∈ (s.penalty strength).placeholders ↔ l ∈ strength.placeholders := by
  refine mem_placeholders_ofList.trans ?_
  simp [Weight.placeholders_scale]

theorem mem_placeholders_apply :
    l ∈ (p.apply strength s).placeholders ↔ l ∈ p.placeholders ∨ l ∈ strength.placeholders := by
  rw [apply, mem_placeholders_add, mem_placeholders_penalty, contract_eq_rename,
    mem_placeholders_rename]

/-- A step brings in the placeholders of the strength. -/
theorem Reaches.mem_placeholders (h : Reaches strength f done p) :
    l ∈ p.placeholders ↔ l ∈ f.placeholders ∨ done ≠ [] ∧ l ∈ strength.placeholders := by
  induction h with
  | start => simp only [ne_eq, not_true_eq_false, false_and, or_false]
  | @step done p s _ _ ih =>
    have hsteps : done ++ [s] ≠ [] := List.append_ne_nil_of_right_ne_nil _ (List.cons_ne_nil s [])
    rw [mem_placeholders_apply, ih]
    tauto

end PseudoBoolean.Polynomial
