import Mathlib
import PseudoBoolean.Proofs.Compilation
import PseudoBoolean.Proofs.Expr.Support
import PseudoBoolean.Proofs.Model.Audit
import PseudoBoolean.Proofs.Polynomial.Failure
import PseudoBoolean.Proofs.Quadratization.Support

/-! # The variables of a model

As long as no sum is without terms, a model has exactly the variables of the expression
and the auxiliary variables of the steps, whatever becomes of their weights. Its
constraints have no others, so an accepted solution leaves no variable open in them.
-/

namespace PseudoBoolean.Expr

variable {α : Type} [Scalar α] {o : Options α} {e : Expr α} {t : Step} {l : String}

theorem mem_order_of_step (ht : t ∈ e.steps o) (hl : l = t.first ∨ l = t.second ∨ l = t.product) :
    l ∈ (e.compile o).order :=
  mem_order.mpr ((Polynomial.reaches_quadratize e.polynomial).mem_labels_of_step ht hl)

theorem mem_order_of_mem_labels (hsums : e.SumsNonempty) (hl : l ∈ e.labels) :
    l ∈ (e.compile o).order :=
  mem_order.mpr ((Polynomial.reaches_quadratize e.polynomial).mem_labels
    ((mem_labels_polynomial hsums).mpr hl))

theorem labels_of_mem_order (hl : l ∈ (e.compile o).order) :
    l ∈ e.labels ∨ ∃ t ∈ e.steps o, l = t.product := by
  obtain ⟨m, hm, hlm⟩ := Polynomial.mem_labels.mp (mem_order.mp hl)
  refine (Polynomial.reaches_quadratize e.polynomial).forall_labels
    (Q := fun l => l ∈ e.labels ∨ ∃ t ∈ e.steps o, l = t.product) ?_ ?_ m hm l hlm
  · exact fun t ht _ _ => .inr ⟨t, ht, rfl⟩
  · exact fun m hm l hl => .inl (mem_labels_of_mem_polynomial e hm hl)

theorem mem_order_of_constraint (hsums : e.SumsNonempty) :
    (e.compile o).constraints.AllValues fun p => ∀ l ∈ p.labels, l ∈ (e.compile o).order := by
  have hnamed : (Table.ofList e.namedPolynomials).AllValues
      fun p => ∀ l ∈ p.labels, l ∈ (e.compile o).order := by
    apply Table.allValues_ofList
    rw [namedPolynomials_eq]
    intro d hd l hl
    obtain ⟨c, hc, rfl⟩ := List.mem_map.mp hd
    obtain ⟨m, hm, hlm⟩ := Polynomial.mem_labels.mp hl
    exact mem_order_of_mem_labels hsums
      (labels_subset_of_mem_requirements hc (mem_labels_of_mem_polynomial c.2 hm hlm))
  have hsteps : (auxiliaryConstraints o.strength (e.steps o)).AllValues
      fun p => ∀ l ∈ p.labels, l ∈ (e.compile o).order := by
    apply Table.allValues_ofList
    intro d hd l hl
    obtain ⟨t, ht, rfl⟩ := List.mem_map.mp hd
    obtain ⟨m, hm, hlm⟩ := Polynomial.mem_labels.mp hl
    exact mem_order_of_step ht (Polynomial.mem_labels_penalty hm hlm)
  rw [compile_constraints]
  exact Table.allValues_extend hnamed hsteps

theorem decode_ne_missingVariable (hsums : e.SumsNonempty) (domain : Domain)
    (solution : Solution α) (feed : Feed α) :
    (e.compile o).decode domain solution feed ≠ .error (.eval (.missingVariable l)) := by
  intro h
  obtain ⟨bits, hbits, ⟨c, hc, hfail⟩ | hfail⟩ := Model.decode_eq_error_eval h
  · obtain ⟨hl, hnone⟩ := Polynomial.mem_labels_of_energy_eq_error hfail
    have horder := mem_order_of_constraint hsums c hc l hl
    obtain ⟨b, hb⟩ := Table.mem_keys_iff.mp (Solution.mem_keys_of_bits hbits l horder)
    rw [hnone] at hb
    cases hb
  · exact Qubo.eval_ne_missingVariable _ hfail

/-- No variable is lost on the way to the model. -/
theorem mem_order_compile (o : Options α) (e : Expr α) (hsums : e.SumsNonempty) :
    let m := e.compile o
    let steps := (e.compilation o).steps
    (∀ l, l ∈ m.order ↔ l ∈ e.labels ∨ ∃ t ∈ steps, l = t.product) ∧
    (∀ label p, m.constraints.find? label = some p → ∀ l ∈ p.labels, l ∈ m.order) ∧
    ∀ domain solution feed l,
      m.decode domain solution feed ≠ .error (.eval (.missingVariable l)) := by
  intro m steps
  have hsteps : steps = e.steps o := compilation_steps o e
  refine ⟨fun l => ⟨fun hl => ?_, ?_⟩, fun label p hp => ?_, fun domain solution feed l => ?_⟩
  · rw [hsteps]
    exact labels_of_mem_order hl
  · rw [hsteps]
    rintro (hl | ⟨t, ht, rfl⟩)
    · exact mem_order_of_mem_labels hsums hl
    · exact mem_order_of_step ht (.inr (.inr rfl))
  · exact mem_order_of_constraint hsums (label, p) (Table.find?_eq_some_iff.mp hp)
  · exact decode_ne_missingVariable hsums domain solution feed

/-- Terms that cancel, have the weight zero, or have no number as their weight. -/
def vanishingTerms : Expr Float :=
  let x label := var .binary (.ofLabel 0 label)
  sum [x "a", product (num (-1)) (x "a"),
    constraint "limit" (product (num 0) (product (x "b") (product (x "c") (x "d")))),
    product (num (0 / 0)) (x "e")]

theorem mem_order_vanishingTerms :
    let m := vanishingTerms.compile .standard
    (∀ l ∈ ["a", "b", "c", "d", "e"], l ∈ m.order) ∧
      (∀ p, m.constraints.find? "limit" = some p → ∀ l ∈ p.labels, l ∈ m.order) ∧
      m.decode .spin (.list []) ∅ ≠ .error (.eval (.missingVariable "a")) := by
  intro m
  obtain ⟨horder, hconstraint, hdecode⟩ :=
    mem_order_compile .standard vanishingTerms (by decide)
  have hlabels : ∀ l ∈ ["a", "b", "c", "d", "e"], l ∈ vanishingTerms.labels := by decide
  exact ⟨fun l hl => (horder l).mpr (.inl (hlabels l hl)), fun p => hconstraint "limit" p,
    hdecode .spin (.list []) ∅ "a"⟩

end PseudoBoolean.Expr
