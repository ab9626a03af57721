import PseudoBoolean.Proofs.QuadraticForm.Feed

/-! # Failures of evaluation

A weight fails for want of a placeholder, never for want of a variable. So where the
evaluation of a polynomial misses a variable, this is one of its own, and one without a
value.
-/

namespace PseudoBoolean

variable {α : Type} [Scalar α] {feed : Feed α} {values : String → Option α} {l : String}

theorem Weight.eval_ne_missingVariable (w : Weight α) :
    w.eval feed ≠ .error (.missingVariable l) := by
  intro h
  cases Weight.lacks_of_eval h

theorem Qubo.eval_ne_missingVariable (f : Qubo α) : f.eval feed ≠ .error (.missingVariable l) := by
  intro h
  cases Qubo.lacks_of_eval h

theorem Monomial.mem_labels_of_eval_eq_error {m : Monomial}
    (h : m.eval values = .error (.missingVariable l)) : l ∈ m.labels ∧ values l = none := by
  obtain ⟨k, hk, product, hfail⟩ := exists_of_foldlM_eq_error h
  split at hfail
  · cases hfail
  · next hnone =>
    cases hfail
    exact ⟨hk, hnone⟩

/-- The variable that an evaluation misses. -/
theorem Polynomial.mem_labels_of_energy_eq_error {p : Polynomial α}
    (h : p.energy values feed = .error (.missingVariable l)) : l ∈ p.labels ∧ values l = none := by
  obtain ⟨e, he, sum, hfail⟩ := exists_of_foldlM_eq_error h
  obtain hfail | ⟨product, -, hfail⟩ := bind_eq_error hfail
  · obtain ⟨hl, hnone⟩ := Monomial.mem_labels_of_eval_eq_error hfail
    exact ⟨mem_labels.mpr ⟨e.1, List.mem_map_of_mem he, hl⟩, hnone⟩
  · obtain hfail | ⟨weight, -, hfail⟩ := bind_eq_error hfail
    · exact absurd hfail e.2.eval_ne_missingVariable
    · cases hfail

end PseudoBoolean
