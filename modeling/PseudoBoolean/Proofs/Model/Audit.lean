import Mathlib
import PseudoBoolean.Model.Decoding
import PseudoBoolean.Proofs.Solution

/-! # Audits

A decoded solution has passed the audit of all constraints: none is negative, and those
that are positive are listed as broken, with their values and the bits of their
variables. Only an audit reports a negative constraint.
-/

namespace PseudoBoolean

variable {α : Type} [Scalar α] {bits : Table String α} {feed : Feed α} {label : String}

namespace Audit

theorem tolerance_pos : (0 : Rat) < tolerance := by
  norm_num [tolerance]

omit [Scalar α] in
theorem find?_restrict (bits : Table String α) (p : Polynomial α) (x : String) :
    (restrict bits p).find? x = if x ∈ p.labels then bits.find? x else none :=
  Table.find?_ofList_filterMap bits.find? p.labels.elems x

variable {l : List (String × Polynomial α)}

theorem failure?_cons_eq_none {c : String × Polynomial α}
    (h : (ofConstraints bits feed (c :: l)).failure? = none) :
    ∃ x, c.2.energy bits.find? feed = .ok x ∧ ¬ x < -tolerance ∧
      (ofConstraints bits feed l).failure? = none ∧
      (ofConstraints bits feed (c :: l)).broken
        = (if tolerance < x then [(c.1, ⟨restrict bits c.2, x⟩)] else [])
          ++ (ofConstraints bits feed l).broken := by
  obtain ⟨label, p⟩ := c
  rw [ofConstraints] at h ⊢
  cases hx : p.energy bits.find? feed with
  | error e =>
    rw [hx] at h
    cases h
  | ok x =>
    rw [hx] at h
    simp only at h ⊢
    split at h
    · cases h
    · next hnegative =>
      refine ⟨x, rfl, hnegative, ?_, ?_⟩
      · split at h
        · exact h
        · exact h
      · rw [if_neg hnegative]
        split
        · rfl
        · rfl

theorem mem_broken_iff (h : (ofConstraints bits feed l).failure? = none) {b : BrokenConstraint α} :
    (label, b) ∈ (ofConstraints bits feed l).broken ↔
      ∃ p x, (label, p) ∈ l ∧ p.energy bits.find? feed = .ok x ∧ tolerance < x ∧
        b = ⟨restrict bits p, x⟩ := by
  induction l with
  | nil => simp [ofConstraints]
  | cons c rest ih =>
    obtain ⟨x, hx, -, hrest, hbroken⟩ := failure?_cons_eq_none h
    have hhead : (label, b) ∈ (if tolerance < x then [(c.1, (⟨restrict bits c.2, x⟩ :
        BrokenConstraint α))] else []) ↔
          tolerance < x ∧ label = c.1 ∧ b = ⟨restrict bits c.2, x⟩ := by
      split
      · next hpositive => simp [hpositive]
      · next hpositive => simp [hpositive]
    rw [hbroken, List.mem_append, hhead, ih hrest]
    constructor
    · rintro (⟨hpositive, rfl, rfl⟩ | ⟨p, y, hp, hy⟩)
      · exact ⟨c.2, x, List.mem_cons_self, hx, hpositive, rfl⟩
      · exact ⟨p, y, List.mem_cons_of_mem _ hp, hy⟩
    · rintro ⟨p, y, hp, hy, hpositive, rfl⟩
      obtain rfl | hp := List.mem_cons.mp hp
      · rw [hx] at hy
        cases hy
        exact .inl ⟨hpositive, rfl, rfl⟩
      · exact .inr ⟨p, y, hp, hy, hpositive, rfl⟩

theorem exists_energy (h : (ofConstraints bits feed l).failure? = none) :
    ∀ c ∈ l, ∃ x, c.2.energy bits.find? feed = .ok x ∧ ¬ x < -tolerance := by
  induction l with
  | nil => exact fun c hc => nomatch hc
  | cons d rest ih =>
    obtain ⟨x, hx, hnegative, hrest, -⟩ := failure?_cons_eq_none h
    exact List.forall_mem_cons.mpr ⟨⟨x, hx, hnegative⟩, ih hrest⟩

theorem labels_broken_sublist (bits : Table String α) (feed : Feed α)
    (l : List (String × Polynomial α)) :
    ((ofConstraints bits feed l).broken.map Prod.fst).Sublist (l.map Prod.fst) := by
  induction l with
  | nil => exact .slnil
  | cons c rest ih =>
    rw [ofConstraints]
    split
    · exact List.nil_sublist _
    · split
      · exact List.nil_sublist _
      · simp only
        split
        · exact ih.cons_cons _
        · exact ih.cons _

theorem exists_energy_of_negativeConstraint {x : α}
    (h : (ofConstraints bits feed l).failure? = some (.negativeConstraint label x)) :
    ∃ p, (label, p) ∈ l ∧ p.energy bits.find? feed = .ok x ∧ x < -tolerance := by
  induction l with
  | nil => cases h
  | cons c rest ih =>
    rw [ofConstraints] at h
    split at h
    · cases h
    · next y hy =>
      split at h
      · next hnegative =>
        cases h
        exact ⟨c.2, List.mem_cons_self, hy, hnegative⟩
      · have hrest :
            (ofConstraints bits feed rest).failure? = some (.negativeConstraint label x) := by
          split at h
          · exact h
          · exact h
        obtain ⟨p, hp, hpx⟩ := ih hrest
        exact ⟨p, List.mem_cons_of_mem _ hp, hpx⟩

theorem exists_energy_eq_error {err : EvalError}
    (h : (ofConstraints bits feed l).failure? = some (.eval err)) :
    ∃ c ∈ l, c.2.energy bits.find? feed = .error err := by
  induction l with
  | nil => cases h
  | cons c rest ih =>
    rw [ofConstraints] at h
    split at h
    · next e he =>
      cases h
      exact ⟨c, List.mem_cons_self, he⟩
    · split at h
      · cases h
      · have hrest : (ofConstraints bits feed rest).failure? = some (.eval err) := by
          split at h
          · exact h
          · exact h
        obtain ⟨d, hd, hfail⟩ := ih hrest
        exact ⟨d, List.mem_cons_of_mem _ hd, hfail⟩

end Audit

namespace Model

open Audit (tolerance restrict)

variable {m : Model α} {domain : Domain} {s : Solution α}

theorem decode_eq_ok {d : DecodedSolution α} (h : m.decode domain s feed = .ok d) :
    ∃ bits, m.bits domain s = .ok bits ∧ (m.audit bits feed).result = .ok d.broken ∧
      m.bitEnergy bits feed = .ok d.energy := by
  obtain ⟨bits, hbits, h⟩ := bind_eq_ok h
  obtain ⟨broken, hbroken, h⟩ := bind_eq_ok h
  obtain ⟨energy, henergy, h⟩ := bind_eq_ok h
  cases h
  exact ⟨bits, hbits, hbroken, henergy⟩

/-- A constraint of a model that has passed the audit. -/
theorem find?_broken {broken : Table String (BrokenConstraint α)}
    (h : (m.audit bits feed).result = .ok broken) {p : Polynomial α}
    (hp : m.constraints.find? label = some p) :
    ∃ x, p.energy bits.find? feed = .ok x ∧ ¬ x < -tolerance ∧
      broken.find? label = if tolerance < x then some ⟨restrict bits p, x⟩ else none := by
  rw [Audit.result] at h
  split at h
  · cases h
  · next hnone =>
    cases h
    have hmem := Table.find?_eq_some_iff.mp hp
    obtain ⟨x, hx, hnegative⟩ := Audit.exists_energy hnone _ hmem
    refine ⟨x, hx, hnegative, Option.ext fun b => ?_⟩
    have hnodup := (Audit.labels_broken_sublist bits feed m.constraints.entries).nodup
      m.constraints.keys_nodup
    rw [audit, Table.find?_ofList_of_nodup hnodup, Audit.mem_broken_iff hnone]
    constructor
    · rintro ⟨q, y, hq, hy, hpositive, rfl⟩
      rw [← Table.find?_eq_some_iff, hp] at hq
      cases hq
      rw [hx] at hy
      cases hy
      exact if_pos hpositive
    · intro hb
      split at hb
      · next hpositive =>
        cases hb
        exact ⟨p, x, hmem, hx, hpositive, rfl⟩
      · cases hb

theorem exists_energy_of_negativeConstraint {x : α}
    (h : m.decode domain s feed = .error (.negativeConstraint label x)) :
    ∃ bits p, m.bits domain s = .ok bits ∧ m.constraints.find? label = some p ∧
      p.energy bits.find? feed = .ok x ∧ x < -tolerance := by
  obtain h | ⟨bits, hbits, h⟩ := bind_eq_error h
  · exact (Solution.isRejection_of_bits h).elim
  · obtain h | ⟨broken, -, h⟩ := bind_eq_error h
    · rw [Audit.result] at h
      split at h
      · next e hfailure =>
        cases h
        obtain ⟨p, hp, hx⟩ := Audit.exists_energy_of_negativeConstraint hfailure
        exact ⟨bits, p, hbits, Table.find?_eq_some_iff.mpr hp, hx⟩
      · cases h
    · obtain h | ⟨energy, -, h⟩ := bind_eq_error h
      · rw [bitEnergy] at h
        split at h <;> cases h
      · cases h

/-- Where the decoding of an accepted solution fails to evaluate something. -/
theorem decode_eq_error_eval {err : EvalError}
    (h : m.decode domain s feed = .error (.eval err)) :
    ∃ bits, m.bits domain s = .ok bits ∧
      ((∃ c ∈ m.constraints.entries, c.2.energy bits.find? feed = .error err) ∨
        m.toQubo feed = .error err) := by
  obtain h | ⟨bits, hbits, h⟩ := bind_eq_error h
  · exact (Solution.isRejection_of_bits h).elim
  · refine ⟨bits, hbits, ?_⟩
    obtain h | ⟨broken, -, h⟩ := bind_eq_error h
    · rw [Audit.result] at h
      split at h
      · next e hfailure =>
        cases h
        exact .inl (Audit.exists_energy_eq_error hfailure)
      · cases h
    · obtain h | ⟨energy, -, h⟩ := bind_eq_error h
      · rw [bitEnergy] at h
        split at h
        · cases h
        · next e he =>
          cases h
          exact .inr he
      · cases h

end Model

end PseudoBoolean
