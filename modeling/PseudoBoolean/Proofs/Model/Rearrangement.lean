import Mathlib
import PseudoBoolean.Proofs.Compilation
import PseudoBoolean.Proofs.Expr.Duplicates
import PseudoBoolean.Proofs.Expr.Rearrangement

/-! # Rearranged and equal expressions have the same model

Quadratization sees of an expression nothing but its polynomial, so expressions with the
same polynomial are compiled in the same steps to the same form. Rearranged expressions
are such, and equal ones in which no sum repeats a term. The constraints of the steps come
out the same under any labels, since they take precedence. Those of the expression do so
under distinct labels, as otherwise the last of equal labels is the one that counts.
-/

namespace PseudoBoolean.Expr

section
variable {α : Type} [Scalar α] {d e : Expr α}

theorem steps_eq_of_polynomial_eq (h : d.polynomial = e.polynomial) (o : Options α) :
    d.steps o = e.steps o := by
  rw [steps, steps, h]

theorem form_eq_of_polynomial_eq (h : d.polynomial = e.polynomial) (o : Options α) :
    (d.compile o).form = (e.compile o).form := by
  rw [compile_form, compile_form, quadratic, quadratic, h]

theorem find?_constraints_of_step {o : Options α} {s : Step} (hs : s ∈ e.steps o) :
    ∃ p, (auxiliaryConstraints o.strength (e.steps o)).find? s.constraintLabel = some p ∧
      (e.compile o).constraints.find? s.constraintLabel = some p := by
  have hkey : s.constraintLabel ∈ (auxiliaryConstraints o.strength (e.steps o)).keys := by
    rw [auxiliaryConstraints, Table.mem_keys_ofList, List.map_map]
    exact List.mem_map_of_mem hs
  obtain ⟨p, hp⟩ := Table.mem_keys_iff.mp hkey
  refine ⟨p, hp, ?_⟩
  rw [compile_constraints, Table.find?_extend, hp]
  rfl

theorem find?_constraints_of_polynomial_eq (h : d.polynomial = e.polynomial) {o : Options α}
    {s : Step} (hs : s ∈ d.steps o) :
    ∃ p, (d.compile o).constraints.find? s.constraintLabel = some p ∧
      (e.compile o).constraints.find? s.constraintLabel = some p := by
  obtain ⟨p, hp, hd⟩ := find?_constraints_of_step hs
  rw [steps_eq_of_polynomial_eq h] at hs hp
  obtain ⟨q, hq, he⟩ := find?_constraints_of_step hs
  cases hp.symm.trans hq
  exact ⟨p, hd, he⟩

end

variable {d e : Expr Rat}

/-- Expansion and compilation do not depend on the arrangement of an expression. -/
theorem compile_of_rearranged (o : Options Rat) (h : Rearranged d e) :
    let m := d.compile o
    let n := e.compile o
    let steps := (d.compilation o).steps
    (d.expand o.threshold).1 = (e.expand o.threshold).1 ∧
    m.form = n.form ∧ m.order = n.order ∧ steps = (e.compilation o).steps ∧
    (∀ s ∈ steps, ∃ p, m.constraints.find? s.constraintLabel = some p ∧
      n.constraints.find? s.constraintLabel = some p) ∧
    ((d.requirements.map Prod.fst).Nodup →
      (d.expand o.threshold).2 = (e.expand o.threshold).2 ∧ m.constraints = n.constraints) := by
  intro m n steps
  have hform : m.form = n.form := form_eq_of_polynomial_eq h.polynomial_eq o
  have hsteps : steps = d.steps o := compilation_steps o d
  refine ⟨?_, hform, congrArg QuadraticForm.diagonal hform, ?_, fun s hs => ?_, fun hlabels => ?_⟩
  · rw [expand_fst, expand_fst, h.polynomial_eq]
  · rw [hsteps, steps_eq_of_polynomial_eq h.polynomial_eq, compilation_steps]
  · rw [hsteps] at hs
    exact find?_constraints_of_polynomial_eq h.polynomial_eq hs
  · have hnamed := h.ofList_namedPolynomials_eq hlabels
    constructor
    · rw [expand_eq, expand_eq, hnamed]
    · rw [compile_constraints, compile_constraints, hnamed,
        steps_eq_of_polynomial_eq h.polynomial_eq]

/-- A limit on a sum beside a cubic term, as it may be written. -/
def limitedCubic : Expr Rat :=
  let x label := var .binary (.ofLabel 0 label)
  sum [product (x "a") (product (x "b") (x "c")),
    sum [constraint "limit" (sum [x "a", x "b"]), placeholder "w"]]

/-- The parts of `limitedCubic` in another arrangement. -/
def cubicLimited : Expr Rat :=
  let x label := var .binary (.ofLabel 0 label)
  sum [placeholder "w", constraint "limit" (sum [x "b", x "a"]),
    product (product (x "c") (x "b")) (x "a")]

theorem rearranged_limitedCubic : Rearranged limitedCubic cubicLimited := by
  apply Rearranged.trans (.flatten [_] [_, _] [])
  apply Rearranged.trans (.permute (List.reverse_perm _).symm)
  apply Rearranged.trans (.term [_] [_] (.constraint "limit" (.permute (.swap _ _ _))))
  exact .term [_, _] [] (.trans (.swap _ _) (.product (.swap _ _) (.refl _)))

theorem compile_limitedCubic :
    let m := limitedCubic.compile .standard
    let n := cubicLimited.compile .standard
    Rearranged limitedCubic cubicLimited ∧ (limitedCubic.requirements.map Prod.fst).Nodup ∧
      m.form = n.form ∧ m.order = n.order ∧ m.constraints = n.constraints := by
  obtain ⟨-, hform, horder, -, -, hnamed⟩ :=
    compile_of_rearranged .standard rearranged_limitedCubic
  have hlabels : (limitedCubic.requirements.map Prod.fst).Nodup := by decide
  exact ⟨rearranged_limitedCubic, hlabels, hform, horder, (hnamed hlabels).2⟩

/-! ## Equal expressions -/

/-- Equal expressions without duplicates have values at the same bits and feeds, and the
same ones. They have the same polynomial, and are compiled to the same form with the same
constraints of the steps. -/
theorem compile_of_beq {a b : Expr Rat} (ha : a.DuplicateFree) (hb : b.DuplicateFree)
    (h : (a == b) = true) :
    (∀ bits feed, (∃ v, a.eval bits feed = .ok v ∧ b.eval bits feed = .ok v) ∨
      (∃ err, a.eval bits feed = .error err) ∧ ∃ err, b.eval bits feed = .error err) ∧
    (∀ threshold, (a.expand threshold).1 = (b.expand threshold).1) ∧
    ∀ o, let m := a.compile o
      let n := b.compile o
      let steps := (a.compilation o).steps
      m.form = n.form ∧ m.order = n.order ∧ steps = (b.compilation o).steps ∧
      ∀ s ∈ steps, ∃ p, m.constraints.find? s.constraintLabel = some p ∧
        n.constraints.find? s.constraintLabel = some p := by
  obtain ⟨heval, hpolynomial⟩ := agrees_of_beq ha hb h
  refine ⟨fun bits feed => ?_, fun threshold => ?_, fun o => ?_⟩
  · by_cases hvalue : ∃ v, a.eval bits feed = .ok v
    · obtain ⟨v, hv⟩ := hvalue
      exact .inl ⟨v, hv, (heval bits feed v).mp hv⟩
    · refine .inr ⟨exists_eq_error_iff.mpr hvalue, exists_eq_error_iff.mpr ?_⟩
      rintro ⟨v, hv⟩
      exact hvalue ⟨v, (heval bits feed v).mpr hv⟩
  · rw [expand_fst, expand_fst, hpolynomial]
  · have hform := form_eq_of_polynomial_eq hpolynomial o
    refine ⟨hform, congrArg QuadraticForm.diagonal hform, ?_, fun s hs => ?_⟩
    · rw [compilation_steps, compilation_steps, steps_eq_of_polynomial_eq hpolynomial]
    · rw [compilation_steps] at hs
      exact find?_constraints_of_polynomial_eq hpolynomial hs

/-- A cubic term and a weighted limit in another order than `cubicLimits`. -/
def limitedProducts : Expr Rat :=
  let x label := var .binary (.ofLabel 0 label)
  sum [product (product (x "a") (x "b")) (x "c"),
    constraint "limit" (sum [x "a", product (placeholder "w") (x "b")])]

/-- The same as `limitedProducts`, up to the families of its variables. -/
def cubicLimits : Expr Rat :=
  let y label := var .binary (.ofLabel 1 label)
  sum [constraint "limit" (sum [product (y "b") (placeholder "w"), y "a"]),
    product (y "c") (product (y "b") (y "a"))]

theorem compile_limitedProducts :
    let feed : Feed Rat := Table.single "w" 3
    let bits : String → Option Bool := fun _ => some true
    limitedProducts.DuplicateFree ∧ cubicLimits.DuplicateFree ∧
      (limitedProducts == cubicLimits) = true ∧
      cubicLimits.eval bits feed = .ok 5 ∧ (∃ err, cubicLimits.eval bits ∅ = .error err) ∧
      (limitedProducts.compile .standard).form = (cubicLimits.compile .standard).form := by
  intro feed bits
  have hleft : limitedProducts.DuplicateFree := by decide +kernel
  have hright : cubicLimits.DuplicateFree := by decide +kernel
  have hequal : (limitedProducts == cubicLimits) = true := by decide +kernel
  obtain ⟨heval, -, hcompile⟩ := compile_of_beq hleft hright hequal
  refine ⟨hleft, hright, hequal, ?_, ?_, (hcompile .standard).1⟩
  · obtain ⟨v, hv, hv'⟩ | ⟨⟨err, herr⟩, -⟩ := heval bits feed
    · cases hv.symm.trans (show _ = .ok 5 by decide +kernel)
      exact hv'
    · cases herr.symm.trans (show _ = .ok 5 by decide +kernel)
  · obtain ⟨v, hv, -⟩ | ⟨-, herr⟩ := heval bits ∅
    · cases hv.symm.trans (show _ = .error (.missingPlaceholder "w") by decide +kernel)
    · exact herr

/-- A repeated term is not seen by equality, but counts in a value. -/
example : let x : Expr Rat := var .binary (.ofLabel 0 "x")
    (sum [x, x] == sum [x]) = true ∧ (sum [x, x]).eval (fun _ => some true) ∅ = .ok 2 ∧
      (sum [x]).eval (fun _ => some true) ∅ = .ok 1 := by decide +kernel

end PseudoBoolean.Expr
