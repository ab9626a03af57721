import Mathlib
import PseudoBoolean.Proofs.Gadget
import PseudoBoolean.Proofs.Model.Named

/-! # Relations in a model

A relation that stands somewhere in an expression is a constraint of the model under its
label. Since its polynomial is worth what the relation is worth, it is not negative at
any solution at which the operands are worth 0 or 1, so no audit takes it for a wrong
penalty.
-/

namespace PseudoBoolean

open Gadget

namespace Expr

variable {o : Options Rat} {e n body : Expr Rat} {label : String} {feed : Feed Rat}
  {bits : Table String Rat}

/-- The energy that an audit finds is the value under any assignment with the bits of the
solution, where there is one. -/
theorem eval_eq_energy (hfits : body.polynomial.AllWeights Weight.FitsWord) {z : String → Bool}
    (hz : ∀ l ∈ bits.keys, bits.find? l = some (bit (z l))) {v w : Rat}
    (hv : body.eval (fun l => some (z l)) feed = .ok v)
    (hw : body.polynomial.energy bits.find? feed = .ok w) : v = w := by
  obtain ⟨hvalues, hcovered⟩ := Polynomial.exists_value_and_covered_of_energy hw
  have hlabels : ∀ l ∈ body.polynomial.labels, bits.find? l = some (bit (z l)) :=
    fun l hl => hz l (Table.mem_keys_iff.mpr (hvalues l hl))
  rw [Polynomial.energy_of_bits hlabels hcovered] at hw
  rw [eval_eq_wordValue hfits (fun _ _ => rfl) (supplied_of_eval hv).placeholders] at hv
  exact Except.ok.inj (hv.symm.trans hw)

/-- A label that stands for one required expression only, copies of it included. -/
theorem find?_expand_of_unique (hbody : (label, body) ∈ e.requirements)
    (hunique : ∀ c ∈ e.requirements, c.1 = label → c.2 = body) (threshold : Nat) :
    (e.expand threshold).2.find? label = some body.polynomial := by
  have hkey : label ∈ (Table.ofList e.namedPolynomials).keys := by
    rw [Table.mem_keys_ofList, map_fst_namedPolynomials]
    exact List.mem_map_of_mem hbody
  obtain ⟨p, hp⟩ := Table.mem_keys_iff.mp hkey
  have hmem := Table.mem_of_find?_ofList hp
  rw [namedPolynomials_eq] at hmem
  obtain ⟨c, hc, heq⟩ := List.mem_map.mp hmem
  obtain ⟨rfl, rfl⟩ := Prod.mk.inj heq
  rw [expand_eq, hp, hunique c hc rfl]

theorem decode_ne_negativeConstraint (hfits : body.polynomial.AllWeights Weight.FitsWord)
    (hbody : (e.compile o).constraints.find? label = some body.polynomial) {domain : Domain}
    {solution : Solution Rat} (hbits : (e.compile o).bits domain solution = .ok bits)
    (hnonneg : ∀ z : String → Bool, (∀ l ∈ bits.keys, bitAt bits l = some (z l)) →
      ∃ v, body.eval (fun l => some (z l)) feed = .ok v ∧ 0 ≤ v) (w : Rat) :
    (e.compile o).decode domain solution feed ≠ .error (.negativeConstraint label w) := by
  intro h
  obtain ⟨found, p, hfound, hp, hw, hnegative⟩ := Model.exists_energy_of_negativeConstraint h
  cases hbits.symm.trans hfound
  cases hbody.symm.trans hp
  obtain ⟨z, hz⟩ := (Solution.bitsOf hbits).exists_assignment
  obtain ⟨v, hv, hle⟩ := hnonneg z fun l hl => (hz l hl).1
  rw [← eval_eq_energy hfits (fun l hl => (hz l hl).2) hv hw] at hnegative
  have hpos := Audit.tolerance_pos
  linarith

end Expr

namespace Gadget

variable {o : Options Rat} {e n : Expr Rat} {operands : List (Expr Rat)} {label : String}

theorem IsRelation.find?_constraints (h : IsRelation label n operands) (hn : n ∈ e.nodes)
    (hunique : ∀ c ∈ e.requirements, c.1 = label → n.requirement? = some c)
    (hlabel : ∀ t ∈ e.steps o, t.constraintLabel ≠ label) :
    (e.compile o).constraints.find? label = some n.polynomial := by
  obtain ⟨body, rfl⟩ := h.exists_body
  have hbody : (label, body) ∈ e.requirements := List.mem_filterMap.mpr ⟨_, hn, rfl⟩
  rw [Expr.find?_named hlabel, Expr.polynomial]
  apply Expr.find?_expand_of_unique hbody
  intro c hc hlabelc
  cases hunique c hc hlabelc
  rfl

theorem IsRelation.decode_ne_negativeConstraint (h : IsRelation label n operands)
    (hconstraint : (e.compile o).constraints.find? label = some n.polynomial)
    (hfits : n.polynomial.AllWeights Weight.FitsWord) {domain : Domain}
    {solution : Solution Rat} {bits : Table String Rat} {feed : Feed Rat}
    (hbits : (e.compile o).bits domain solution = .ok bits)
    (hoperands : ∀ a ∈ operands, ∃ x, a.eval (bitAt bits) feed = .ok (bit x)) (w : Rat) :
    (e.compile o).decode domain solution feed ≠ .error (.negativeConstraint label w) := by
  apply Expr.decode_ne_negativeConstraint hfits hconstraint hbits
  intro z hz
  apply h.exists_value
  intro a ha
  obtain ⟨x, hx⟩ := hoperands a ha
  refine ⟨x, Expr.eval_of_agree hx fun l hl => ?_⟩
  -- An operand that has a value reads labels with a bit only.
  obtain ⟨b, hb⟩ := (Expr.supplied_of_eval hx).labels l hl
  obtain ⟨y, hy, -⟩ := Option.map_eq_some_iff.mp hb
  exact (hz l (Table.mem_keys_iff.mpr ⟨y, hy⟩)).symm

/-- A relation is an exact penalty at all operands that are worth 0 or 1. One with an
auxiliary variable that its operands do not read is never negative, and exact at the
better bit of this variable. Where no step and no requirement but its copies has its
label, the relation is the constraint of this label in the model of any expression around
it, and decoding does not report it as negative. -/
theorem relations_exact (label : String) :
    (∀ (a b : Expr Rat) (bits : String → Option Bool) (feed : Feed Rat) (x y : Bool),
      a.eval bits feed = .ok (bit x) → b.eval bits feed = .ok (bit y) →
      (∃ v, (requireNot label a b).eval bits feed = .ok v ∧ IsPenalty (x != y) v) ∧
      ∀ (c : Expr Rat) (z : Bool), c.eval bits feed = .ok (bit z) →
        (∃ v, (requireAnd label a b c).eval bits feed = .ok v ∧ IsPenalty (z == (x && y)) v) ∧
        (∃ v, (requireOr label a b c).eval bits feed = .ok v ∧ IsPenalty (z == (x || y)) v) ∧
        ∀ supply, (∀ e ∈ [a, b, c], xorLabel label ∉ e.labels) →
          let value := fun w => ((requireXor label a b c).run supply).1.eval
            (Function.update bits (xorLabel label) (some w)) feed
          ∃ u v, value false = .ok u ∧ value true = .ok v ∧ 0 ≤ u ∧ 0 ≤ v ∧
            IsPenalty (z == (x ^^ y)) (min u v)) ∧
    ∀ (o : Options Rat) (e n : Expr Rat) (operands : List (Expr Rat)),
      IsRelation label n operands → n ∈ e.nodes →
      (∀ c ∈ e.requirements, c.1 = label → n.requirement? = some c) →
      (∀ t ∈ (e.compilation o).steps, t.constraintLabel ≠ label) →
      let m := e.compile o
      m.constraints.find? label = some (n.expand o.threshold).1 ∧
      ∀ (domain : Domain) (solution : Solution Rat) (bits : Table String Rat) (feed : Feed Rat),
        (n.expand o.threshold).1.AllWeights Weight.FitsWord →
        m.bits domain solution = .ok bits →
        (∀ a ∈ operands, ∃ x, a.eval (bitAt bits) feed = .ok (bit x)) →
        ∀ v, m.decode domain solution feed ≠ .error (.negativeConstraint label v) := by
  constructor
  · intro a b bits feed x y ha hb
    refine ⟨eval_requireNot ha hb, fun c z hc => ⟨eval_requireAnd ha hb hc,
      eval_requireOr ha hb hc, fun supply hfresh => ?_⟩⟩
    have hvalue := eval_requireXor ha hb hc supply hfresh
    exact ⟨_, _, hvalue false, hvalue true, xorValue_nonneg _ _ _ _, xorValue_nonneg _ _ _ _,
      isPenalty_xor x y z⟩
  · intro o e n operands h hn hunique hlabel m
    rw [Expr.compilation_steps] at hlabel
    rw [Expr.expand_fst]
    have hconstraint := h.find?_constraints hn hunique hlabel
    exact ⟨hconstraint, fun domain solution bits feed hfits hbits hoperands =>
      h.decode_ne_negativeConstraint hconstraint hfits hbits hoperands⟩

/-- Whether exactly one of "a" and a negated "b" is set, beside another term. -/
def parity : Expr Rat :=
  ((requireXor "parity" (.var .binary (.ofLabel 0 "a")) (not (.var .binary (.ofLabel 1 "b")))
    1).run 2).1

def weighedParity : Expr Rat := .sum [.product (.num 3) (.named "odd" parity), 1]

def weighedParityModel : Model Rat where
  form := Qubo.ofPolynomial weighedParity.polynomial
  layout := weighedParity.layout
  constraints := Table.ofList weighedParity.namedPolynomials

theorem relations_exact_parity :
    let bits : String → Option Bool := (Table.ofList [("a", true), ("b", true)]).find?
    let solution : Table String Rat := Table.ofList [("a", 0), ("aux_parity", 1), ("b", 1)]
    let m := weighedParity.compile .standard
    (∃ u v, parity.eval (Function.update bits "aux_parity" (some false)) ∅ = .ok u ∧
      parity.eval (Function.update bits "aux_parity" (some true)) ∅ = .ok v ∧ min u v = 0) ∧
    m.constraints.find? "parity" = some (parity.expand 64).1 ∧
    ∀ v, m.decode .binary (.labels solution) ∅ ≠ .error (.negativeConstraint "parity" v) := by
  intro bits solution m
  obtain ⟨hsteps, hm⟩ :
      weighedParity.steps .standard = [] ∧ weighedParity.compile .standard = weighedParityModel :=
    Expr.compile_of_quadratic (by cbv)
  obtain ⟨hpenalty, hdecode⟩ := relations_exact "parity"
  obtain ⟨-, hthree⟩ := hpenalty (.var .binary (.ofLabel 0 "a"))
    (not (.var .binary (.ofLabel 1 "b"))) bits ∅ true false rfl (by decide +kernel)
  obtain ⟨-, -, hxor⟩ := hthree 1 true rfl
  obtain ⟨u, v, hu, hv, -, -, hmin⟩ := hxor 2 (by decide)
  have hnode : parity ∈ weighedParity.nodes :=
    Expr.term_nodes_subset List.mem_cons_self
      (Expr.right_nodes_subset _ _ (List.mem_append_left _ parity.self_mem_nodes))
  have hunique : ∀ c ∈ weighedParity.requirements, parity.requirement? = some c := by
    intro c hc
    cases List.mem_singleton.mp hc
    rfl
  have hlabel : ∀ t ∈ (weighedParity.compilation .standard).steps,
      t.constraintLabel ≠ "parity" := by
    rw [Expr.compilation_steps, hsteps]
    exact fun t ht => absurd ht List.not_mem_nil
  obtain ⟨hconstraint, hnever⟩ := hdecode .standard weighedParity parity _ (.xor 2 _ _ _) hnode
    (fun c hc _ => hunique c hc) hlabel
  refine ⟨⟨u, v, hu, hv, hmin⟩, hconstraint, ?_⟩
  exact hnever .binary (.labels solution) solution ∅ (by decide +kernel)
    (by rw [hm]; rfl) (by decide +kernel)

end Gadget

end PseudoBoolean
