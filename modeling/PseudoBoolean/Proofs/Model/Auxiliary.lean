import Mathlib
import PseudoBoolean.Proofs.Expr.Support
import PseudoBoolean.Proofs.Model.Audit
import PseudoBoolean.Proofs.Model.Bits
import PseudoBoolean.Proofs.Model.Feed
import PseudoBoolean.Proofs.Model.Minimum
import PseudoBoolean.Proofs.Model.Variables
import PseudoBoolean.Proofs.Quadratization.Shape

/-! # The verdict on auxiliary variables

A solution may give an auxiliary variable any bit. The audit lists the constraint of a
step exactly if the bit is not the product of the bits of the factors, and never takes it
for negative. If no constraint of a step is listed, the energy of the solution is the
value of the expression.
-/

namespace PseudoBoolean

open PowerProduct (wordValue)

variable {feed : Feed Rat} {s x : Rat}

theorem Step.energy_penalty {t : Step} {strength : Weight Rat} {values : String → Option Rat}
    {z : String → Bool} (hstrength : strength.eval feed = .ok s)
    (hvalues : ∀ l, l = t.first ∨ l = t.second ∨ l = t.product → values l = some (bit (z l)))
    (h : (t.penalty strength).energy values feed = .ok x) : x = s * t.gadget z := by
  obtain ⟨-, hcovered⟩ := Polynomial.exists_value_and_covered_of_energy h
  have hlabels : ∀ l ∈ (t.penalty strength).labels, values l = some (bit (z l)) := by
    intro l hl
    obtain ⟨m, hm, hlm⟩ := Polynomial.mem_labels.mp hl
    exact hvalues l (Polynomial.mem_labels_penalty hm hlm)
  rw [Polynomial.energy_of_bits hlabels hcovered, value_penalty PowerProduct.wordValue_one,
    Weight.value_of_eval hstrength] at h
  exact (Except.ok.inj h).symm

namespace Expr

variable {o : Options Rat} {e : Expr Rat} {t : Step} {bits : Table String Rat} {z : String → Bool}

theorem find?_constraintLabel (hstar : ∀ l ∈ e.labels, ¬ '*' ∈ l.toList) (ht : t ∈ e.steps o) :
    (e.compile o).constraints.find? t.constraintLabel = some (t.penalty o.strength) := by
  rw [compile_constraints, Table.find?_extend, (stage_steps hstar).auxiliaryConstraints_find? ht]
  rfl

/-- A feed that gives a model an energy covers the expression. -/
theorem placeholders_covered_of_bitEnergy (hsums : e.SumsNonempty)
    (h : (e.compile o).bitEnergy bits feed = .ok x) : ∀ p ∈ e.placeholders, p ∈ feed.keys := by
  have hform := Qubo.allWeights_covered_iff.mp (Model.covered_of_bitEnergy h)
  intro p hp
  apply hform
  rw [mem_placeholders_form hsums, mem_requiredPlaceholders]
  exact .inl hp

theorem bitEnergy_eq_value (h : (e.compile o).bitEnergy bits feed = .ok x)
    (hbits : ∀ l ∈ (e.compile o).order, bits.find? l = some (bit (z l))) :
    x = (e.quadratic o).value z (wordValue feed) := by
  rw [Model.bitEnergy_eq (Model.covered_of_bitEnergy h) mem_order_of_mem_form hbits, compile_form,
    Qubo.value_ofPolynomial PowerProduct.wordValue_one degree_le_of_mem_quadratic] at h
  exact (Except.ok.inj h).symm

/-- The energy of a solution whose auxiliary variables are the products of their factors. -/
theorem eval_eq_bitEnergy (hsums : e.SumsNonempty)
    (hfits : e.polynomial.AllWeights Weight.FitsWord)
    (h : (e.compile o).bitEnergy bits feed = .ok x)
    (hbits : ∀ l ∈ (e.compile o).order, bits.find? l = some (bit (z l)))
    (hz : ∀ t ∈ e.steps o, t.Holds z) {values : String → Option Bool}
    (hvalues : ∀ l ∈ e.labels, values l = some (z l)) : e.eval values feed = .ok x := by
  rw [eval_eq_wordValue hfits hvalues (placeholders_covered_of_bitEnergy hsums h),
    bitEnergy_eq_value h hbits, quadratic_of_holds hz]

section
variable (hstar : ∀ l ∈ e.labels, ¬ '*' ∈ l.toList) (hstrength : o.strength.eval feed = .ok s)
  (hs : Audit.tolerance < s) (hbits : ∀ l ∈ (e.compile o).order, bits.find? l = some (bit (z l)))

include hstar hstrength hs hbits in
theorem find?_broken_constraintLabel {broken : Table String (BrokenConstraint Rat)}
    (h : ((e.compile o).audit bits feed).result = .ok broken) (ht : t ∈ e.steps o) :
    (t.Holds z ∧ broken.find? t.constraintLabel = none) ∨
      (¬ t.Holds z ∧ ∃ c, broken.find? t.constraintLabel = some c ∧
        (c.penalty = s ∨ c.penalty = 3 * s)) := by
  obtain ⟨x, hx, -, hfind⟩ := Model.find?_broken h (find?_constraintLabel hstar ht)
  have hvalue := Step.energy_penalty hstrength (fun l hl => hbits l (mem_order_of_step ht hl)) hx
  have hpos := Audit.tolerance_pos
  by_cases hz : t.Holds z
  · left
    rw [Step.gadget_of_holds hz, mul_zero] at hvalue
    rw [hfind, hvalue, if_neg hpos.not_gt]
    exact ⟨hz, rfl⟩
  · right
    have hpenalty : x = s ∨ x = 3 * s := by
      rw [hvalue]
      obtain hone | hthree := Step.gadget_of_not_holds hz
      · exact .inl (by rw [hone, mul_one])
      · exact .inr (by rw [hthree, mul_comm])
    have hpositive : Audit.tolerance < x := by
      obtain hone | hthree := hpenalty <;> linarith
    exact ⟨hz, _, hfind.trans (if_pos hpositive), hpenalty⟩

include hstar hstrength hs hbits in
theorem not_negative_constraintLabel (ht : t ∈ e.steps o) {p : Polynomial Rat}
    (hp : (e.compile o).constraints.find? t.constraintLabel = some p)
    (hx : p.energy bits.find? feed = .ok x) : ¬ x < -Audit.tolerance := by
  rw [find?_constraintLabel hstar ht] at hp
  cases hp
  have hvalue := Step.energy_penalty hstrength (fun l hl => hbits l (mem_order_of_step ht hl)) hx
  have hpos := Audit.tolerance_pos
  have hnonneg : 0 ≤ s * t.gadget z := mul_nonneg (hpos.trans hs).le t.gadget_nonneg
  linarith

end

/-- For a strength above the tolerance, a decoded solution tells for every step whether the
auxiliary variable has the wrong bit, and costs the strength or three times that where it
has. Without such a step, its energy is the value of the expression at its bits. -/
theorem decode_auxiliary (o : Options Rat) (e : Expr Rat) (feed : Feed Rat) {s : Rat}
    (hstar : ∀ l ∈ e.labels, ¬ '*' ∈ l.toList) (hsums : e.SumsNonempty)
    (hfits : (e.expand o.threshold).1.AllWeights Weight.FitsWord)
    (hstrength : o.strength.eval feed = .ok s) (hs : Audit.tolerance < s)
    (domain : Domain) (solution : Solution Rat) :
    let m := e.compile o
    let steps := (e.compilation o).steps
    (∀ d, m.decode domain solution feed = .ok d → ∃ bits, m.bits domain solution = .ok bits ∧
      (∀ t ∈ steps, ∃ a b p, bits.find? t.first = some a ∧ bits.find? t.second = some b ∧
        bits.find? t.product = some p ∧ (t.constraintLabel ∈ d.broken.keys ↔ p ≠ a * b) ∧
        ∀ c, d.broken.find? t.constraintLabel = some c → c.penalty = s ∨ c.penalty = 3 * s) ∧
      ((∀ t ∈ steps, ¬ t.constraintLabel ∈ d.broken.keys) →
        e.eval (fun l => if l ∈ e.labels then bitAt bits l else none) feed = .ok d.energy)) ∧
    ∀ label x, m.decode domain solution feed = .error (.negativeConstraint label x) →
      ∀ t ∈ steps, t.constraintLabel ≠ label := by
  intro m steps
  have hsteps : steps = e.steps o := compilation_steps o e
  rw [expand_fst] at hfits
  constructor
  · intro d hd
    obtain ⟨bits, hbits, hbroken, henergy⟩ := Model.decode_eq_ok hd
    obtain ⟨z, hz⟩ := Model.exists_assignment hbits
    have hfind : ∀ l ∈ m.order, bits.find? l = some (bit (z l)) := fun l hl => (hz l hl).2
    have hverdict : ∀ t ∈ e.steps o, _ := fun t ht =>
      find?_broken_constraintLabel hstar hstrength hs hfind hbroken ht
    refine ⟨bits, hbits, ?_, ?_⟩
    · intro t ht
      rw [hsteps] at ht
      refine ⟨_, _, _, hfind _ (mem_order_of_step ht (.inl rfl)),
        hfind _ (mem_order_of_step ht (.inr (.inl rfl))),
        hfind _ (mem_order_of_step ht (.inr (.inr rfl))), ?_⟩
      rw [Table.mem_keys_iff_isSome, Ne, ← Step.holds_iff_bit]
      obtain ⟨hholds, hnone⟩ | ⟨hwrong, c, hsome, hpenalty⟩ := hverdict t ht
      · simp [hnone, hholds]
      · simp [hsome, hwrong, hpenalty]
    · intro hnone
      apply eval_eq_bitEnergy hsums hfits henergy hfind
      · intro t ht
        obtain ⟨hholds, -⟩ | ⟨-, c, hsome, -⟩ := hverdict t ht
        · exact hholds
        · exact absurd (Table.mem_keys_iff.mpr ⟨c, hsome⟩) (hnone t (hsteps ▸ ht))
      · intro l hl
        rw [if_pos hl]
        exact (hz l (mem_order_of_mem_labels hsums hl)).1
  · rintro label x hd t ht rfl
    obtain ⟨bits, p, hbits, hp, hx, hnegative⟩ := Model.exists_energy_of_negativeConstraint hd
    obtain ⟨z, hz⟩ := Model.exists_assignment hbits
    exact not_negative_constraintLabel hstar hstrength hs (fun l hl => (hz l hl).2)
      (hsteps ▸ ht) hp hx hnegative

/-- Bits for `weightedQuartic` and the auxiliary variables of its steps. -/
def quarticBits (a b ab abc : Rat) : Table String Rat :=
  Table.ofList [("a", a), ("a*b", ab), ("a*b*c", abc), ("b", b), ("c", 1), ("d", 1)]

/-- A wrong product is reported for its own step, and a further product with the wrong one as a
factor only if it does not go with that. -/
theorem decode_auxiliary_weightedQuartic :
    let feed : Feed Rat := Table.single "w" 3
    let m := weightedQuartic.compile .standard
    (∃ d, m.decode .binary (.labels (quarticBits 0 0 1 1)) feed = .ok d ∧
      "AND(a,b)=a*b" ∈ d.broken.keys ∧ ¬ "AND(a*b,c)=a*b*c" ∈ d.broken.keys) ∧
    (∃ d, m.decode .binary (.labels (quarticBits 1 1 1 0)) feed = .ok d ∧
      ¬ "AND(a,b)=a*b" ∈ d.broken.keys ∧ "AND(a*b,c)=a*b*c" ∈ d.broken.keys ∧
      ∀ c, d.broken.find? "AND(a*b,c)=a*b*c" = some c → c.penalty = 5 ∨ c.penalty = 3 * 5) ∧
    ∃ d, m.decode .binary (.labels (quarticBits 1 1 1 1)) feed = .ok d ∧
      weightedQuartic.eval
        (fun l => if l ∈ weightedQuartic.labels then bitAt (quarticBits 1 1 1 1) l else none) feed
        = .ok d.energy := by
  obtain ⟨hsteps, hm⟩ := compile_weightedQuartic
  intro feed
  have hverdict := decode_auxiliary .standard weightedQuartic feed (s := 5) (by decide) (by decide)
    (by decide +kernel) (by rfl) (by norm_num [Audit.tolerance]) .binary
  rw [hm, compilation_steps, hsteps] at hverdict
  rw [hm]
  have hreport : ∀ a b ab abc,
      quarticModel.bits .binary (.labels (quarticBits a b ab abc)) = .ok (quarticBits a b ab abc) →
      (quarticModel.decode .binary (.labels (quarticBits a b ab abc)) feed).toOption.isSome →
      ∃ d, quarticModel.decode .binary (.labels (quarticBits a b ab abc)) feed = .ok d ∧
        ("AND(a,b)=a*b" ∈ d.broken.keys ↔ ab ≠ a * b) ∧
        ("AND(a*b,c)=a*b*c" ∈ d.broken.keys ↔ abc ≠ ab * 1) ∧
        (∀ c, d.broken.find? "AND(a*b,c)=a*b*c" = some c → c.penalty = 5 ∨ c.penalty = 3 * 5) ∧
        (ab = a * b → abc = ab * 1 → weightedQuartic.eval
          (fun l => if l ∈ weightedQuartic.labels then bitAt (quarticBits a b ab abc) l else none)
          feed = .ok d.energy) := by
    intro a b ab abc hbits hd
    obtain ⟨d, hd⟩ := exists_eq_ok hd
    obtain ⟨bits, hbits', hboth, henergy⟩ := (hverdict (.labels (quarticBits a b ab abc))).1 d hd
    cases hbits'.symm.trans hbits
    rw [List.forall_mem_cons, List.forall_mem_singleton] at hboth henergy
    obtain ⟨⟨x, y, p, hx, hy, hp, hpair, -⟩, x', y', p', hx', hy', hp', hnested, hpenalty⟩ := hboth
    cases hx.symm.trans (show _ = some a by cbv)
    cases hy.symm.trans (show _ = some b by cbv)
    cases hp.symm.trans (show _ = some ab by cbv)
    cases hx'.symm.trans (show _ = some ab by cbv)
    cases hy'.symm.trans (show _ = some 1 by cbv)
    cases hp'.symm.trans (show _ = some abc by cbv)
    exact ⟨d, hd, hpair, hnested, hpenalty, fun hab habc =>
      henergy ⟨fun h => hpair.mp h hab, fun h => hnested.mp h habc⟩⟩
  refine ⟨?_, ?_, ?_⟩
  · obtain ⟨d, hd, hpair, hnested, -⟩ := hreport 0 0 1 1 (by rfl) (by decide +kernel)
    exact ⟨d, hd, hpair.mpr (by norm_num), hnested.not.mpr (by norm_num)⟩
  · obtain ⟨d, hd, hpair, hnested, hpenalty, -⟩ := hreport 1 1 1 0 (by rfl) (by decide +kernel)
    exact ⟨d, hd, hpair.not.mpr (by norm_num), hnested.mpr (by norm_num), hpenalty⟩
  · obtain ⟨d, hd, -, -, -, henergy⟩ := hreport 1 1 1 1 (by rfl) (by decide +kernel)
    exact ⟨d, hd, henergy (by norm_num) (by norm_num)⟩

end Expr

end PseudoBoolean
