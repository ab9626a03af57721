import Mathlib
import PseudoBoolean.Proofs.Quadratization.Stage

/-! # The shape of a quadratization

For a polynomial whose labels are free of stars, a quadratization replaces every monomial
by a quadratic one with the same parts and adds one penalty for each step. No pair is
reduced twice, so the penalties recorded as constraints are those in the result.
-/

namespace PseudoBoolean

namespace Step

variable {s t : Step}

theorem Proper.length_product (hs : s.Proper) :
    s.product.toList.length = s.first.toList.length + s.second.toList.length + 1 := by
  rw [hs.product, length_auxiliaryLabel]

/-- The label of a constraint ends in that of the product, whose length is known from
that of the whole. -/
theorem Proper.product_eq_of_constraintLabel (hs : s.Proper) (ht : t.Proper)
    (h : s.constraintLabel = t.constraintLabel) : s.product = t.product := by
  have hlist : ∀ u : Step, u.constraintLabel.toList = ("AND(".toList ++ u.first.toList ++ ",".toList
      ++ u.second.toList ++ ")=".toList) ++ u.product.toList := by
    intro u
    rw [constraintLabel]
    simp only [String.toList_append]
  have hlength : ∀ u : Step, u.Proper →
      u.constraintLabel.toList.length = 2 * u.product.toList.length + 6 := by
    intro u hu
    have hproduct := hu.length_product
    rw [hlist]
    simp only [List.length_append]
    have hand : "AND(".toList.length = 4 := by decide
    have hcomma : ",".toList.length = 1 := by decide
    have hclose : ")=".toList.length = 2 := by decide
    omega
  have hs' := hlength s hs
  have ht' := hlength t ht
  rw [h] at hs'
  have hlists := hlist s
  rw [h, hlist t] at hlists
  exact String.toList_inj.mp (List.append_inj_right' hlists (by omega)).symm

theorem Proper.product_eq_of_pair (hs : s.Proper) (ht : t.Proper)
    (h : s(s.first, s.second) = s(t.first, t.second)) : s.product = t.product := by
  rw [hs.product, ht.product]
  obtain ⟨ha, hb⟩ | ⟨ha, hb⟩ := Sym2.eq_iff.mp h
  · rw [ha, hb]
  · rw [ha, hb, auxiliaryLabel_comm]

/-- The four monomials of a penalty are different, so they keep their weights. -/
theorem Proper.entries_penalty_perm (hs : s.Proper) (strength : Weight Rat) :
    (s.penalty strength).terms.entries.Perm
      [(Monomial.ofList [s.product], strength.scale 3),
        (Monomial.ofList [s.second, s.product], strength.scale (-2)),
        (Monomial.ofList [s.first, s.product], strength.scale (-2)),
        (Monomial.ofList [s.first, s.second], strength)] := by
  have hfirst : s.first ≠ s.product := by
    intro h
    have hlength := hs.length_product
    rw [← h] at hlength
    omega
  have hsecond : s.second ≠ s.product := by
    intro h
    have hlength := hs.length_product
    rw [← h] at hlength
    omega
  have hne : ∀ (l k : List String) (x : String), x ∈ l → ¬ x ∈ k →
      Monomial.ofList l ≠ Monomial.ofList k := by
    intro l k x hl hk heq
    rw [← Monomial.mem_labels_ofList, heq, Monomial.mem_labels_ofList] at hl
    exact hk hl
  apply Polynomial.entries_ofList_perm
  simp only [List.map_cons, List.map_nil, List.nodup_cons, List.mem_cons, List.not_mem_nil,
    or_false, not_or, not_false_iff, List.nodup_nil, and_true]
  refine ⟨⟨?_, ?_, ?_⟩, ⟨?_, ?_⟩, ?_⟩
  · exact (hne [s.second, s.product] [s.product] s.second (by simp) (by simp [hsecond])).symm
  · exact (hne [s.first, s.product] [s.product] s.first (by simp) (by simp [hfirst])).symm
  · exact hne [s.product] [s.first, s.second] s.product (by simp)
      (by simp [hfirst.symm, hsecond.symm])
  · exact hne [s.second, s.product] _ s.second (by simp) (by simp [hsecond, hs.ne.symm])
  · exact hne [s.second, s.product] _ s.product (by simp) (by simp [hfirst.symm, hsecond.symm])
  · exact hne [s.first, s.product] _ s.product (by simp) (by simp [hfirst.symm, hsecond.symm])

end Step

namespace Polynomial

variable {strength : Weight Rat} {f p : Polynomial Rat} {done : List Step}

theorem Stage.products_nodup (h : Stage strength f done p) : (done.map Step.product).Nodup :=
  List.pairwise_map.mpr h.fresh

theorem Stage.pairs_nodup (h : Stage strength f done p) :
    (done.map fun s => s(s.first, s.second)).Nodup := by
  apply List.pairwise_map.mpr
  apply h.fresh.imp_of_mem
  intro s t hs ht hne hpair
  exact hne ((h.proper s hs).product_eq_of_pair (h.proper t ht) hpair)

theorem Stage.constraintLabels_nodup (h : Stage strength f done p) :
    (done.map Step.constraintLabel).Nodup := by
  apply List.pairwise_map.mpr
  apply h.fresh.imp_of_mem
  intro s t hs ht hne hlabel
  exact hne ((h.proper s hs).product_eq_of_constraintLabel (h.proper t ht) hlabel)

theorem Stage.entries_auxiliaryConstraints (h : Stage strength f done p) :
    (auxiliaryConstraints strength done).entries.Perm
      (done.map fun s => (s.constraintLabel, s.penalty strength)) := by
  apply Table.entries_ofList_perm
  rw [List.map_map]
  exact h.constraintLabels_nodup

theorem Stage.sum_auxiliaryConstraints (h : Stage strength f done p) :
    ((auxiliaryConstraints strength done).entries.map Prod.snd).sum
      = (done.map (Step.penalty strength)).sum := by
  rw [(h.entries_auxiliaryConstraints.map Prod.snd).sum_eq, List.map_map]
  rfl

theorem Stage.auxiliaryConstraints_find? (h : Stage strength f done p) {s : Step} (hs : s ∈ done) :
    (auxiliaryConstraints strength done).find? s.constraintLabel = some (s.penalty strength) := by
  rw [Table.find?_eq_some_iff, h.entries_auxiliaryConstraints.mem_iff]
  exact List.mem_map_of_mem hs

theorem Stage.product_not_mem (hf : ∀ m ∈ f.monomials, ∀ l ∈ m.labels, ¬ '*' ∈ l.toList)
    (h : Stage strength f done p) {s : Step} (hs : s ∈ done) {m : Monomial}
    (hm : m ∈ f.monomials) : ¬ s.product ∈ m.labels := by
  intro hp
  apply hf m hm _ hp
  rw [(h.proper s hs).product]
  exact star_mem_auxiliaryLabel s.first s.second

/-- Each step of a quadratization introduces a new label for a new pair, and later steps
leave its penalty alone. The result is the polynomial with each monomial regrouped into
a quadratic one, plus the penalties that are recorded as constraints. -/
theorem quadratize_shape (strength : Weight Rat) (f : Polynomial Rat)
    (hf : ∀ m ∈ f.monomials, ∀ l ∈ m.labels, ¬ '*' ∈ l.toList) :
    let r := (f.quadratize strength).1
    let steps := (f.quadratize strength).2
    let ands := auxiliaryConstraints strength steps
    (steps.map fun s => s(s.first, s.second)).Nodup ∧
    (steps.map Step.product).Nodup ∧
    (∀ s ∈ steps, s.first ≠ s.second ∧ s.product = auxiliaryLabel s.first s.second ∧
      ∀ m ∈ f.monomials, ¬ s.product ∈ m.labels) ∧
    ands.size = steps.length ∧
    (∀ s ∈ steps, ∃ q, ands.find? s.constraintLabel = some q ∧
      q.terms.entries.Perm
        [(Monomial.ofList [s.product], strength.scale 3),
          (Monomial.ofList [s.second, s.product], strength.scale (-2)),
          (Monomial.ofList [s.first, s.product], strength.scale (-2)),
          (Monomial.ofList [s.first, s.second], strength)]) ∧
    (steps.Pairwise fun s t => ∀ m ∈ (s.penalty strength).monomials, t.contract m = m) ∧
    ∃ r' : Monomial → Monomial,
      (∀ m ∈ f.monomials, (r' m).degree ≤ 2 ∧ ((r' m).labels.flatMap labelParts).Perm m.labels) ∧
      r = (f.terms.entries.map fun e => single (r' e.1) e.2).sum
        + (ands.entries.map Prod.snd).sum := by
  intro r steps ands
  have h : Stage strength f steps r := (reaches_quadratize f).stage hf
  refine ⟨h.pairs_nodup, h.products_nodup, ?_, ?_, ?_, h.untouched, contractAll steps, ?_, ?_⟩
  · intro s hs
    exact ⟨(h.proper s hs).ne, (h.proper s hs).product, fun m hm => h.product_not_mem hf hs hm⟩
  · have hlength := h.entries_auxiliaryConstraints.length_eq
    rw [List.length_map] at hlength
    exact hlength
  · intro s hs
    exact ⟨s.penalty strength, h.auxiliaryConstraints_find? hs,
      (h.proper s hs).entries_penalty_perm strength⟩
  · intro m hm
    refine ⟨?_, h.parts m hm⟩
    have hmem : contractAll steps m ∈ r.monomials := by
      rw [h.eq, mem_monomials_add, mem_monomials_rename]
      exact .inl ⟨m, hm, rfl⟩
    exact degree_le_of_mem_quadratize hmem
  · rw [h.sum_auxiliaryConstraints, ← rename_eq_sum]
    exact h.eq

def quartic : Polynomial Rat :=
  ofList [(.ofList ["a", "b", "c", "d"], .number 1), (.ofList ["a", "b"], .number (-2))]

def pairStep : Step := ⟨"a", "b", "a*b", 1⟩

/-- A step whose first factor is the auxiliary variable of `pairStep`. -/
def nestedStep : Step := ⟨"a*b", "c", "a*b*c", 1⟩

theorem quadratize_quartic : quartic.quadratize (.number 5) =
    ((quartic.apply (.number 5) pairStep).apply (.number 5) nestedStep,
      [pairStep, nestedStep]) := by
  have hpair : quartic.nextStep? = some pairStep := by cbv
  have hnested : (quartic.apply (.number 5) pairStep).nextStep? = some nestedStep := by cbv
  have hlast : ((quartic.apply (.number 5) pairStep).apply (.number 5) nestedStep).nextStep? =
      none := by cbv
  exact ((Reaches.start.step hpair).step hnested).quadratize_eq hlast

/-- The second step leaves the penalty of the first one alone, and its own is recorded with the
auxiliary variable of the first one in it. -/
theorem quadratize_shape_quartic :
    let r := (quartic.quadratize (.number 5)).1
    let steps := (quartic.quadratize (.number 5)).2
    let ands := auxiliaryConstraints (.number 5) steps
    steps = [pairStep, nestedStep] ∧
    (steps.map fun s => s(s.first, s.second)).Nodup ∧ (steps.map Step.product).Nodup ∧
    (∀ m ∈ quartic.monomials, ¬ nestedStep.product ∈ m.labels) ∧ ands.size = 2 ∧
    (∃ q, ands.find? "AND(a*b,c)=a*b*c" = some q ∧ q.terms.entries.Perm
      [(.ofList ["a*b*c"], .number (5 * 3)), (.ofList ["c", "a*b*c"], .number (5 * -2)),
        (.ofList ["a*b", "a*b*c"], .number (5 * -2)), (.ofList ["a*b", "c"], .number 5)]) ∧
    (∀ m ∈ (pairStep.penalty (.number (5 : Rat))).monomials, nestedStep.contract m = m) ∧
    ∃ r' : Monomial → Monomial, (r' (.ofList ["a", "b", "c", "d"])).degree ≤ 2 ∧
      ((r' (.ofList ["a", "b", "c", "d"])).labels.flatMap labelParts).Perm ["a", "b", "c", "d"] ∧
      r = (quartic.terms.entries.map fun e => single (r' e.1) e.2).sum
        + (ands.entries.map Prod.snd).sum := by
  have hf : ∀ m ∈ quartic.monomials, ∀ l ∈ m.labels, ¬ '*' ∈ l.toList := by decide
  obtain ⟨hpairs, hproducts, hproper, hsize, hands, huntouched, r', hparts, heq⟩ :=
    quadratize_shape (.number 5) quartic hf
  intro r steps ands
  have hsteps : steps = [pairStep, nestedStep] := congrArg Prod.snd quadratize_quartic
  have hnested : nestedStep ∈ steps := by simp [hsteps]
  have hmonomial : Monomial.ofList ["a", "b", "c", "d"] ∈ quartic.monomials := by decide
  obtain ⟨hdegree, hperm⟩ := hparts _ hmonomial
  change steps.Pairwise _ at huntouched
  rw [hsteps] at huntouched
  exact ⟨hsteps, hpairs, hproducts, (hproper nestedStep hnested).2.2,
    hsize.trans (congrArg List.length hsteps), hands nestedStep hnested,
    (List.pairwise_cons.mp huntouched).1 nestedStep (List.mem_singleton.mpr rfl), r', hdegree,
    hperm, heq⟩

end Polynomial

end PseudoBoolean
