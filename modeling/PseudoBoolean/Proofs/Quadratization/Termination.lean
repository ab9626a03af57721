import PseudoBoolean.Proofs.Compilation

/-! # Termination of a quadratization

A quadratization is a loop. As long as a monomial has a degree above 2, a turn looks for
the commonest pair and takes the step for it. Cut off after as many turns as the excess of
the polynomial, the loop has ended by itself: it always finds a pair, and what it leaves is
quadratic. So a compilation ends, and all monomials of its polynomial have a place in the
form.
-/

namespace PseudoBoolean

/-- How a loop with a limited number of turns ends. -/
inductive LoopEnd where
  /-- No monomial has a degree above 2. -/
  | quadratic
  /-- A monomial has a degree above 2, but there is no pair. -/
  | withoutPair
  /-- The turns are used up. -/
  | cutOff
deriving DecidableEq

namespace Polynomial

variable {α : Type} [Scalar α] {strength : Weight α}

/-- The loop with its guard, and how it ends within a number of turns. -/
def quadratizeWithin (strength : Weight α) (turns : Nat) (p : Polynomial α) :
    Polynomial α × List Step × LoopEnd :=
  if p.degree ≤ 2 then (p, [], .quadratic)
  else
    match turns with
    | 0 => (p, [], .cutOff)
    | turns + 1 =>
      match p.nextStep? with
      | none => (p, [], .withoutPair)
      | some s =>
        let (q, steps, loopEnd) := quadratizeWithin strength turns (p.apply strength s)
        (q, s :: steps, loopEnd)

theorem quadratizeWithin_of_degree_le {p : Polynomial α} (h : p.degree ≤ 2) (turns : Nat) :
    p.quadratizeWithin strength turns = (p, [], .quadratic) := by
  rw [quadratizeWithin.eq_def, if_pos h]

theorem quadratizeWithin_of_step {p : Polynomial α} {s : Step} (hs : p.nextStep? = some s)
    (turns : Nat) :
    p.quadratizeWithin strength (turns + 1)
      = (((p.apply strength s).quadratizeWithin strength turns).1,
        s :: ((p.apply strength s).quadratizeWithin strength turns).2.1,
        ((p.apply strength s).quadratizeWithin strength turns).2.2) := by
  have hdegree : ¬ p.degree ≤ 2 := Nat.not_le.mpr (exists_nextStep?_iff.mp ⟨s, hs⟩)
  rw [quadratizeWithin.eq_def, if_neg hdegree]
  simp only [hs]

/-- A turn lowers the excess, so with as many turns the loop is never cut off. -/
theorem quadratizeWithin_eq {turns : Nat} {p : Polynomial α} (h : p.excess ≤ turns) :
    p.quadratizeWithin strength turns
      = ((p.quadratize strength).1, (p.quadratize strength).2, .quadratic) := by
  induction hn : p.excess using Nat.strongRecOn generalizing p turns with
  | ind n ih =>
    cases hs : p.nextStep? with
    | none =>
      rw [quadratizeWithin_of_degree_le (nextStep?_eq_none_iff.mp hs), quadratize_of_none hs]
    | some s =>
      have hlt := excess_apply_lt strength hs
      cases turns with
      | zero => omega
      | succ turns =>
        have hrest : (p.apply strength s).excess ≤ turns := by omega
        rw [quadratizeWithin_of_step hs, ih _ (hn ▸ hlt) hrest rfl, quadratize_of_some hs]

theorem length_quadratize_le (p : Polynomial α) : (p.quadratize strength).2.length ≤ p.excess := by
  induction hn : p.excess using Nat.strongRecOn generalizing p with
  | ind n ih =>
    cases hs : p.nextStep? with
    | none =>
      rw [quadratize_of_none hs]
      exact Nat.zero_le n
    | some s =>
      have hlt := excess_apply_lt strength hs
      have hrest := ih _ (hn ▸ hlt) (p.apply strength s) rfl
      rw [quadratize_of_some hs, List.length_cons]
      omega

theorem degree_quadratize_le (p : Polynomial α) : (p.quadratize strength).1.degree ≤ 2 :=
  degree_le_iff.mpr fun _ hm => degree_le_of_mem_quadratize hm

/-- The loop ends by its guard within as many turns as the excess, having found a pair in
every turn, and leaves a quadratic polynomial. What is compiled from an expression has only
monomials without a factor, with one and with two. -/
theorem quadratizeWithin_excess (strength : Weight α) :
    (∀ p : Polynomial α,
      p.quadratizeWithin strength p.excess
        = ((p.quadratize strength).1, (p.quadratize strength).2, .quadratic) ∧
      (p.quadratize strength).2.length ≤ p.excess ∧
      (p.quadratize strength).1.degree ≤ 2 ∧
      (2 < p.degree → ∃ pair count, p.commonestPair? = some (pair, count))) ∧
    ∀ threshold (e : Expr α),
      let c := e.compilation ⟨strength, threshold⟩
      let q := (c.expanded.quadratize strength).1
      c.steps.length ≤ c.expanded.excess ∧ c.model.form = Qubo.ofPolynomial q ∧
      ∀ m ∈ q.monomials,
        m.labels = [] ∨ (∃ a, m.labels = [a]) ∨ ∃ a b, m.labels = [a, b] := by
  refine ⟨fun p => ⟨quadratizeWithin_eq (Nat.le_refl _), length_quadratize_le p,
    degree_quadratize_le p, fun hdegree => ?_⟩, fun threshold e => ?_⟩
  · obtain ⟨s, hs⟩ := exists_nextStep?_iff.mpr hdegree
    obtain ⟨⟨pair, count⟩, hpair, -⟩ := Option.map_eq_some_iff.mp hs
    exact ⟨pair, count, hpair⟩
  · intro c q
    have hc : c = e.compilation ⟨strength, threshold⟩ := rfl
    rw [Expr.compilation_eq] at hc
    have hexpanded : c.expanded = e.polynomial := by rw [hc]
    have hsteps : c.steps = (e.polynomial.quadratize strength).2 := by rw [hc]; rfl
    have hform : c.model.form = Qubo.ofPolynomial (e.polynomial.quadratize strength).1 := by
      rw [hc]
      rfl
    have hq : q = (e.polynomial.quadratize strength).1 := by rw [← hexpanded]
    refine ⟨?_, by rw [hform, hq], fun m hm => ?_⟩
    · rw [hsteps, hexpanded]
      exact length_quadratize_le e.polynomial
    · obtain h | ⟨a, h, -⟩ | ⟨a, b, h, -⟩ :=
        m.labels_cases (degree_le_of_mem_quadratize (hq ▸ hm))
      · exact .inl h
      · exact .inr (.inl ⟨a, h⟩)
      · exact .inr (.inr ⟨a, b, h⟩)

/-- A polynomial one of whose variables has the label of the product of two others. -/
def collidingCubics : Polynomial Rat :=
  ofList [(Monomial.ofList ["a", "b", "a*b"], .number 1),
    (Monomial.ofList ["a", "b", "c"], .number 2)]

theorem quadratizeWithin_collidingCubics :
    let p := collidingCubics
    p.excess = 2 ∧ (p.quadratizeWithin (.number 5) 2).2.2 = .quadratic ∧
      (p.quadratize (.number 5)).2.length ≤ 2 ∧ (p.quadratize (.number 5)).1.degree ≤ 2 ∧
      2 < p.degree ∧ ∃ pair count, p.commonestPair? = some (pair, count) := by
  intro p
  have hexcess : p.excess = 2 := by decide
  have hdegree : 2 < p.degree := by decide
  obtain ⟨hloop, hlength, hquadratic, hpair⟩ := (quadratizeWithin_excess (.number 5)).1 p
  rw [hexcess] at hloop hlength
  exact ⟨hexcess, by rw [hloop], hlength, hquadratic, hdegree, hpair hdegree⟩

end Polynomial

end PseudoBoolean
