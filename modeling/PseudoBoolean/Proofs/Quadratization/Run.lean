import PseudoBoolean.Quadratization.Basic

/-! # Runs of a quadratization

The polynomials on the way from a polynomial to its quadratization, with the steps taken
so far. What holds at the start and is kept by every step holds at the end, where no
monomial has a degree above 2. Which step is next depends on the monomials alone.
-/

namespace PseudoBoolean

theorem pairsOf_eq_nil {κ : Type} {l : List κ} (h : pairsOf l = []) : l.length < 2 := by
  cases l with
  | nil => exact Nat.succ_pos 1
  | cons x rest =>
    rw [pairsOf, List.append_eq_nil_iff, List.map_eq_nil_iff] at h
    rw [h.1]
    exact Nat.lt_succ_self 1

theorem tally_eq_nil {l : List (Cell String)} (h : (tally l).entries = []) : l = [] := by
  have hkeep : ∀ (l : List (Cell String)) (t : Table (Cell String) Nat),
      (l.foldl (fun t c => t.upsert c fun old => old.getD 0 + 1) t).entries = [] →
        l = [] ∧ t.entries = [] := by
    intro l
    induction l with
    | nil => exact fun t h => ⟨rfl, h⟩
    | cons c rest ih =>
      intro t h
      have hupsert := (ih _ h).2
      have hc := t.find?_upsert c c fun old => old.getD 0 + 1
      rw [if_pos rfl, Table.find?, hupsert] at hc
      cases hc
  exact (hkeep l ∅ h).1

theorem mostFrequent?_eq_none {l : List (Cell String × Nat)} (h : mostFrequent? l = none) :
    l = [] := by
  have hkeep : ∀ (l : List (Cell String × Nat)) (best? : Option (Cell String × Nat)),
      l.foldl moreFrequent best? = none → l = [] ∧ best? = none := by
    intro l
    induction l with
    | nil => exact fun best? h => ⟨rfl, h⟩
    | cons e rest ih =>
      intro best? h
      have hnone := (ih _ h).2
      unfold moreFrequent at hnone
      split at hnone
      · split at hnone <;> cases hnone
      · cases hnone
  exact (hkeep l none h).1

namespace Polynomial

variable {α : Type}

theorem nextStep?_congr {β : Type} {p : Polynomial α} {q : Polynomial β}
    (h : p.monomials = q.monomials) : p.nextStep? = q.nextStep? := by
  have hpairs : p.highPairs = q.highPairs := by rw [highPairs, highPairs, h]
  rw [nextStep?, nextStep?, commonestPair?, commonestPair?, hpairs]

theorem degree_le_iff {p : Polynomial α} {n : Nat} :
    p.degree ≤ n ↔ ∀ m ∈ p.monomials, m.degree ≤ n := by
  have hfold : ∀ l : List Monomial,
      (l.map Monomial.degree).foldr max 0 ≤ n ↔ ∀ m ∈ l, m.degree ≤ n := by
    intro l
    induction l with
    | nil => simp
    | cons m rest ih =>
      rw [List.map_cons, List.foldr_cons, Nat.max_le, ih, List.forall_mem_cons]
  exact hfold p.monomials

theorem degree_le_of_nextStep? {p : Polynomial α} (h : p.nextStep? = none) {m : Monomial}
    (hm : m ∈ p.monomials) : m.degree ≤ 2 := by
  have hpairs := tally_eq_nil (mostFrequent?_eq_none (Option.map_eq_none_iff.mp h))
  apply Nat.le_of_not_lt
  intro hdegree
  have hfilter : m ∈ p.monomials.filter fun m => 2 < m.degree :=
    List.mem_filter.mpr ⟨hm, decide_eq_true hdegree⟩
  have hnil : pairsOf m.labels = [] := List.flatMap_eq_nil_iff.mp hpairs m hfilter
  have hlength := pairsOf_eq_nil hnil
  have hsize : m.degree = m.labels.length := rfl
  omega

/-- The guard of the loop is right: a pair is found as long as it lets the loop go on. -/
theorem exists_nextStep?_iff {p : Polynomial α} :
    (∃ s, p.nextStep? = some s) ↔ 2 < p.degree := by
  rw [← Nat.not_le, degree_le_iff]
  constructor
  · rintro ⟨s, hs⟩ hdegree
    obtain ⟨-, m, hm, hlt, -⟩ := exists_monomial_of_nextStep? hs
    exact Nat.not_le.mpr hlt (hdegree m hm)
  · intro hdegree
    cases hs : p.nextStep? with
    | none => exact absurd (fun m hm => degree_le_of_nextStep? hs hm) hdegree
    | some s => exact ⟨s, rfl⟩

theorem nextStep?_eq_none_iff {p : Polynomial α} : p.nextStep? = none ↔ p.degree ≤ 2 := by
  rw [← Nat.not_lt, ← exists_nextStep?_iff, Option.eq_none_iff_forall_ne_some, not_exists]

theorem product_of_nextStep? {p : Polynomial α} {s : Step} (h : p.nextStep? = some s) :
    s.product = auxiliaryLabel s.first s.second := by
  obtain ⟨⟨pair, count⟩, -, rfl⟩ := Option.map_eq_some_iff.mp h
  rfl

variable [Scalar α] {strength : Weight α}

theorem quadratize_of_none {p : Polynomial α} (h : p.nextStep? = none) :
    p.quadratize strength = (p, []) := by
  rw [quadratize]
  split
  · rfl
  · next s hs => rw [hs] at h; cases h

theorem quadratize_of_some {p : Polynomial α} {s : Step} (h : p.nextStep? = some s) :
    p.quadratize strength = (((p.apply strength s).quadratize strength).1,
      s :: ((p.apply strength s).quadratize strength).2) := by
  rw [quadratize]
  split
  · next hs => rw [hs] at h; cases h
  · next t ht =>
    rw [ht] at h
    cases h
    rfl

theorem steps_ne_nil_iff {p : Polynomial α} : (p.quadratize strength).2 ≠ [] ↔ 2 < p.degree := by
  rw [← exists_nextStep?_iff]
  cases hs : p.nextStep? with
  | none => simp [quadratize_of_none hs]
  | some s => simp [quadratize_of_some hs]

/-- The polynomials that a quadratization goes through, with the steps up to them. -/
inductive Reaches (strength : Weight α) (f : Polynomial α) : List Step → Polynomial α → Prop where
  | start : Reaches strength f [] f
  | step {done : List Step} {p : Polynomial α} {s : Step} : Reaches strength f done p →
      p.nextStep? = some s → Reaches strength f (done ++ [s]) (p.apply strength s)

theorem Reaches.quadratize {f p : Polynomial α} {done : List Step}
    (h : Reaches strength f done p) :
    Reaches strength f (done ++ (p.quadratize strength).2) (p.quadratize strength).1 := by
  induction hn : p.excess using Nat.strongRecOn generalizing done p with
  | ind n ih =>
    cases hs : p.nextStep? with
    | none =>
      rw [quadratize_of_none hs, List.append_nil]
      exact h
    | some s =>
      have hlt : (p.apply strength s).excess < n := hn ▸ excess_apply_lt strength hs
      have hrest := ih _ hlt (h.step hs) rfl
      rw [List.append_assoc] at hrest
      rw [quadratize_of_some hs]
      exact hrest

theorem Reaches.quadratize_eq {f p : Polynomial α} {done : List Step}
    (h : Reaches strength f done p) (hp : p.nextStep? = none) :
    f.quadratize strength = (p, done) := by
  have hrun : f.quadratize strength =
      ((p.quadratize strength).1, done ++ (p.quadratize strength).2) := by
    clear hp
    induction h with
    | start => rfl
    | step _ hs ih =>
      rw [ih, quadratize_of_some hs, List.append_assoc]
      rfl
  rw [hrun, quadratize_of_none hp, List.append_nil]

theorem reaches_quadratize (f : Polynomial α) :
    Reaches strength f (f.quadratize strength).2 (f.quadratize strength).1 :=
  Reaches.start.quadratize

theorem nextStep?_quadratize (p : Polynomial α) :
    (p.quadratize strength).1.nextStep? = none := by
  induction hn : p.excess using Nat.strongRecOn generalizing p with
  | ind n ih =>
    cases hs : p.nextStep? with
    | none =>
      rw [quadratize_of_none hs]
      exact hs
    | some s =>
      rw [quadratize_of_some hs]
      exact ih _ (hn ▸ excess_apply_lt strength hs) _ rfl

theorem degree_le_of_mem_quadratize {p : Polynomial α} {m : Monomial}
    (h : m ∈ (p.quadratize strength).1.monomials) : m.degree ≤ 2 :=
  degree_le_of_nextStep? (nextStep?_quadratize p) h

end Polynomial

end PseudoBoolean
