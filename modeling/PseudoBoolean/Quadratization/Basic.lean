import PseudoBoolean.Quadratization.Step

/-! # Quadratization

Steps are taken until no monomial has a degree above 2. Each step lowers the excess, so
there are at most as many of them as the excess of the polynomial.
-/

namespace PseudoBoolean

/-! ## The excess

The excess of a monomial is its degree above 2, and that of a polynomial the sum over
its monomials. A step with a pair of factors from a monomial of degree above 2 lowers
the excess, whatever its auxiliary variable is called: that monomial loses a degree, no
monomial gains one, and the penalty is quadratic.
-/

def Monomial.excess (m : Monomial) : Nat := m.degree - 2

def Polynomial.excess {α : Type} (p : Polynomial α) : Nat :=
  p.monomials.foldr (fun m n => m.excess + n) 0

namespace Table

variable {κ ν : Type} [Ord κ]

theorem foldr_upsertEntries_le (w : κ → Nat) (k : κ) (f : Option ν → ν) (l : List (κ × ν)) :
    (upsertEntries k f l).foldr (fun e n => w e.1 + n) 0
      ≤ l.foldr (fun e n => w e.1 + n) 0 + w k := by
  induction l with
  | nil => simp [upsertEntries]
  | cons e rest ih =>
    simp only [upsertEntries]
    split <;> simp only [List.foldr_cons] <;> omega

end Table

namespace Monomial

theorem degree_ofList_le (l : List String) : (ofList l).degree ≤ l.length := by
  have grow : ∀ (l : List String) (s : OrderedSet String),
      (l.foldl (fun s x => s.insert x) s).size ≤ s.size + l.length := by
    intro l
    induction l with
    | nil => intro s; simp
    | cons x rest ih =>
      intro s
      have h := ih (s.insert x)
      have hx := OrderedSet.size_insert_le x s
      simp only [List.foldl_cons, List.length_cons]
      omega
  have h := grow l ∅
  have h0 : (∅ : OrderedSet String).size = 0 := rfl
  simp only [degree, ofList, OrderedSet.ofList]
  omega

theorem contains_iff {m : Monomial} {label : String} :
    m.contains label = true ↔ label ∈ m.labels := decide_eq_true_iff

theorem degree_substitute_lt {m : Monomial} {a b : String} (p : String)
    (ha : a ∈ m.labels) (hb : b ∈ m.labels) (hab : a ≠ b) :
    (m.substitute a b p).degree < m.degree := by
  have hsize : (m.substitute a b p).degree
      ≤ (m.labels.filter fun label => label ≠ a && label ≠ b).length + 1 :=
    OrderedSet.size_insert_le p _
  have hfilter : (m.labels.filter fun label => label ≠ a && label ≠ b)
      = (m.labels.filter fun label => label ≠ a).filter fun label => label ≠ b := by
    rw [List.filter_filter]
    exact List.filter_congr fun label _ => Bool.and_comm _ _
  have hlt : (m.labels.filter fun label => label ≠ a).length < m.labels.length :=
    List.length_filter_lt_length_iff_exists.mpr ⟨a, ha, by simp⟩
  have hlt' : ((m.labels.filter fun label => label ≠ a).filter fun label => label ≠ b).length
      < (m.labels.filter fun label => label ≠ a).length :=
    List.length_filter_lt_length_iff_exists.mpr
      ⟨b, List.mem_filter.mpr ⟨hb, by simpa using Ne.symm hab⟩, by simp⟩
  rw [hfilter] at hsize
  have hdegree : m.degree = m.labels.length := rfl
  omega

end Monomial

namespace Step

theorem excess_contract_le (s : Step) (hab : s.first ≠ s.second) (m : Monomial) :
    (s.contract m).excess ≤ m.excess := by
  unfold contract
  split
  · next h =>
    obtain ⟨ha, hb⟩ := Bool.and_eq_true_iff.mp h
    have := Monomial.degree_substitute_lt s.product
      (Monomial.contains_iff.mp ha) (Monomial.contains_iff.mp hb) hab
    unfold Monomial.excess
    omega
  · exact Nat.le_refl _

theorem excess_contract_lt (s : Step) (hab : s.first ≠ s.second) {m : Monomial}
    (hm : 2 < m.degree) (ha : s.first ∈ m.labels) (hb : s.second ∈ m.labels) :
    (s.contract m).excess < m.excess := by
  have h := Monomial.degree_substitute_lt s.product ha hb hab
  rw [contract, Monomial.contains_iff.mpr ha, Monomial.contains_iff.mpr hb]
  simp only [Bool.and_self, if_true, Monomial.excess]
  omega

end Step

namespace Polynomial

variable {α : Type}

theorem excess_eq (p : Polynomial α) :
    p.excess = p.terms.entries.foldr (fun e n => e.1.excess + n) 0 := List.foldr_map

variable [Scalar α]

theorem excess_addTerms_le (p : Polynomial α) (l : List (Monomial × Weight α)) :
    (p.addTerms l).excess ≤ p.excess + l.foldr (fun e n => e.1.excess + n) 0 := by
  induction l generalizing p with
  | nil => simp [addTerms]
  | cons e rest ih =>
    have hrest := ih (p.addTerm e.1 e.2)
    have hterm : (p.addTerm e.1 e.2).excess ≤ p.excess + e.1.excess := by
      rw [excess_eq, excess_eq]
      exact Table.foldr_upsertEntries_le Monomial.excess e.1 _ p.terms.entries
    simp only [addTerms, List.foldl_cons, List.foldr_cons] at hrest ⊢
    omega

theorem excess_ofList_le (l : List (Monomial × Weight α)) :
    (ofList l).excess ≤ l.foldr (fun e n => e.1.excess + n) 0 := by
  have h := excess_addTerms_le (∅ : Polynomial α) l
  have h0 : (∅ : Polynomial α).excess = 0 := rfl
  unfold ofList
  omega

theorem excess_add_le (p q : Polynomial α) : (p + q).excess ≤ p.excess + q.excess := by
  show (if p.size < q.size then q.addTerms p.terms.entries
    else p.addTerms q.terms.entries).excess ≤ _
  have hpq := excess_addTerms_le p q.terms.entries
  have hqp := excess_addTerms_le q p.terms.entries
  rw [← excess_eq] at hpq hqp
  split <;> omega

theorem excess_penalty (strength : Weight α) (s : Step) : (s.penalty strength).excess = 0 := by
  have h := excess_ofList_le
    [(Monomial.ofList [s.product], strength.scale ((3 : Nat) : α)),
      (Monomial.ofList [s.second, s.product], strength.scale (-((2 : Nat) : α))),
      (Monomial.ofList [s.first, s.product], strength.scale (-((2 : Nat) : α))),
      (Monomial.ofList [s.first, s.second], strength)]
  have hlow : ∀ l : List String, l.length ≤ 2 → (Monomial.ofList l).excess = 0 := fun l hl => by
    have := Monomial.degree_ofList_le l
    unfold Monomial.excess
    omega
  simp only [List.foldr_cons, List.foldr_nil,
    hlow _ (show [_].length ≤ 2 by simp), hlow _ (show [_, _].length ≤ 2 by simp)] at h
  exact Nat.le_zero.mp h

theorem excess_contract_lt {p : Polynomial α} {s : Step} (hab : s.first ≠ s.second)
    {m : Monomial} (hmem : m ∈ p.monomials) (hm : 2 < m.degree)
    (ha : s.first ∈ m.labels) (hb : s.second ∈ m.labels) :
    (p.contract s).excess < p.excess := by
  have hle := excess_ofList_le (p.terms.entries.map fun e => (s.contract e.1, e.2))
  have hweak : ∀ l : List Monomial,
      l.foldr (fun m n => (s.contract m).excess + n) 0 ≤ l.foldr (fun m n => m.excess + n) 0 := by
    intro l
    induction l with
    | nil => exact Nat.le_refl _
    | cons n rest ih => exact Nat.add_le_add (s.excess_contract_le hab n) ih
  have hstrict : ∀ l : List Monomial, m ∈ l →
      l.foldr (fun m n => (s.contract m).excess + n) 0 < l.foldr (fun m n => m.excess + n) 0 := by
    intro l hl
    induction l with
    | nil => exact nomatch hl
    | cons n rest ih =>
      obtain rfl | hl := List.mem_cons.mp hl
      · exact Nat.add_lt_add_of_lt_of_le (s.excess_contract_lt hab hm ha hb) (hweak rest)
      · exact Nat.add_lt_add_of_le_of_lt (s.excess_contract_le hab n) (ih hl)
  have hlt := hstrict p.monomials hmem
  rw [monomials, Table.keys, List.foldr_map] at hlt
  rw [List.foldr_map] at hle
  exact Nat.lt_of_le_of_lt hle hlt

end Polynomial

/-! ## The chosen pair -/

theorem mem_of_mem_pairsOf {κ : Type} {l : List κ} {c : Cell κ} (h : c ∈ pairsOf l) :
    c.row ∈ l ∧ c.col ∈ l := by
  induction l with
  | nil => exact nomatch h
  | cons x rest ih =>
    obtain h | h := List.mem_append.mp h
    · obtain ⟨y, hy, rfl⟩ := List.mem_map.mp h
      exact ⟨by simp, List.mem_cons_of_mem _ hy⟩
    · exact ⟨List.mem_cons_of_mem _ (ih h).1, List.mem_cons_of_mem _ (ih h).2⟩

theorem compare_of_mem_pairsOf {κ : Type} [Ord κ] {l : List κ} {c : Cell κ}
    (hl : l.Pairwise (fun x y => compare x y = .lt)) (h : c ∈ pairsOf l) :
    compare c.row c.col = .lt := by
  induction l with
  | nil => exact nomatch h
  | cons x rest ih =>
    obtain ⟨hx, hrest⟩ := List.pairwise_cons.mp hl
    obtain h | h := List.mem_append.mp h
    · obtain ⟨y, hy, rfl⟩ := List.mem_map.mp h
      exact hx y hy
    · exact ih hrest h

theorem mem_of_mem_tally {l : List (Cell String)} {e : Cell String × Nat}
    (h : e ∈ (tally l).entries) : e.1 ∈ l := by
  have grow : ∀ (l : List (Cell String)) (t : Table (Cell String) Nat) (e : Cell String × Nat),
      e ∈ (l.foldl (fun t c => t.upsert c fun old => old.getD 0 + 1) t).entries →
        e.1 ∈ l ∨ ∃ e' ∈ t.entries, e'.1 = e.1 := by
    intro l
    induction l with
    | nil => exact fun t e h => .inr ⟨e, h, rfl⟩
    | cons c rest ih =>
      intro t e h
      obtain h | ⟨e', he', hk⟩ := ih _ e h
      · exact .inl (List.mem_cons_of_mem _ h)
      · obtain hc | ⟨d, hd, hdk⟩ := Table.eq_or_mem_of_mem_upsertEntries he'
        · exact .inl (by simp [← hk, hc])
        · exact .inr ⟨d, hd, hdk.trans hk⟩
  obtain h | ⟨e', he', _⟩ := grow l ∅ e h
  · exact h
  · exact nomatch he'

theorem mem_of_mostFrequent? {l : List (Cell String × Nat)} {e : Cell String × Nat}
    (h : mostFrequent? l = some e) : e ∈ l := by
  have keep : ∀ (l : List (Cell String × Nat)) (best? : Option (Cell String × Nat)),
      l.foldl moreFrequent best? = some e → e ∈ l ∨ best? = some e := by
    intro l
    induction l with
    | nil => exact fun _ h => .inr h
    | cons d rest ih =>
      intro best? h
      obtain h | h := ih _ h
      · exact .inl (List.mem_cons_of_mem _ h)
      · unfold moreFrequent at h
        split at h
        · split at h
          · exact .inr h
          · exact .inl (by simp [Option.some.inj h])
        · exact .inl (by simp [Option.some.inj h])
  exact (keep l none h).resolve_right nofun

namespace Polynomial

variable {α : Type}

/-- The step for a polynomial takes two distinct factors of one of its monomials of
degree above 2. -/
theorem exists_monomial_of_nextStep? {p : Polynomial α} {s : Step} (h : p.nextStep? = some s) :
    s.first ≠ s.second ∧
      ∃ m ∈ p.monomials, 2 < m.degree ∧ s.first ∈ m.labels ∧ s.second ∈ m.labels := by
  obtain ⟨⟨pair, count⟩, hpair, rfl⟩ := Option.map_eq_some_iff.mp h
  have hmem : pair ∈ p.highPairs := mem_of_mem_tally (mem_of_mostFrequent? hpair)
  obtain ⟨m, hm, hpair⟩ := List.mem_flatMap.mp hmem
  obtain ⟨hm, hdegree⟩ := List.mem_filter.mp hm
  obtain ⟨ha, hb⟩ := mem_of_mem_pairsOf hpair
  refine ⟨fun hab => ?_, m, hm, of_decide_eq_true hdegree, ha, hb⟩
  have hlt := compare_of_mem_pairsOf m.factors.ascending hpair
  simp only at hab
  rw [hab] at hlt
  simp at hlt

/-- Every step lowers the excess. -/
theorem excess_apply_lt [Scalar α] {p : Polynomial α} {s : Step} (strength : Weight α)
    (h : p.nextStep? = some s) : (p.apply strength s).excess < p.excess := by
  obtain ⟨hab, m, hmem, hm, ha, hb⟩ := exists_monomial_of_nextStep? h
  have hadd := excess_add_le (p.contract s) (s.penalty strength)
  have hcontract := excess_contract_lt hab hmem hm ha hb
  rw [excess_penalty] at hadd
  unfold apply
  omega

end Polynomial

/-! ## Steps to the end -/

variable {α : Type} [Scalar α]

/-- The quadratic polynomial at the end of the steps, and the steps in order. -/
def Polynomial.quadratize (strength : Weight α) (p : Polynomial α) : Polynomial α × List Step :=
  match _ : p.nextStep? with
  | none => (p, [])
  | some s =>
    let (q, steps) := (p.apply strength s).quadratize strength
    (q, s :: steps)
termination_by p.excess
decreasing_by exact Polynomial.excess_apply_lt strength ‹_›

/-- The penalties of the steps as constraints, which hold where each auxiliary variable
is the product that it stands for. -/
def auxiliaryConstraints (strength : Weight α) (steps : List Step) : Constraints α :=
  Table.ofList (steps.map fun s => (s.constraintLabel, s.penalty strength))

end PseudoBoolean
