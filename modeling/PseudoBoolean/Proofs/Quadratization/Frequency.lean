import Mathlib
import PseudoBoolean.Proofs.Quadratization.Blocks

/-! # The commonest pair

The tally of a list of pairs has every pair with the number of times it occurs, and the
pairs of the monomials of degree above 2 have each pair of factors once a monomial. So the
count of a pair is the number of these monomials that contain both factors, and the pair
that is found is the first one, in the order of the labels, with the greatest count.
-/

namespace PseudoBoolean

theorem Cell.isLE_compare_iff {c d : Cell String} :
    (compare c d).isLE = true ↔ c.row < d.row ∨ c.row = d.row ∧ c.col ≤ d.col := by
  have hlex : compare c d = (compare c.row d.row).then (compare c.col d.col) := rfl
  rw [hlex]
  cases hrow : compare c.row d.row with
  | lt => simp [compare_lt_iff_lt.mp hrow]
  | eq =>
    have heq := compare_eq_iff_eq.mp hrow
    rw [Ordering.eq_then, ← Ordering.ne_gt_iff_isLE, ← Ne, compare_le_iff_le]
    simp [heq]
  | gt =>
    have hgt := compare_gt_iff_gt.mp hrow
    simp [hgt.ne', hgt.not_gt]

/-! ## Pairs and their counts -/

theorem mem_pairsOf_iff {l : List String} (hl : l.Pairwise fun x y => compare x y = .lt)
    {c : Cell String} : c ∈ pairsOf l ↔ c.row ∈ l ∧ c.col ∈ l ∧ c.row < c.col := by
  constructor
  · intro h
    obtain ⟨hrow, hcol⟩ := mem_of_mem_pairsOf h
    exact ⟨hrow, hcol, compare_lt_iff_lt.mp (compare_of_mem_pairsOf hl h)⟩
  · rintro ⟨hrow, hcol, hlt⟩
    induction l with
    | nil => cases hrow
    | cons x rest ih =>
      obtain ⟨hx, hrest⟩ := List.pairwise_cons.mp hl
      rw [pairsOf, List.mem_append, List.mem_map]
      obtain hrow | hrow := List.mem_cons.mp hrow
      · obtain hcol | hcol := List.mem_cons.mp hcol
        · rw [hrow, hcol] at hlt
          exact absurd hlt (lt_irrefl x)
        · exact .inl ⟨c.col, hcol, Cell.ext hrow.symm rfl⟩
      · obtain hcol | hcol := List.mem_cons.mp hcol
        · rw [hcol] at hlt
          exact absurd hlt (compare_lt_iff_lt.mp (hx _ hrow)).not_gt
        · exact .inr (ih hrest hrow hcol)

theorem pairsOf_nodup {κ : Type} {l : List κ} (hl : l.Nodup) : (pairsOf l).Nodup := by
  induction l with
  | nil => exact List.nodup_nil
  | cons x rest ih =>
    obtain ⟨hx, hrest⟩ := List.nodup_cons.mp hl
    rw [pairsOf, List.nodup_append']
    refine ⟨hrest.map fun y z h => congrArg Cell.col h, ih hrest, ?_⟩
    intro c hc hc'
    obtain ⟨y, -, rfl⟩ := List.mem_map.mp hc
    exact hx (mem_of_mem_pairsOf hc').1

theorem Monomial.count_pairsOf (m : Monomial) {c : Cell String} (hc : c.row < c.col) :
    (pairsOf m.labels).count c = if m.contains c.row && m.contains c.col then 1 else 0 := by
  have hmem : c ∈ pairsOf m.labels ↔ (m.contains c.row && m.contains c.col) = true := by
    have hpairs := mem_pairsOf_iff m.factors.ascending (c := c)
    rw [and_iff_left hc] at hpairs
    rw [Bool.and_eq_true, contains_iff, contains_iff]
    exact hpairs
  have hnodup : (pairsOf m.labels).Nodup := pairsOf_nodup m.labels_nodup
  rw [hnodup.count]
  exact if_congr hmem rfl rfl

theorem getD_find?_tally (l : List (Cell String)) (c : Cell String) :
    ((tally l).find? c).getD 0 = l.count c := by
  have hfold : ∀ (l : List (Cell String)) (t : Table (Cell String) Nat),
      ((l.foldl (fun t c => t.upsert c fun old => old.getD 0 + 1) t).find? c).getD 0
        = (t.find? c).getD 0 + l.count c := by
    intro l
    induction l with
    | nil => exact fun t => rfl
    | cons d rest ih =>
      intro t
      rw [List.foldl_cons, ih, Table.find?_upsert, List.count_cons]
      by_cases h : c = d
      · rw [if_pos h, Option.getD_some, h, beq_self_eq_true, if_pos rfl]
        omega
      · rw [if_neg h, beq_eq_false_iff_ne.mpr (Ne.symm h)]
        rfl
  exact (hfold l ∅).trans (Nat.zero_add _)

/-- The entries of a tally are the pairs of the list with their counts. -/
theorem mem_entries_tally {l : List (Cell String)} {e : Cell String × Nat} :
    e ∈ (tally l).entries ↔ e.1 ∈ l ∧ e.2 = l.count e.1 := by
  have hcount := getD_find?_tally l e.1
  constructor
  · intro h
    refine ⟨mem_of_mem_tally h, ?_⟩
    rw [Table.find?_eq_some_iff.mpr h] at hcount
    exact hcount
  · rintro ⟨hmem, heq⟩
    have hpos := List.count_pos_iff.mpr hmem
    cases hfind : (tally l).find? e.1 with
    | none =>
      rw [hfind, Option.getD_none] at hcount
      omega
    | some n =>
      rw [hfind, Option.getD_some] at hcount
      rw [← Table.find?_eq_some_iff, hfind, hcount, heq]

/-! ## The first greatest count -/

theorem mostFrequent?_eq_argmax (l : List (Cell String × Nat)) :
    mostFrequent? l = l.argmax Prod.snd := by
  have hstep : moreFrequent = List.argAux fun d e => e.2 < d.2 := by
    funext best? e
    cases best? with
    | none => rfl
    | some best => simp only [moreFrequent, List.argAux, ← Nat.not_lt, ite_not]
  rw [mostFrequent?, hstep]
  rfl

/-- What comes first among the elements with the greatest value is related to the others. -/
theorem eq_or_rel_of_argmax {β : Type} {R : β → β → Prop} {l : List β} (hl : l.Pairwise R)
    {f : β → Nat} {m : β} (h : l.argmax f = some m) {d : β} (hd : d ∈ l) (hle : f m ≤ f d) :
    m = d ∨ R m d := by
  classical
  have hmem : m ∈ l := List.argmax_mem h
  obtain heq | hlt := Nat.eq_or_lt_of_le (List.index_of_argmax h hd hle)
  · exact .inl ((List.idxOf_inj hmem).mp heq)
  · have hrel := List.pairwise_iff_getElem.mp hl _ _ (List.idxOf_lt_length_iff.mpr hmem)
      (List.idxOf_lt_length_iff.mpr hd) hlt
    rw [List.getElem_idxOf, List.getElem_idxOf] at hrel
    exact .inr hrel

/-- Of the entries of a table the one with the greatest count is found, and of several such
the one with the smallest key. -/
theorem mostFrequent?_entries {t : Table (Cell String) Nat} {e : Cell String × Nat}
    (h : mostFrequent? t.entries = some e) :
    e ∈ t.entries ∧ ∀ d ∈ t.entries, d.2 ≤ e.2 ∧ (d.2 = e.2 → (compare e.1 d.1).isLE = true) := by
  rw [mostFrequent?_eq_argmax] at h
  refine ⟨List.argmax_mem h, fun d hd => ⟨List.le_of_mem_argmax hd h, fun hcount => ?_⟩⟩
  obtain rfl | hlt := eq_or_rel_of_argmax t.ascending h hd hcount.ge
  · exact Std.ReflCmp.isLE_rfl
  · rw [hlt]
    rfl

namespace Polynomial

variable {α : Type} {p : Polynomial α}

/-- The number of monomials of degree above 2 that have both variables as factors. -/
def jointCount (p : Polynomial α) (a b : String) : Nat :=
  p.monomials.countP fun m => 2 < m.degree && (m.contains a && m.contains b)

theorem jointCount_comm (p : Polynomial α) (a b : String) :
    p.jointCount a b = p.jointCount b a := by
  simp only [jointCount, Bool.and_comm (x := Monomial.contains _ a)]

theorem count_highPairs {c : Cell String} (hc : c.row < c.col) :
    p.highPairs.count c = p.jointCount c.row c.col := by
  have hcount : (fun m : Monomial => (pairsOf m.labels).count c)
      = fun m => if (m.contains c.row && m.contains c.col) = true then 1 else 0 :=
    funext fun m => m.count_pairsOf hc
  rw [highPairs, List.count_flatMap, Function.comp_def, hcount, List.sum_map_ite,
    List.map_const', List.map_const', List.sum_replicate, List.sum_replicate, smul_eq_mul, mul_one,
    smul_zero, add_zero, jointCount, List.countP_eq_length_filter, List.filter_filter]
  simp only [Bool.decide_eq_true, Bool.and_comm]

theorem ordered_of_mem_highPairs {c : Cell String} (h : c ∈ p.highPairs) : c.row < c.col := by
  obtain ⟨m, -, hc⟩ := List.mem_flatMap.mp h
  exact compare_lt_iff_lt.mp (compare_of_mem_pairsOf m.factors.ascending hc)

/-- The counts are those of the pairs in ascending order that occur at all. -/
theorem mem_tally_highPairs {e : Cell String × Nat} : e ∈ (tally p.highPairs).entries ↔
    e.1.row < e.1.col ∧ 1 ≤ e.2 ∧ p.jointCount e.1.row e.1.col = e.2 := by
  rw [mem_entries_tally]
  constructor
  · rintro ⟨hmem, hcount⟩
    have hlt := ordered_of_mem_highPairs hmem
    have hpos := List.count_pos_iff.mpr hmem
    rw [count_highPairs hlt] at hpos hcount
    exact ⟨hlt, hcount ▸ hpos, hcount.symm⟩
  · rintro ⟨hlt, hpos, hcount⟩
    rw [← count_highPairs hlt] at hcount
    exact ⟨List.count_pos_iff.mp (hcount ▸ hpos), hcount.symm⟩

/-- The commonest pair of variables with the number of monomials that it occurs in: no other
pair occurs in more monomials of degree above 2, and none that occurs in as many comes
before it in the order of the labels. -/
structure IsCommonest (p : Polynomial α) (c : Cell String) (n : Nat) : Prop where
  ordered : c.row < c.col
  occurs : 1 ≤ n
  count : p.jointCount c.row c.col = n
  greatest : ∀ a b, a ≠ b → p.jointCount a b ≤ n
  first : ∀ a b, a ≠ b → p.jointCount a b = n → c.row < a ∨ c.row = a ∧ c.col ≤ b

theorem IsCommonest.unique {c d : Cell String} {n k : Nat} (hc : p.IsCommonest c n)
    (hd : p.IsCommonest d k) : c = d ∧ n = k := by
  have hle := hd.greatest _ _ hc.ordered.ne
  have hge := hc.greatest _ _ hd.ordered.ne
  rw [hc.count] at hle
  rw [hd.count] at hge
  obtain rfl := Nat.le_antisymm hle hge
  have hcd := Cell.isLE_compare_iff.mpr (hc.first _ _ hd.ordered.ne hd.count)
  have hdc := Cell.isLE_compare_iff.mpr (hd.first _ _ hc.ordered.ne hc.count)
  exact ⟨Std.LawfulEqCmp.eq_of_compare (Std.OrientedCmp.isLE_antisymm hcd hdc), rfl⟩

theorem isCommonest_of_commonestPair? {c : Cell String} {n : Nat}
    (h : p.commonestPair? = some (c, n)) : p.IsCommonest c n := by
  obtain ⟨hmem, hbest⟩ := mostFrequent?_entries h
  obtain ⟨hordered, hoccurs, hcount⟩ := mem_tally_highPairs.mp hmem
  -- Only pairs in ascending order that occur at all have been counted.
  have hpair : ∀ a b, a < b → p.jointCount a b ≤ n ∧
      (p.jointCount a b = n → c.row < a ∨ c.row = a ∧ c.col ≤ b) := by
    intro a b hab
    obtain hzero | hpos := Nat.eq_zero_or_pos (p.jointCount a b)
    · rw [hzero]
      exact ⟨Nat.zero_le n, fun hn => absurd hoccurs (hn ▸ Nat.not_succ_le_zero 0)⟩
    · have hmem : ((⟨a, b⟩ : Cell String), p.jointCount a b) ∈ (tally p.highPairs).entries :=
        mem_tally_highPairs.mpr ⟨hab, hpos, rfl⟩
      obtain ⟨hle, hfirst⟩ := hbest _ hmem
      exact ⟨hle, fun hn => Cell.isLE_compare_iff.mp (hfirst hn)⟩
  refine ⟨hordered, hoccurs, hcount, fun a b hne => ?_, fun a b hne hn => ?_⟩
  · obtain hab | hba := lt_or_gt_of_ne hne
    · exact (hpair a b hab).1
    · exact p.jointCount_comm a b ▸ (hpair b a hba).1
  · obtain hab | hba := lt_or_gt_of_ne hne
    · exact (hpair a b hab).2 hn
    · -- In descending order a pair is behind the same pair in ascending order.
      obtain hlt | ⟨rfl, -⟩ := (hpair b a hba).2 (p.jointCount_comm a b ▸ hn)
      · exact .inl (hlt.trans hba)
      · exact .inl hba

theorem commonestPair?_eq_none_iff :
    p.commonestPair? = none ↔ ∀ m ∈ p.monomials, m.degree ≤ 2 := by
  rw [← degree_le_iff, ← nextStep?_eq_none_iff, nextStep?, Option.map_eq_none_iff]

/-- A pair is found exactly if a monomial has a degree above 2, and it is the commonest one. -/
theorem commonestPair?_eq (p : Polynomial α) :
    (p.commonestPair? = none ↔ ∀ m ∈ p.monomials, m.degree ≤ 2) ∧
      ∀ c n, p.commonestPair? = some (c, n) ↔ p.IsCommonest c n := by
  refine ⟨commonestPair?_eq_none_iff, fun c n => ⟨isCommonest_of_commonestPair?, fun h => ?_⟩⟩
  cases hpair : p.commonestPair? with
  | none =>
    have hmem : (c, n) ∈ (tally p.highPairs).entries :=
      mem_tally_highPairs.mpr ⟨h.ordered, h.occurs, h.count⟩
    obtain ⟨m, hm, -⟩ := List.mem_flatMap.mp (mem_entries_tally.mp hmem).1
    obtain ⟨hm, hdegree⟩ := List.mem_filter.mp hm
    have hle := commonestPair?_eq_none_iff.mp hpair m hm
    exact absurd (of_decide_eq_true hdegree) hle.not_gt
  | some found =>
    obtain ⟨heq, hn⟩ := (isCommonest_of_commonestPair? hpair).unique h
    exact congrArg some (Prod.ext heq hn)

/-- The pairs of "b" and "c" and of "d" and "e" are in two cubic monomials each, and the latter
also is a monomial of its own. -/
def tyingCubics : Polynomial Rat :=
  ofList [(Monomial.ofList ["a", "d", "e"], .number 1),
    (Monomial.ofList ["d", "e", "f"], .number 1),
    (Monomial.ofList ["d", "e"], .number 3), (Monomial.ofList ["a", "b", "c"], .number 0),
    (Monomial.ofList ["b", "c", "d"], .number (-2))]

theorem commonestPair?_tyingCubics :
    let p := tyingCubics
    p.commonestPair? = some (⟨"b", "c"⟩, 2) ∧ p.jointCount "d" "e" = 2 ∧
      p.IsCommonest ⟨"b", "c"⟩ 2 ∧ ¬ p.IsCommonest ⟨"d", "e"⟩ 2 ∧
      ¬ ∀ m ∈ p.monomials, m.degree ≤ 2 := by
  intro p
  have hpair : p.commonestPair? = some (⟨"b", "c"⟩, 2) := by decide +kernel
  obtain ⟨hnone, hsome⟩ := commonestPair?_eq p
  refine ⟨hpair, by decide +kernel, (hsome _ _).mp hpair, ?_, ?_⟩
  · rw [← hsome, hpair]
    decide
  · rw [← hnone, hpair]
    exact nofun

end Polynomial

end PseudoBoolean
