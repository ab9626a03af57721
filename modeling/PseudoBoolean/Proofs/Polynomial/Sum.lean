import Mathlib
import PseudoBoolean.Polynomial
import PseudoBoolean.Proofs.Weight.Sum

/-! # Sums of polynomials

Over the rationals polynomials form a commutative monoid under addition, weight by
weight, whichever of two polynomials has fewer terms. Every polynomial is the sum of its
terms, so an additive function is known from its values at single terms. Renaming the
monomials is additive.
-/

namespace PseudoBoolean.Polynomial

theorem addTerm_eq {α : Type} [Scalar α] (p : Polynomial α) (m : Monomial) (w : Weight α) :
    p.addTerm m w = ⟨p.terms.addAt m w⟩ := by
  rw [addTerm, Table.addAt]
  congr 2
  funext old
  cases old <;> rfl

theorem addTerms_eq {α : Type} [Scalar α] (p : Polynomial α) (l : List (Monomial × Weight α)) :
    p.addTerms l = ⟨p.terms.addAll l⟩ := by
  induction l generalizing p with
  | nil => rfl
  | cons e rest ih =>
    have hstep : p.addTerms (e :: rest) = (p.addTerm e.1 e.2).addTerms rest := rfl
    rw [hstep, ih, addTerm_eq]
    rfl

theorem add_eq {α : Type} [Scalar α] (p q : Polynomial α) :
    p + q = if p.size < q.size then q.addTerms p.terms.entries
      else p.addTerms q.terms.entries := rfl

theorem terms_add (p q : Polynomial Rat) : (p + q).terms = p.terms + q.terms := by
  rw [add_eq, addTerms_eq, addTerms_eq]
  split
  · exact add_comm q.terms p.terms
  · rfl

instance : Zero (Polynomial Rat) := ⟨∅⟩

theorem terms_zero : (0 : Polynomial Rat).terms = 0 := rfl

instance : AddCommMonoid (Polynomial Rat) where
  add_assoc p q r := by
    apply Polynomial.ext
    rw [terms_add, terms_add, terms_add, terms_add, add_assoc]
  add_comm p q := by
    apply Polynomial.ext
    rw [terms_add, terms_add, add_comm]
  zero_add p := by
    apply Polynomial.ext
    rw [terms_add, terms_zero, zero_add]
  add_zero p := by
    apply Polynomial.ext
    rw [terms_add, terms_zero, add_zero]
  nsmul := nsmulRec

def termsHom : Polynomial Rat →+ Table Monomial (Weight Rat) where
  toFun := terms
  map_zero' := rfl
  map_add' := terms_add

theorem terms_sum (l : List (Polynomial Rat)) : l.sum.terms = (l.map terms).sum :=
  map_list_sum termsHom l

theorem terms_single (m : Monomial) (w : Weight Rat) : (single m w).terms = Table.entry m w := rfl

theorem ofList_eq_sum (l : List (Monomial × Weight Rat)) :
    ofList l = (l.map fun e => single e.1 e.2).sum := by
  apply Polynomial.ext
  rw [ofList, addTerms_eq, Table.addAll_eq, terms_sum, List.map_map]
  exact zero_add _

theorem sum_terms (p : Polynomial Rat) : (p.terms.entries.map fun e => single e.1 e.2).sum = p := by
  apply Polynomial.ext
  rw [terms_sum, List.map_map]
  exact p.terms.sum_entries

theorem addTerm_eq_add (p : Polynomial Rat) (m : Monomial) (w : Weight Rat) :
    p.addTerm m w = p + single m w := by
  apply Polynomial.ext
  rw [terms_add, terms_single, addTerm_eq, Table.addAt_eq]

theorem weight?_add (p q : Polynomial Rat) (m : Monomial) :
    (p + q).weight? m = Option.merge (· + ·) (p.weight? m) (q.weight? m) := by
  rw [weight?, terms_add]
  exact Table.find?_add p.terms q.terms m

/-! ## Monomials -/

section
variable {α : Type} [Scalar α]

theorem mem_monomials_addTerms {p : Polynomial α} {l : List (Monomial × Weight α)} {m : Monomial} :
    m ∈ (p.addTerms l).monomials ↔ m ∈ p.monomials ∨ m ∈ l.map Prod.fst := by
  rw [addTerms_eq]
  exact Table.mem_keys_addAll

theorem mem_monomials_addTerm {p : Polynomial α} {m n : Monomial} {w : Weight α} :
    m ∈ (p.addTerm n w).monomials ↔ m ∈ p.monomials ∨ m = n := by
  have h : p.addTerm n w = p.addTerms [(n, w)] := rfl
  rw [h, mem_monomials_addTerms, List.map_singleton, List.mem_singleton]

theorem mem_monomials_add {p q : Polynomial α} {m : Monomial} :
    m ∈ (p + q).monomials ↔ m ∈ p.monomials ∨ m ∈ q.monomials := by
  rw [add_eq]
  split
  · rw [mem_monomials_addTerms, or_comm]
    rfl
  · exact mem_monomials_addTerms

theorem mem_monomials_ofList {l : List (Monomial × Weight α)} {m : Monomial} :
    m ∈ (ofList l).monomials ↔ ∃ e ∈ l, m = e.1 := by
  rw [ofList, mem_monomials_addTerms, List.mem_map]
  refine (or_iff_right List.not_mem_nil).trans ?_
  simp only [eq_comm (a := m)]

theorem mem_monomials_mul {p q : Polynomial α} {m : Monomial} :
    m ∈ (p * q).monomials ↔ ∃ k ∈ p.monomials, ∃ n ∈ q.monomials, m = k * n := by
  refine mem_monomials_ofList.trans ?_
  simp only [monomials, Table.keys, List.mem_flatMap, List.mem_map]
  constructor
  · rintro ⟨e, ⟨d, hd, f, hf, rfl⟩, rfl⟩
    exact ⟨d.1, ⟨d, hd, rfl⟩, f.1, ⟨f, hf, rfl⟩, rfl⟩
  · rintro ⟨k, ⟨d, hd, rfl⟩, n, ⟨f, hf, rfl⟩, rfl⟩
    exact ⟨(d.1 * f.1, d.2 * f.2), ⟨d, hd, f, hf, rfl⟩, rfl⟩

end

theorem mem_monomials_sum {l : List (Polynomial Rat)} {m : Monomial} :
    m ∈ l.sum.monomials ↔ ∃ p ∈ l, m ∈ p.monomials := by
  rw [monomials, terms_sum, Table.mem_keys_sum]
  simp only [List.mem_map, exists_exists_and_eq_and]
  rfl

theorem weight?_ofList_of_nodup {l : List (Monomial × Weight Rat)} (h : (l.map Prod.fst).Nodup)
    {m : Monomial} {w : Weight Rat} : (ofList l).weight? m = some w ↔ (m, w) ∈ l := by
  induction l with
  | nil => exact ⟨nofun, nofun⟩
  | cons e rest ih =>
    obtain ⟨n, v⟩ := e
    obtain ⟨hn, hrest⟩ := List.nodup_cons.mp h
    have hcons : ofList ((n, v) :: rest) = single n v + ofList rest := by
      rw [ofList_eq_sum, List.map_cons, List.sum_cons, ← ofList_eq_sum]
    have hsingle : (single n v).weight? m = if m = n then some v else none := by
      rw [weight?, terms_single, Table.find?_entry]
    rw [hcons, weight?_add, hsingle, List.mem_cons]
    split
    · next hm =>
      -- No weight of the rest is merged with `v`.
      have hnone : (ofList rest).weight? m = none := by
        rw [Option.eq_none_iff_forall_ne_some]
        intro w hw
        obtain ⟨e, he, hme⟩ := mem_monomials_ofList.mp (Table.mem_keys_iff.mpr ⟨w, hw⟩)
        exact hn (List.mem_map.mpr ⟨e, he, hme.symm.trans hm⟩)
      rw [hnone, hm]
      constructor
      · intro hw
        cases hw
        exact .inl rfl
      · rintro (hw | hw)
        · cases hw
          rfl
        · exact absurd (List.mem_map.mpr ⟨(n, w), hw, rfl⟩) hn
    · next hm =>
      rw [Option.merge_none_left, ih hrest]
      constructor
      · exact .inr
      · rintro (hw | hw)
        · cases hw
          exact absurd rfl hm
        · exact hw

theorem entries_ofList_perm {l : List (Monomial × Weight Rat)} (h : (l.map Prod.fst).Nodup) :
    (ofList l).terms.entries.Perm l := by
  apply (List.perm_ext_iff_of_nodup (Table.entries_nodup _) h.of_map).mpr
  intro e
  rw [← Table.find?_eq_some_iff, ← weight?_ofList_of_nodup h]
  rfl

/-! ## Weights -/

/-- Whether all weights have a property. -/
def AllWeights {α : Type} (P : Weight α → Prop) (p : Polynomial α) : Prop := p.terms.AllValues P

instance {α : Type} (P : Weight α → Prop) [DecidablePred P] (p : Polynomial α) :
    Decidable (p.AllWeights P) := inferInstanceAs (Decidable (p.terms.AllValues P))

section
variable {α : Type} [Scalar α] {P : Weight α → Prop} {p q : Polynomial α}
  {l : List (Monomial × Weight α)}

theorem allWeights_addTerms (hP : ∀ v w, P v → P w → P (v + w)) (hp : p.AllWeights P)
    (hl : ∀ e ∈ l, P e.2) : (p.addTerms l).AllWeights P := by
  rw [addTerms_eq]
  exact Table.allValues_addAll hP hp hl

theorem allWeights_add (hP : ∀ v w, P v → P w → P (v + w)) (hp : p.AllWeights P)
    (hq : q.AllWeights P) : (p + q).AllWeights P := by
  rw [add_eq]
  split
  · exact allWeights_addTerms hP hq hp
  · exact allWeights_addTerms hP hp hq

theorem allWeights_ofList (hP : ∀ v w, P v → P w → P (v + w)) (h : ∀ e ∈ l, P e.2) :
    (ofList l).AllWeights P :=
  allWeights_addTerms hP (fun _ he => absurd he List.not_mem_nil) h

theorem allWeights_mul (hadd : ∀ v w, P v → P w → P (v + w)) (hmul : ∀ v w, P v → P w → P (v * w))
    (hp : p.AllWeights P) (hq : q.AllWeights P) : (p * q).AllWeights P := by
  apply allWeights_ofList hadd
  intro e he
  obtain ⟨d, hd, he⟩ := List.mem_flatMap.mp he
  obtain ⟨f, hf, rfl⟩ := List.mem_map.mp he
  exact hmul _ _ (hp d hd) (hq f hf)

end

/-! ## Renamed monomials -/

/-- Renames every monomial and adds up the terms that have become alike. -/
def rename {α : Type} [Scalar α] (r : Monomial → Monomial) (p : Polynomial α) : Polynomial α :=
  ofList (p.terms.entries.map fun e => (r e.1, e.2))

theorem allWeights_rename {α : Type} [Scalar α] {P : Weight α → Prop}
    (hP : ∀ v w, P v → P w → P (v + w)) {p : Polynomial α} (h : p.AllWeights P)
    (r : Monomial → Monomial) : (p.rename r).AllWeights P := by
  apply allWeights_ofList hP
  intro e he
  obtain ⟨d, hd, rfl⟩ := List.mem_map.mp he
  exact h d hd

theorem rename_eq_sum (r : Monomial → Monomial) (p : Polynomial Rat) :
    p.rename r = (p.terms.entries.map fun e => single (r e.1) e.2).sum := by
  rw [rename, ofList_eq_sum, List.map_map]
  rfl

theorem single_add (m : Monomial) (v w : Weight Rat) :
    single m (v + w) = single m v + single m w := by
  apply Polynomial.ext
  rw [terms_add, terms_single, terms_single, terms_single, Table.entry_add]

theorem rename_add (r : Monomial → Monomial) (p q : Polynomial Rat) :
    (p + q).rename r = p.rename r + q.rename r := by
  have h : ∀ p : Polynomial Rat, p.rename r = Table.total (fun m w => single (r m) w)
      (fun m v w => single_add (r m) v w) p.terms := rename_eq_sum r
  rw [h, h, h, terms_add, map_add]

theorem rename_sum (r : Monomial → Monomial) (l : List (Polynomial Rat)) :
    l.sum.rename r = (l.map (rename r)).sum := by
  induction l with
  | nil => rfl
  | cons p rest ih => rw [List.sum_cons, rename_add, ih, List.map_cons, List.sum_cons]

theorem rename_congr {r r' : Monomial → Monomial} {p : Polynomial Rat}
    (h : ∀ m ∈ p.monomials, r m = r' m) : p.rename r = p.rename r' := by
  rw [rename_eq_sum, rename_eq_sum]
  congr 1
  apply List.map_congr_left
  intro e he
  rw [h e.1 (List.mem_map_of_mem he)]

theorem rename_eq_self {r : Monomial → Monomial} {p : Polynomial Rat}
    (h : ∀ m ∈ p.monomials, r m = m) : p.rename r = p := by
  have hsame : p.rename r = p.rename fun m => m := rename_congr h
  rw [hsame, rename_eq_sum]
  exact sum_terms p

theorem rename_rename (r r' : Monomial → Monomial) (p : Polynomial Rat) :
    (p.rename r).rename r' = p.rename fun m => r' (r m) := by
  rw [rename_eq_sum r, rename_sum, List.map_map, rename_eq_sum]
  rfl

theorem mem_monomials_rename {α : Type} [Scalar α] {r : Monomial → Monomial} {p : Polynomial α}
    {m : Monomial} :
    m ∈ (p.rename r).monomials ↔ ∃ n ∈ p.monomials, m = r n := by
  rw [rename, mem_monomials_ofList, monomials, Table.keys]
  simp only [List.mem_map, exists_exists_and_eq_and]

end PseudoBoolean.Polynomial
