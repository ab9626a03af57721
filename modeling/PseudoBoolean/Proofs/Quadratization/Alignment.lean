import Mathlib
import PseudoBoolean.Proofs.Quadratization.Blocks

/-! # Aligned blocks

The blocks of different monomials may overlap, but two monomials whose blocks both divide
up a set of variables divide it in the same way, and a monomial whose blocks divide up
the parts of an auxiliary variable has that variable. Every step keeps this. It follows
that no product is introduced twice, and that no step contracts an earlier penalty.
-/

namespace PseudoBoolean

/-- The monomials that are left of the given ones after the steps in `done`. -/
structure Aligned (monomials : List Monomial) (done : List Step) : Prop where
  nodup : ∀ m ∈ monomials, m.parts.Nodup
  agree : ∀ m ∈ monomials, ∀ n ∈ monomials, ∀ P, m.Splits P → n.Splits P →
    ∀ l ∈ m.labels, ∀ x ∈ labelParts l, x ∈ P → l ∈ n.labels
  closed : ∀ s ∈ done, ∀ m ∈ monomials, m.Splits (labelParts s.product) → s.product ∈ m.labels

namespace Aligned

theorem start {monomials : List Monomial}
    (h : ∀ m ∈ monomials, ∀ l ∈ m.labels, ¬ '*' ∈ l.toList) : Aligned monomials [] where
  nodup m hm := by
    rw [Monomial.parts_eq_labels (h m hm)]
    exact m.labels_nodup
  agree m hm n hn P _ hP l hl x hx hxP := by
    rw [labelParts_eq_singleton (h m hm l hl), List.mem_singleton] at hx
    rw [← Monomial.parts_eq_labels (h n hn), ← hx]
    exact hP.cover x hxP
  closed s hs := nomatch hs

variable {monomials : List Monomial} {done : List Step} {s : Step} {m : Monomial}

theorem not_mem_second (h : Aligned monomials done) (hs : s.Proper) (hm : m ∈ monomials)
    (ha : s.first ∈ m.labels) (hb : s.second ∈ m.labels) {x : String}
    (hx : x ∈ labelParts s.first) : ¬ x ∈ labelParts s.second :=
  fun hxb => hs.ne (Monomial.eq_of_mem_labelParts (h.nodup m hm) ha hb hx hxb)

theorem splits_product (h : Aligned monomials done) (hs : s.Proper) (hm : m ∈ monomials)
    (ha : s.first ∈ m.labels) (hb : s.second ∈ m.labels) : m.Splits (labelParts s.product) where
  inside l hl x hx hxP y hy := by
    rw [hs.labelParts_product] at hxP ⊢
    obtain hxa | hxb := hxP
    · rw [Monomial.eq_of_mem_labelParts (h.nodup m hm) hl ha hx hxa] at hy
      exact .inl hy
    · rw [Monomial.eq_of_mem_labelParts (h.nodup m hm) hl hb hx hxb] at hy
      exact .inr hy
  cover x hx := by
    rw [hs.labelParts_product] at hx
    rw [Monomial.mem_parts]
    obtain hx | hx := hx
    · exact ⟨s.first, ha, hx⟩
    · exact ⟨s.second, hb, hx⟩

theorem product_ne (h : Aligned monomials done) (hs : s.Proper) (hm : m ∈ monomials)
    (ha : s.first ∈ m.labels) (hb : s.second ∈ m.labels) {t : Step} (ht : t ∈ done) :
    t.product ≠ s.product := by
  intro heq
  have hsplits := h.splits_product hs hm ha hb
  rw [← heq] at hsplits
  have hp := h.closed t ht m hm hsplits
  rw [heq, hs.product] at hp
  exact Monomial.auxiliaryLabel_not_mem (h.nodup m hm) ha hb hs.ne hp

/-- Monomials that split the same set keep or lose a label together. -/
theorem mem_contract (h : Aligned monomials done) (hs : s.Proper) {n : Monomial}
    (hm : m ∈ monomials) (hn : n ∈ monomials) {P : List String} (hmP : (s.contract m).Splits P)
    (hnP : (s.contract n).Splits P) {l x : String} (hl : l ∈ (s.contract m).labels)
    (hx : x ∈ labelParts l) (hxP : x ∈ P) : l ∈ (s.contract n).labels := by
  have hmP' := hs.splits_of_contract (h.nodup m hm) hmP
  have hnP' := hs.splits_of_contract (h.nodup n hn) hnP
  have hinside : ∀ y ∈ labelParts s.product, s.product ∈ (s.contract m).labels ∨
      s.product ∈ (s.contract n).labels → y ∈ P → ∀ y ∈ labelParts s.product, y ∈ P := by
    rintro y hy (hp | hp) hyP
    · exact hmP.inside _ hp y hy hyP
    · exact hnP.inside _ hp y hy hyP
  obtain ⟨a, haPart⟩ := exists_mem_labelParts s.first
  obtain ⟨b, hbPart⟩ := exists_mem_labelParts s.second
  have hap : a ∈ labelParts s.product := hs.labelParts_product.mpr (.inl haPart)
  have hbp : b ∈ labelParts s.product := hs.labelParts_product.mpr (.inr hbPart)
  obtain ⟨rfl, ha, hb⟩ | ⟨hlm, hkept⟩ := Step.mem_labels_contract hl
  · have hP := hinside x hx (.inl hl) hxP
    apply Step.product_mem_contract
    · exact h.agree m hm n hn P hmP' hnP' _ ha a haPart (hP a hap)
    · exact h.agree m hm n hn P hmP' hnP' _ hb b hbPart (hP b hbp)
  · have hln := h.agree m hm n hn P hmP' hnP' l hlm x hx hxP
    apply Step.mem_labels_contract_of_ne hln
    -- A factor that is contracted in `n` alone would lie in `P` with the other factor,
    -- which is then a label of `m` as well.
    rintro ⟨ha, hb, hlab⟩
    have hxp : x ∈ labelParts s.product := by
      rw [hs.labelParts_product]
      obtain rfl | rfl := hlab
      · exact .inl hx
      · exact .inr hx
    have hP := hinside x hxp (.inr (Step.product_mem_contract ha hb)) hxP
    exact hkept ⟨h.agree n hn m hm P hnP' hmP' _ ha a haPart (hP a hap),
      h.agree n hn m hm P hnP' hmP' _ hb b hbPart (hP b hbp), hlab⟩

theorem contract (h : Aligned monomials done) (hs : s.Proper) (hm : m ∈ monomials)
    (ha : s.first ∈ m.labels) (hb : s.second ∈ m.labels) :
    Aligned (monomials.map s.contract) (done ++ [s]) where
  nodup n' hn' := by
    obtain ⟨n, hn, rfl⟩ := List.mem_map.mp hn'
    exact (hs.parts_contract (h.nodup n hn)).nodup_iff.mpr (h.nodup n hn)
  agree k' hk' n' hn' P hkP hnP l hl x hx hxP := by
    obtain ⟨k, hk, rfl⟩ := List.mem_map.mp hk'
    obtain ⟨n, hn, rfl⟩ := List.mem_map.mp hn'
    exact h.mem_contract hs hk hn hkP hnP hl hx hxP
  closed t ht n' hn' hsplits := by
    obtain ⟨n, hn, rfl⟩ := List.mem_map.mp hn'
    have hsplits' := hs.splits_of_contract (h.nodup n hn) hsplits
    obtain ht | ht := List.mem_append.mp ht
    · have hp := h.closed t ht n hn hsplits'
      apply Step.mem_labels_contract_of_ne hp
      -- The product of `t` would be a factor of `s`, whose own product reaches beyond it.
      rintro ⟨ha', hb', hpab⟩
      have hwhole : ∀ y ∈ labelParts s.product, y ∈ labelParts t.product := by
        obtain ⟨x, hx⟩ := exists_mem_labelParts t.product
        have hxp : x ∈ labelParts s.product := by
          rw [hs.labelParts_product]
          obtain hpa | hpb := hpab
          · exact .inl (hpa ▸ hx)
          · exact .inr (hpb ▸ hx)
        exact hsplits.inside _ (Step.product_mem_contract ha' hb') x hxp hx
      obtain ⟨a, haPart⟩ := exists_mem_labelParts s.first
      obtain ⟨b, hbPart⟩ := exists_mem_labelParts s.second
      obtain hpa | hpb := hpab
      · have hbt := hwhole b (hs.labelParts_product.mpr (.inr hbPart))
        rw [hpa] at hbt
        exact h.not_mem_second hs hn ha' hb' hbt hbPart
      · have hat := hwhole a (hs.labelParts_product.mpr (.inl haPart))
        rw [hpb] at hat
        exact h.not_mem_second hs hn ha' hb' haPart hat
    -- The monomial `m` with both factors splits the same set, so `n` has them too.
    · rw [List.mem_singleton] at ht
      rw [ht] at hsplits' ⊢
      have hsplitsM := h.splits_product hs hm ha hb
      obtain ⟨a, haPart⟩ := exists_mem_labelParts s.first
      obtain ⟨b, hbPart⟩ := exists_mem_labelParts s.second
      apply Step.product_mem_contract
      · exact h.agree m hm n hn _ hsplitsM hsplits' _ ha a haPart
          (hs.labelParts_product.mpr (.inl haPart))
      · exact h.agree m hm n hn _ hsplitsM hsplits' _ hb b hbPart
          (hs.labelParts_product.mpr (.inr hbPart))

/-- A step contracts no monomial of an earlier penalty. -/
theorem contract_penalty (h : Aligned monomials done) (hs : s.Proper) (hm : m ∈ monomials)
    (ha : s.first ∈ m.labels) (hb : s.second ∈ m.labels) {t : Step} (ht : t ∈ done)
    (htProper : t.Proper) {strength : Weight Rat} {n : Monomial}
    (hn : n ∈ (t.penalty strength).monomials) : s.contract n = n := by
  -- The factors of `s` have no part in common, but a product and its factor do.
  have hpair : ∀ x, (∀ y ∈ labelParts x, y ∈ labelParts t.product) →
      ¬ ((s.first = x ∨ s.first = t.product) ∧ (s.second = x ∨ s.second = t.product)) := by
    rintro x hx ⟨hfirst, hsecond⟩
    obtain ⟨y, hy⟩ := exists_mem_labelParts x
    obtain hfirst | hfirst := hfirst
    · obtain hsecond | hsecond := hsecond
      · exact hs.ne (hfirst.trans hsecond.symm)
      · exact h.not_mem_second hs hm ha hb (hfirst ▸ hy) (hsecond ▸ hx y hy)
    · obtain hsecond | hsecond := hsecond
      · exact h.not_mem_second hs hm ha hb (hfirst ▸ hx y hy) (hsecond ▸ hy)
      · exact hs.ne (hfirst.trans hsecond.symm)
  have hfirst : ∀ y ∈ labelParts t.first, y ∈ labelParts t.product :=
    fun y hy => htProper.labelParts_product.mpr (.inl hy)
  have hsecond : ∀ y ∈ labelParts t.second, y ∈ labelParts t.product :=
    fun y hy => htProper.labelParts_product.mpr (.inr hy)
  apply Step.contract_of_not_mem
  obtain ⟨e, he, rfl⟩ := Polynomial.mem_monomials_ofList.mp hn
  simp only [List.mem_cons, List.not_mem_nil, or_false] at he
  obtain rfl | rfl | rfl | rfl := he
  · simp only [Monomial.mem_labels_ofList, List.mem_singleton]
    exact fun hab => hs.ne (hab.1.trans hab.2.symm)
  · simp only [Monomial.mem_labels_ofList, List.mem_cons, List.not_mem_nil, or_false]
    exact hpair t.second hsecond
  · simp only [Monomial.mem_labels_ofList, List.mem_cons, List.not_mem_nil, or_false]
    exact hpair t.first hfirst
  · simp only [Monomial.mem_labels_ofList, List.mem_cons, List.not_mem_nil, or_false]
    rintro ⟨ha', hb'⟩
    apply h.product_ne hs hm ha hb ht
    rw [htProper.product, hs.product]
    obtain ha' | ha' := ha'
    · have hb' := hb'.resolve_left fun hb' => hs.ne (ha'.trans hb'.symm)
      rw [ha', hb']
    · have hb' := hb'.resolve_right fun hb' => hs.ne (ha'.trans hb'.symm)
      rw [ha', hb', auxiliaryLabel_comm]

end Aligned

end PseudoBoolean
