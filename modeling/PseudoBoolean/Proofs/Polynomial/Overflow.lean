import Mathlib
import PseudoBoolean.Proofs.Polynomial.Product
import PseudoBoolean.Proofs.Polynomial.Support
import PseudoBoolean.Proofs.Weight.Wrapping

/-! # Products that overflow

Exponents of placeholders are kept as unsigned words of 32 bits. Sums need no others than
their summands, but a product adds exponents up. If a sum of exponents is no such word, there
may be no product, or one with the exponents modulo `2 ^ 32`. Polynomials form a commutative
semiring in either case. A missing product is missing however it is formed; only where an
outer one of three factors has no terms can one way overflow on the road to the empty product.
-/

namespace PseudoBoolean

namespace Polynomial

variable {p q r s : Polynomial Rat} {k : PowerProduct}

/-! ## Power products in the weights -/

/-- The power products of placeholders that occur in the weights. -/
def powerProducts (p : Polynomial Rat) : List PowerProduct :=
  p.terms.entries.flatMap fun e => e.2.toCoefficient.terms.keys

theorem mem_powerProducts :
    k ∈ p.powerProducts ↔ ∃ e ∈ p.terms.entries, k ∈ e.2.toCoefficient.terms.keys :=
  List.mem_flatMap

theorem mem_powerProducts_add :
    k ∈ (p + q).powerProducts ↔ k ∈ p.powerProducts ∨ k ∈ q.powerProducts := by
  rw [mem_powerProducts, mem_powerProducts, mem_powerProducts]
  exact exists_weight_add (Q := (k ∈ ·.toCoefficient.terms.keys)) fun v w => Weight.mem_keys_add

theorem mem_powerProducts_mul :
    k ∈ (p * q).powerProducts ↔ ∃ i ∈ p.powerProducts, ∃ j ∈ q.powerProducts, k = i * j := by
  rw [mem_powerProducts]
  refine (exists_weight_ofList (Q := (k ∈ ·.toCoefficient.terms.keys))
    fun v w => Weight.mem_keys_add).trans ?_
  simp only [List.mem_flatMap, List.mem_map, mem_powerProducts]
  constructor
  · rintro ⟨_, ⟨e, he, f, hf, rfl⟩, hk⟩
    obtain ⟨i, hi, j, hj, rfl⟩ := Weight.mem_keys_mul.mp hk
    exact ⟨i, ⟨e, he, hi⟩, j, ⟨f, hf, hj⟩, rfl⟩
  · rintro ⟨i, ⟨e, he, hi⟩, j, ⟨f, hf, hj⟩, rfl⟩
    exact ⟨_, ⟨e, he, f, hf, rfl⟩, Weight.mem_keys_mul.mpr ⟨i, hi, j, hj, rfl⟩⟩

theorem HasTerms.exists_powerProduct (hp : p.HasTerms) : ∃ k, k ∈ p.powerProducts := by
  obtain ⟨m, hm⟩ := hp.monomial
  obtain ⟨e, he, -⟩ := List.mem_map.mp hm
  obtain ⟨k, hk⟩ := hp.weights e he
  exact ⟨k, mem_powerProducts.mpr ⟨e, he, hk⟩⟩

/-! ## Exponents that are unsigned words -/

/-- Whether all exponents are unsigned words of 32 bits. -/
def FitsUnsigned (p : Polynomial Rat) : Prop := ∀ k ∈ p.powerProducts, k.FitsUnsigned

instance : DecidablePred FitsUnsigned :=
  fun p => inferInstanceAs (Decidable (∀ k ∈ p.powerProducts, k.FitsUnsigned))

theorem fitsUnsigned_add : (p + q).FitsUnsigned ↔ p.FitsUnsigned ∧ q.FitsUnsigned := by
  simp only [FitsUnsigned, mem_powerProducts_add, or_imp, forall_and]

theorem fitsUnsigned_mul :
    (p * q).FitsUnsigned ↔ ∀ i ∈ p.powerProducts, ∀ j ∈ q.powerProducts, (i * j).FitsUnsigned := by
  constructor
  · intro h i hi j hj
    exact h _ (mem_powerProducts_mul.mpr ⟨i, hi, j, hj, rfl⟩)
  · rintro h k hk
    obtain ⟨i, hi, j, hj, rfl⟩ := mem_powerProducts_mul.mp hk
    exact h i hi j hj

theorem fitsUnsigned_empty : (∅ : Polynomial Rat).FitsUnsigned :=
  fun _ hk => absurd hk List.not_mem_nil

theorem FitsUnsigned.of_mul (h : (p * q).FitsUnsigned) (hq : q.HasTerms) : p.FitsUnsigned := by
  intro i hi
  obtain ⟨j, hj⟩ := hq.exists_powerProduct
  exact (fitsUnsigned_mul.mp h i hi j hj).of_mul.1

/-! ## Missing products -/

/-- The product, unless an exponent overflows. -/
def mul? (p q : Polynomial Rat) : Option (Polynomial Rat) :=
  if (p * q).FitsUnsigned then some (p * q) else none

theorem mul?_eq_some_iff : p.mul? q = some s ↔ (p * q).FitsUnsigned ∧ p * q = s := by
  rw [mul?, Option.ite_none_right_eq_some, Option.some.injEq]

theorem mul?_eq_none_iff :
    p.mul? q = none ↔ ∃ i ∈ p.powerProducts, ∃ j ∈ q.powerProducts, ¬ (i * j).FitsUnsigned := by
  have hnone : p.mul? q = none ↔ ¬ (p * q).FitsUnsigned := by
    rw [mul?, ite_eq_right_iff]
    exact imp_congr_right fun _ => iff_of_false (Option.some_ne_none _) id
  rw [hnone, fitsUnsigned_mul]
  push Not
  exact Iff.rfl

theorem mul?_comm (p q : Polynomial Rat) : p.mul? q = q.mul? p := by
  rw [mul?, mul?, mul_comm]

/-- A product that overflows does so with every factor that has terms. -/
theorem mul?_bind_mul? (hr : r.HasTerms) : (p.mul? q).bind (·.mul? r) =
    if (p * q * r).FitsUnsigned then some (p * q * r) else none := by
  rw [mul?]
  split
  · rfl
  · next hpq =>
    rw [if_neg fun h => hpq (h.of_mul hr)]
    rfl

theorem mul?_assoc (hp : p.HasTerms) (hr : r.HasTerms) :
    (p.mul? q).bind (·.mul? r) = (q.mul? r).bind p.mul? := by
  have hswap : p.mul? = (·.mul? p) := funext (mul?_comm p)
  rw [hswap, mul?_bind_mul? hr, mul?_bind_mul? hp, mul_right_comm]

theorem mul?_add (p q r : Polynomial Rat) :
    p.mul? (q + r) = Option.map₂ (· + ·) (p.mul? q) (p.mul? r) := by
  simp only [mul?, mul_add, fitsUnsigned_add]
  by_cases hq : (p * q).FitsUnsigned <;> by_cases hr : (p * r).FitsUnsigned <;>
    simp [hq, hr]

theorem one_mul? (hp : p.FitsUnsigned) : (constant (.number 1)).mul? p = some p :=
  mul?_eq_some_iff.mpr ⟨(one_mul p).symm ▸ hp, one_mul p⟩

theorem empty_mul? (p : Polynomial Rat) : (∅ : Polynomial Rat).mul? p = some ∅ :=
  mul?_eq_some_iff.mpr ⟨fitsUnsigned_empty, zero_mul p⟩

/-! ## Wrapped products -/

/-- The exponents modulo `2 ^ 32`. -/
def wrap (p : Polynomial Rat) : Polynomial Rat := ⟨p.terms.mapValues Weight.wrap⟩

/-- The product with its exponents modulo `2 ^ 32`. -/
def mulWrapped (p q : Polynomial Rat) : Polynomial Rat := (p * q).wrap

theorem monomials_wrap (p : Polynomial Rat) : p.wrap.monomials = p.monomials :=
  p.terms.keys_mapValues Weight.wrap

theorem fitsUnsigned_wrap (p : Polynomial Rat) : p.wrap.FitsUnsigned := by
  intro k hk
  obtain ⟨_, he, hk⟩ := mem_powerProducts.mp hk
  obtain ⟨e, -, rfl⟩ := List.mem_map.mp he
  rw [Weight.toCoefficient_wrap] at hk
  obtain ⟨i, -, rfl⟩ := Coefficient.mem_keys_wrap.mp hk
  exact i.fitsUnsigned_wrap

theorem wrap_of_fitsUnsigned (h : p.FitsUnsigned) : p.wrap = p := by
  apply Polynomial.ext
  apply Table.ext
  refine (List.map_congr_left fun e he => ?_).trans (List.map_id _)
  have hfits : ∀ k ∈ e.2.toCoefficient.terms.keys, k.FitsUnsigned :=
    fun k hk => h k (mem_powerProducts.mpr ⟨e, he, hk⟩)
  exact Prod.ext rfl (Weight.wrap_of_fitsUnsigned hfits)

theorem wrap_add (p q : Polynomial Rat) : (p + q).wrap = p.wrap + q.wrap := by
  apply Polynomial.ext
  rw [terms_add, wrap, wrap, wrap, terms_add]
  exact Table.mapValues_add Weight.wrap_add p.terms q.terms

theorem wrap_wrap_mul (p q : Polynomial Rat) : (p.wrap * q).wrap = (p * q).wrap := by
  have hadd : ∀ t u : Table Monomial (Weight Rat),
      (t + u).mapValues Weight.wrap = t.mapValues Weight.wrap + u.mapValues Weight.wrap :=
    Table.mapValues_add Weight.wrap_add
  apply Polynomial.ext
  change (p.wrap * q).terms.mapValues Weight.wrap = (p * q).terms.mapValues Weight.wrap
  rw [terms_mul, terms_mul]
  exact Table.map_map_mul (W := ⟨⟨Table.mapValues Weight.wrap, rfl⟩, hadd⟩) (g := id)
    (fun _ _ => rfl) (fun _ _ => rfl) Weight.wrap_wrap_mul p.terms q.terms

theorem mulWrapped_comm (p q : Polynomial Rat) : p.mulWrapped q = q.mulWrapped p := by
  rw [mulWrapped, mulWrapped, mul_comm]

theorem mulWrapped_assoc (p q r : Polynomial Rat) :
    (p.mulWrapped q).mulWrapped r = p.mulWrapped (q.mulWrapped r) := by
  rw [mulWrapped_comm p (q.mulWrapped r)]
  simp only [mulWrapped, wrap_wrap_mul]
  rw [mul_comm (q * r), mul_assoc]

theorem mulWrapped_add (p q r : Polynomial Rat) :
    p.mulWrapped (q + r) = p.mulWrapped q + p.mulWrapped r := by
  rw [mulWrapped, mul_add, wrap_add]
  rfl

theorem one_mulWrapped (hp : p.FitsUnsigned) : (constant (.number 1)).mulWrapped p = p :=
  (congrArg wrap (one_mul p)).trans (wrap_of_fitsUnsigned hp)

theorem empty_mulWrapped (p : Polynomial Rat) : (∅ : Polynomial Rat).mulWrapped p = ∅ :=
  congrArg wrap (zero_mul p)

/-! ## Laws -/

/-- The laws of a multiplication of three polynomials, under which a product may be missing. -/
structure MulLaws (mul : Polynomial Rat → Polynomial Rat → Option (Polynomial Rat))
    (p q r : Polynomial Rat) : Prop where
  comm : mul p q = mul q p
  assoc : p.HasTerms → r.HasTerms → (mul p q).bind (mul · r) = (mul q r).bind (mul p)
  assoc_of_some : ∀ s t u v, mul p q = some s → mul s r = some t → mul q r = some u →
    mul p u = some v → t = v
  mul_add : mul p (q + r) = Option.map₂ (· + ·) (mul p q) (mul p r)
  add_mul : mul (p + q) r = Option.map₂ (· + ·) (mul p r) (mul q r)
  one_mul : p.FitsUnsigned → mul (constant (.number 1)) p = some p
  mul_one : p.FitsUnsigned → mul p (constant (.number 1)) = some p
  empty_mul : mul ∅ p = some ∅
  mul_empty : mul p ∅ = some ∅
  fitsUnsigned : ∀ s, mul p q = some s → s.FitsUnsigned
  mem_monomials : ∀ s, mul p q = some s →
    ∀ m, m ∈ s.monomials ↔ ∃ k ∈ p.monomials, ∃ n ∈ q.monomials, m = k * n

theorem mulLaws_mul? (p q r : Polynomial Rat) : MulLaws mul? p q r where
  comm := mul?_comm p q
  assoc := mul?_assoc
  assoc_of_some s t u v hs ht hu hv := by
    obtain ⟨-, rfl⟩ := mul?_eq_some_iff.mp hs
    obtain ⟨-, rfl⟩ := mul?_eq_some_iff.mp ht
    obtain ⟨-, rfl⟩ := mul?_eq_some_iff.mp hu
    obtain ⟨-, rfl⟩ := mul?_eq_some_iff.mp hv
    exact mul_assoc p q r
  mul_add := mul?_add p q r
  add_mul := by rw [mul?_comm, mul?_add, mul?_comm r p, mul?_comm r q]
  one_mul := one_mul?
  mul_one hp := (mul?_comm p _).trans (one_mul? hp)
  empty_mul := empty_mul? p
  mul_empty := (mul?_comm p ∅).trans (empty_mul? p)
  fitsUnsigned s hs := by
    obtain ⟨hfits, rfl⟩ := mul?_eq_some_iff.mp hs
    exact hfits
  mem_monomials s hs m := by
    obtain ⟨-, rfl⟩ := mul?_eq_some_iff.mp hs
    exact mem_monomials_mul

theorem mulLaws_mulWrapped (p q r : Polynomial Rat) :
    MulLaws (fun p q => some (p.mulWrapped q)) p q r where
  comm := congrArg some (mulWrapped_comm p q)
  assoc _ _ := congrArg some (mulWrapped_assoc p q r)
  assoc_of_some s t u v hs ht hu hv := by
    cases hs
    cases ht
    cases hu
    cases hv
    exact mulWrapped_assoc p q r
  mul_add := congrArg some (mulWrapped_add p q r)
  add_mul := by
    rw [mulWrapped_comm, mulWrapped_add, mulWrapped_comm r p, mulWrapped_comm r q]
    rfl
  one_mul hp := congrArg some (one_mulWrapped hp)
  mul_one hp := congrArg some ((mulWrapped_comm p _).trans (one_mulWrapped hp))
  empty_mul := congrArg some (empty_mulWrapped p)
  mul_empty := congrArg some ((mulWrapped_comm p ∅).trans (empty_mulWrapped p))
  fitsUnsigned s hs := by
    cases hs
    exact fitsUnsigned_wrap (p * q)
  mem_monomials s hs m := by
    cases hs
    rw [mulWrapped, monomials_wrap]
    exact mem_monomials_mul

/-- Polynomials form a commutative semiring, whether a product that overflows is missing or has
its exponents wrapped. The terms of either summand may be added to the other one, and terms
may be collected in any order. A product overflows exactly if two power products in the weights
of its factors do. -/
theorem semiring_laws (p q r : Polynomial Rat) :
    (p + q = q + p ∧ p + q + r = p + (q + r) ∧
      p.addTerms q.terms.entries = p + q ∧ q.addTerms p.terms.entries = p + q ∧
      ∅ + p = p ∧ p + ∅ = p) ∧
    ((p + q).FitsUnsigned ↔ p.FitsUnsigned ∧ q.FitsUnsigned) ∧
    (∀ m, m ∈ (p + q).monomials ↔ m ∈ p.monomials ∨ m ∈ q.monomials) ∧
    MulLaws mul? p q r ∧ MulLaws (fun p q => some (p.mulWrapped q)) p q r ∧
    (p.mul? q = none ↔ ∃ i ∈ p.powerProducts, ∃ j ∈ q.powerProducts, ¬ (i * j).FitsUnsigned) ∧
    (∀ s, p.mul? q = some s → s = p * q ∧ s = p.mulWrapped q) ∧
    (p.mulWrapped q).mulWrapped r = p.mulWrapped (q.mulWrapped r) ∧
    ∀ l l' : List (Monomial × Weight Rat), l.Perm l' → ofList l = ofList l' := by
  refine ⟨⟨add_comm p q, add_assoc p q r, addTerms_entries p q, ?_, zero_add p, add_zero p⟩,
    fitsUnsigned_add, fun m => mem_monomials_add, mulLaws_mul? p q r, mulLaws_mulWrapped p q r,
    mul?_eq_none_iff, ?_, mulWrapped_assoc p q r, fun l l' => ofList_eq_of_perm⟩
  · exact (addTerms_entries q p).trans (add_comm q p)
  · intro s hs
    obtain ⟨hfits, rfl⟩ := mul?_eq_some_iff.mp hs
    exact ⟨rfl, (wrap_of_fitsUnsigned hfits).symm⟩

/-- Numbers that cancel, and a placeholder that a number joins. -/
def cancellingTerms : List (Monomial × Weight Rat) :=
  [(.ofList ["x"], .number 2), (.ofList ["x", "y"], .placeholder "M"),
    (.ofList ["x"], .number (-2)), (.ofList ["x", "y"], .number 1)]

def largePower : Polynomial Rat :=
  constant (.symbolic (Coefficient.ofList [(.ofList [("w", 4294967294)], 1)]))

/-- The exponent can be raised once. Raised twice, in whatever order, it overflows or is wrapped;
multiplied by the empty polynomial first, the product is empty. Collected from either end, the
cancelling terms leave a monomial with weight 0. -/
theorem semiring_laws_largePower :
    let w : Polynomial Rat := constant (.placeholder "w")
    (∃ s, largePower.mul? w = some s ∧ s.powerProducts = [.ofList [("w", 4294967295)]] ∧
      s.mul? w = none ∧ (s.mul? w).bind (·.mul? ∅) = none ∧ (w.mul? ∅).bind s.mul? = some ∅) ∧
    (largePower.mul? w).bind (·.mul? w) = none ∧ (w.mul? w).bind largePower.mul? = none ∧
    (largePower.mulWrapped w).mulWrapped w = largePower.mulWrapped (w.mulWrapped w) ∧
    ((largePower.mulWrapped w).mulWrapped w).powerProducts.map (·.exponents.entries) =
      [[("w", 0)]] ∧
    (constant (.number 1)).mul? largePower = some largePower ∧
    ofList cancellingTerms = ofList cancellingTerms.reverse ∧
    ((ofList cancellingTerms).weight? (.ofList ["x"])).bind Weight.number? = some 0 ∧
    (ofList cancellingTerms).monomials = [.ofList ["x"], .ofList ["x", "y"]] := by
  intro w
  have hlarge : largePower.HasTerms :=
    ⟨⟨1, by decide +kernel⟩, fun e he => List.mem_singleton.mp he ▸ ⟨_, List.mem_singleton.mpr rfl⟩⟩
  have hw : w.HasTerms :=
    ⟨⟨1, by decide +kernel⟩, fun e he => List.mem_singleton.mp he ▸ ⟨_, List.mem_singleton.mpr rfl⟩⟩
  obtain ⟨-, -, -, hlaws, -, -, -, hwrapped, hperm⟩ := semiring_laws largePower w w
  obtain ⟨-, -, -, -, -, hnone, -⟩ := semiring_laws (largePower * w) w w
  obtain ⟨-, -, -, hempty, -⟩ := semiring_laws w ∅ ∅
  obtain ⟨-, -, -, hempty', -⟩ := semiring_laws (largePower * w) ∅ ∅
  have hfirst : largePower.mul? w = some (largePower * w) := if_pos (by decide +kernel)
  have hsecond : (largePower * w).mul? w = none :=
    hnone.mpr ⟨.ofList [("w", 4294967295)], by decide +kernel, .placeholder "w",
      by decide +kernel, by decide +kernel⟩
  have hleft : (largePower.mul? w).bind (·.mul? w) = none := by
    rw [hfirst, Option.bind_some, hsecond]
  refine ⟨⟨largePower * w, hfirst, by decide +kernel, hsecond, by rw [hsecond]; rfl, ?_⟩, hleft,
    (hlaws.assoc hlarge hw).symm.trans hleft, hwrapped, by decide +kernel,
    hlaws.one_mul (by decide +kernel), hperm _ _ (List.reverse_perm _).symm, by decide +kernel,
    by decide +kernel⟩
  rw [hempty.mul_empty, Option.bind_some, hempty'.mul_empty]

end Polynomial

end PseudoBoolean
