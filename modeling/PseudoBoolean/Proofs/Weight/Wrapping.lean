import Mathlib
import PseudoBoolean.Proofs.Weight.Operations

/-! # Exponents modulo a power of two

Exponents that have been added up may be reduced to unsigned words of 32 bits, where power
products that become alike join their coefficients. Reduction respects sums, and of a
product it makes no difference whether a factor has been reduced before. What has no other
exponents is left alone.
-/

namespace PseudoBoolean

namespace PowerProduct

variable {p : PowerProduct}

instance : DecidablePred FitsUnsigned :=
  fun p => inferInstanceAs (Decidable (p.exponents.AllValues _))

/-- The exponents modulo `2 ^ 32`. A placeholder whose exponent becomes 0 is kept. -/
def wrap (p : PowerProduct) : PowerProduct := ⟨p.exponents.mapValues (· % 2 ^ 32)⟩

theorem fitsUnsigned_wrap (p : PowerProduct) : p.wrap.FitsUnsigned := by
  intro e he
  obtain ⟨d, -, rfl⟩ := List.mem_map.mp he
  exact Nat.mod_lt _ (by decide)

theorem wrap_of_fitsUnsigned (h : p.FitsUnsigned) : p.wrap = p := by
  apply PowerProduct.ext
  apply Table.ext
  refine (List.map_congr_left fun e he => ?_).trans (List.map_id _)
  exact Prod.ext rfl (Nat.mod_eq_of_lt (h e he))

theorem wrap_wrap_mul (p q : PowerProduct) : (p.wrap * q).wrap = (p * q).wrap := by
  apply PowerProduct.ext
  apply Table.ext_find?
  intro l
  simp only [wrap, exponents_mul, Table.find?_mapValues, Table.find?_add]
  cases p.exponents.find? l <;> cases q.exponents.find? l <;> simp

end PowerProduct

namespace Coefficient

variable {c : Coefficient Rat}

def wrap (c : Coefficient Rat) : Coefficient Rat :=
  ofList (c.terms.entries.map fun e => (e.1.wrap, e.2))

def wrapTerms : Table PowerProduct Rat →+ Table PowerProduct Rat :=
  Table.total (fun p x => Table.entry p.wrap x) fun p x y => Table.entry_add p.wrap x y

theorem terms_wrap (c : Coefficient Rat) : c.wrap.terms = wrapTerms c.terms := by
  rw [wrap, terms_ofList, List.map_map]
  rfl

theorem wrap_ofList (l : List (PowerProduct × Rat)) :
    (ofList l).wrap = ofList (l.map fun e => (e.1.wrap, e.2)) := by
  apply Coefficient.ext
  rw [terms_wrap, terms_ofList, terms_ofList, map_list_sum, List.map_map, List.map_map]
  rfl

/-- Exponents may be reduced at once where terms are multiplied. -/
theorem wrap_mul (c d : Coefficient Rat) : (c * d).wrap = ofList (c.terms.entries.flatMap fun e =>
    d.terms.entries.map fun f => ((e.1 * f.1).wrap, e.2 * f.2)) := by
  refine (wrap_ofList _).trans (congrArg ofList ?_)
  simp only [List.map_flatMap, List.map_map, Function.comp_def]

theorem mem_keys_wrap {p : PowerProduct} :
    p ∈ c.wrap.terms.keys ↔ ∃ q ∈ c.terms.keys, p = q.wrap := by
  refine mem_keys_ofList.trans ?_
  simp only [Table.keys, List.mem_map, exists_exists_and_eq_and]
  simp only [eq_comm]

theorem wrap_of_fitsUnsigned (h : ∀ p ∈ c.terms.keys, p.FitsUnsigned) : c.wrap = c := by
  apply Coefficient.ext
  rw [terms_wrap, wrapTerms, Table.total_apply]
  refine Eq.trans ?_ c.terms.sum_entries
  apply congrArg List.sum
  apply List.map_congr_left
  intro e he
  rw [PowerProduct.wrap_of_fitsUnsigned (h e.1 (List.mem_map_of_mem he))]

theorem wrap_constant (x : Rat) : (constant x).wrap = constant x := by
  apply wrap_of_fitsUnsigned
  intro p hp
  rw [mem_keys_constant.mp hp]
  exact fun e he => absurd he List.not_mem_nil

theorem wrap_add (c d : Coefficient Rat) : (c + d).wrap = c.wrap + d.wrap := by
  apply Coefficient.ext
  rw [terms_wrap, terms_add, terms_add, terms_wrap, terms_wrap, map_add]

theorem wrap_wrap_mul (c d : Coefficient Rat) : (c.wrap * d).wrap = (c * d).wrap := by
  apply Coefficient.ext
  rw [terms_wrap, terms_wrap, terms_mul, terms_mul, terms_wrap]
  exact Table.map_map_mul (f := id) (Table.total_entry _ _) PowerProduct.wrap_wrap_mul
    (fun _ _ => rfl) c.terms d.terms

end Coefficient

namespace Weight

variable {v w : Weight Rat}

def wrap : Weight Rat → Weight Rat
  | number x => number x
  | symbolic c => symbolic c.wrap

theorem number?_wrap (w : Weight Rat) : w.wrap.number? = w.number? := by
  cases w <;> rfl

theorem toCoefficient_wrap (w : Weight Rat) : w.wrap.toCoefficient = w.toCoefficient.wrap := by
  cases w with
  | number x => exact (Coefficient.wrap_constant x).symm
  | symbolic c => rfl

theorem wrap_of_fitsUnsigned (h : ∀ p ∈ w.toCoefficient.terms.keys, p.FitsUnsigned) :
    w.wrap = w := by
  apply eq_of_toCoefficient_eq (number?_wrap w)
  rw [toCoefficient_wrap, Coefficient.wrap_of_fitsUnsigned h]

theorem wrap_add (v w : Weight Rat) : (v + w).wrap = v.wrap + w.wrap := by
  apply eq_of_toCoefficient_eq
  · rw [number?_wrap, number?_add, number?_add, number?_wrap, number?_wrap]
  · rw [toCoefficient_wrap, toCoefficient_add, toCoefficient_add, toCoefficient_wrap,
      toCoefficient_wrap, Coefficient.wrap_add]

theorem wrap_wrap_mul (v w : Weight Rat) : (v.wrap * w).wrap = (v * w).wrap := by
  apply eq_of_toCoefficient_eq
  · rw [number?_wrap, number?_wrap, number?_mul, number?_mul, number?_wrap]
  · rw [toCoefficient_wrap, toCoefficient_wrap, toCoefficient_mul, toCoefficient_mul,
      toCoefficient_wrap, Coefficient.wrap_wrap_mul]

end Weight

end PseudoBoolean
