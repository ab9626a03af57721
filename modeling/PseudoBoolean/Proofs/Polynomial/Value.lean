import Mathlib
import PseudoBoolean.Proofs.Polynomial.Sum
import PseudoBoolean.Proofs.Weight.Value

/-! # Values of polynomials

At an assignment of bits a monomial is 1 where all its variables are set and 0 elsewhere.
The value of a polynomial is additive, and multiplicative for valuations that respect
products. Settling the weights commutes with all operations on polynomials.
-/

namespace PseudoBoolean

def bit : Bool → Rat
  | true => 1
  | false => 0

theorem bit_and (a b : Bool) : bit (a && b) = bit a * bit b := by
  cases a <;> cases b <;> simp [bit]

namespace Monomial

/-- Whether all variables of a monomial are set. -/
def holds (z : String → Bool) (m : Monomial) : Bool := m.labels.all z

theorem holds_iff {z : String → Bool} {m : Monomial} :
    m.holds z = true ↔ ∀ l ∈ m.labels, z l = true := List.all_eq_true

theorem holds_one (z : String → Bool) : holds z 1 = true := rfl

theorem mem_labels_mul {m n : Monomial} {l : String} :
    l ∈ (m * n).labels ↔ l ∈ m.labels ∨ l ∈ n.labels := OrderedSet.mem_union

theorem holds_mul (z : String → Bool) (m n : Monomial) :
    (m * n).holds z = (m.holds z && n.holds z) := by
  rw [Bool.eq_iff_iff, Bool.and_eq_true, holds_iff, holds_iff, holds_iff]
  simp only [mem_labels_mul, or_imp, forall_and]

theorem mem_labels_ofList {l : List String} {label : String} :
    label ∈ (ofList l).labels ↔ label ∈ l := OrderedSet.mem_ofList

theorem holds_ofList (z : String → Bool) (l : List String) : (ofList l).holds z = l.all z := by
  rw [Bool.eq_iff_iff, holds_iff, List.all_eq_true]
  simp only [mem_labels_ofList]

end Monomial

namespace Polynomial

variable {z : String → Bool} {φ : PowerProduct → Rat}

def value (z : String → Bool) (φ : PowerProduct → Rat) (p : Polynomial Rat) : Rat :=
  (p.terms.entries.map fun e => bit (e.1.holds z) * e.2.value φ).sum

theorem value_single (m : Monomial) (w : Weight Rat) :
    (single m w).value z φ = bit (m.holds z) * w.value φ := by
  rw [value, terms_single, Table.entry, List.map_singleton, List.sum_singleton]

theorem value_eq_total (h1 : φ 1 = 1) (p : Polynomial Rat) :
    p.value z φ = Table.total (fun m w => bit (m.holds z) * w.value φ)
      (fun m v w => by rw [Weight.value_add h1, mul_add]) p.terms := rfl

theorem value_add (h1 : φ 1 = 1) (p q : Polynomial Rat) :
    (p + q).value z φ = p.value z φ + q.value z φ := by
  rw [value_eq_total h1, terms_add, map_add]
  rfl

theorem value_sum (h1 : φ 1 = 1) (l : List (Polynomial Rat)) :
    l.sum.value z φ = (l.map (value z φ)).sum := by
  induction l with
  | nil => rfl
  | cons p rest ih => rw [List.sum_cons, value_add h1, ih, List.map_cons, List.sum_cons]

theorem value_ofList (h1 : φ 1 = 1) (l : List (Monomial × Weight Rat)) :
    (ofList l).value z φ = (l.map fun e => bit (e.1.holds z) * e.2.value φ).sum := by
  rw [ofList_eq_sum, value_sum h1, List.map_map]
  refine congrArg List.sum (List.map_congr_left fun e _ => ?_)
  exact value_single e.1 e.2

theorem value_mul (h1 : φ 1 = 1) (hφ : ∀ p q, φ (p * q) = φ p * φ q) (p q : Polynomial Rat) :
    (p * q).value z φ = p.value z φ * q.value z φ := by
  refine (value_ofList h1 _).trans ?_
  rw [value, value, ← sum_flatMap_mul, List.map_flatMap]
  refine congrArg List.sum (List.flatMap_congr fun e _ => ?_)
  rw [List.map_map]
  refine List.map_congr_left fun f _ => ?_
  simp only [Function.comp_apply, Monomial.holds_mul, bit_and, Weight.value_mul hφ]
  ring

theorem value_rename (h1 : φ 1 = 1) (r : Monomial → Monomial) (p : Polynomial Rat) :
    (p.rename r).value z φ
      = (p.terms.entries.map fun e => bit ((r e.1).holds z) * e.2.value φ).sum := by
  rw [rename, value_ofList h1, List.map_map]
  rfl

theorem value_rename_of_holds (h1 : φ 1 = 1) {r : Monomial → Monomial} {p : Polynomial Rat}
    (h : ∀ m ∈ p.monomials, (r m).holds z = m.holds z) : (p.rename r).value z φ = p.value z φ := by
  rw [value_rename h1, value]
  refine congrArg List.sum (List.map_congr_left fun e he => ?_)
  rw [h e.1 (List.mem_map_of_mem he)]

theorem value_eq_of_agree {x : String → Bool} {p : Polynomial Rat}
    (h : ∀ m ∈ p.monomials, ∀ l ∈ m.labels, z l = x l) : p.value z φ = p.value x φ := by
  refine congrArg List.sum (List.map_congr_left fun e he => ?_)
  have hholds : e.1.holds z = e.1.holds x := by
    rw [Bool.eq_iff_iff, Monomial.holds_iff, Monomial.holds_iff]
    apply forall₂_congr
    intro l hl
    rw [h e.1 (List.mem_map_of_mem he) l hl]
  rw [hholds]

theorem value_congr {ψ : PowerProduct → Rat} {p : Polynomial Rat}
    (h : p.AllWeights fun w => w.value φ = w.value ψ) : p.value z φ = p.value z ψ := by
  refine congrArg List.sum (List.map_congr_left fun e he => ?_)
  rw [h e he]

/-! ## Settled weights -/

/-- The polynomial whose weights are the values of the weights. -/
def settle (φ : PowerProduct → Rat) (p : Polynomial Rat) : Polynomial Rat :=
  ⟨p.terms.mapValues (Weight.settle φ)⟩

theorem monomials_settle (p : Polynomial Rat) : (p.settle φ).monomials = p.monomials :=
  p.terms.keys_mapValues (Weight.settle φ)

theorem settle_add (h1 : φ 1 = 1) (p q : Polynomial Rat) :
    (p + q).settle φ = p.settle φ + q.settle φ := by
  apply Polynomial.ext
  rw [terms_add, settle, settle, settle, terms_add]
  exact Table.mapValues_add (Weight.settle_add h1) p.terms q.terms

theorem settle_ofList (h1 : φ 1 = 1) (l : List (Monomial × Weight Rat)) :
    (ofList l).settle φ = ofList (l.map fun e => (e.1, e.2.settle φ)) := by
  have hsum : ∀ l : List (Polynomial Rat), l.sum.settle φ = (l.map (settle φ)).sum := by
    intro l
    induction l with
    | nil => rfl
    | cons p rest ih => rw [List.sum_cons, settle_add h1, ih, List.map_cons, List.sum_cons]
  rw [ofList_eq_sum, hsum, ofList_eq_sum, List.map_map, List.map_map]
  rfl

theorem settle_mul (h1 : φ 1 = 1) (hφ : ∀ p q, φ (p * q) = φ p * φ q) (p q : Polynomial Rat) :
    (p * q).settle φ = p.settle φ * q.settle φ := by
  refine (settle_ofList h1 _).trans ?_
  refine congrArg ofList ?_
  rw [List.map_flatMap, settle, settle, Table.entries_mapValues, Table.entries_mapValues,
    List.flatMap_map]
  refine List.flatMap_congr fun e _ => ?_
  rw [List.map_map, List.map_map]
  refine List.map_congr_left fun f _ => ?_
  simp only [Function.comp_apply, Weight.settle_mul hφ]

theorem settle_rename (h1 : φ 1 = 1) (r : Monomial → Monomial) (p : Polynomial Rat) :
    (p.rename r).settle φ = (p.settle φ).rename r := by
  refine (settle_ofList h1 _).trans ?_
  rw [rename, settle, Table.entries_mapValues, List.map_map, List.map_map]
  rfl

theorem settle_congr {ψ : PowerProduct → Rat} {p : Polynomial Rat}
    (h : p.AllWeights fun w => w.value φ = w.value ψ) : p.settle φ = p.settle ψ :=
  congrArg mk (Table.mapValues_congr fun e he => congrArg Weight.number (h e he))

end Polynomial

end PseudoBoolean
