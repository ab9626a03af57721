import Mathlib
import PseudoBoolean.Proofs.Table.Sum
import PseudoBoolean.Weight

/-! # Sums of weights

Over the rationals the addition of coefficients is that of their tables, and weights add
up in any order to the same weight, whether they are numbers or symbolic: a number that
meets a coefficient joins its constant term.
-/

namespace PseudoBoolean

namespace Coefficient

theorem addTerm_eq (c : Coefficient Rat) (p : PowerProduct) (x : Rat) :
    c.addTerm p x = ⟨c.terms.addAt p x⟩ := congrArg mk (c.terms.upsert_getD_add p x)

theorem addTerms_eq (c : Coefficient Rat) (l : List (PowerProduct × Rat)) :
    c.addTerms l = ⟨c.terms.addAll l⟩ := by
  induction l generalizing c with
  | nil => rfl
  | cons e rest ih =>
    have hstep : c.addTerms (e :: rest) = (c.addTerm e.1 e.2).addTerms rest := rfl
    rw [hstep, ih, addTerm_eq]
    rfl

theorem terms_add (c d : Coefficient Rat) : (c + d).terms = c.terms + d.terms :=
  congrArg terms (addTerms_eq c d.terms.entries)

theorem terms_ofList (l : List (PowerProduct × Rat)) :
    (ofList l).terms = (l.map fun e => Table.entry e.1 e.2).sum := by
  rw [ofList, addTerms_eq, Table.addAll_eq]
  exact zero_add _

theorem terms_constant (x : Rat) : (constant x).terms = Table.entry 1 x := by
  rw [constant, terms_ofList, List.map_singleton, List.sum_singleton]

theorem constant_add (x y : Rat) : constant (x + y) = constant x + constant y := by
  apply Coefficient.ext
  rw [terms_add, terms_constant, terms_constant, terms_constant, Table.entry_add]

instance : AddCommSemigroup (Coefficient Rat) where
  add_assoc c d e := by
    apply Coefficient.ext
    rw [terms_add, terms_add, terms_add, terms_add, add_assoc]
  add_comm c d := by
    apply Coefficient.ext
    rw [terms_add, terms_add, add_comm]

end Coefficient

namespace Weight

/-- A weight is known from the number it is, if it is one, and from its coefficient. -/
theorem eq_of_toCoefficient_eq {v w : Weight Rat} (hnumber : v.number? = w.number?)
    (hcoefficient : v.toCoefficient = w.toCoefficient) : v = w := by
  cases v with
  | number x =>
    cases w with
    | number y => exact congrArg number (Option.some.inj hnumber)
    | symbolic d => cases hnumber
  | symbolic c =>
    cases w with
    | number y => cases hnumber
    | symbolic d => exact congrArg symbolic hcoefficient

theorem number?_add (v w : Weight Rat) :
    (v + w).number? = Option.map₂ (· + ·) v.number? w.number? := by
  cases v <;> cases w <;> rfl

theorem toCoefficient_add (v w : Weight Rat) :
    (v + w).toCoefficient = v.toCoefficient + w.toCoefficient := by
  cases v with
  | symbolic c => rfl
  | number x =>
    cases w with
    | symbolic d => rfl
    | number y => exact Coefficient.constant_add x y

instance : AddCommSemigroup (Weight Rat) where
  add_comm v w := by
    apply eq_of_toCoefficient_eq
    · rw [number?_add, number?_add]
      exact Option.map₂_comm add_comm
    · rw [toCoefficient_add, toCoefficient_add, add_comm]
  add_assoc u v w := by
    apply eq_of_toCoefficient_eq
    · simp only [number?_add]
      exact Option.map₂_assoc add_assoc
    · simp only [toCoefficient_add, add_assoc]

end Weight

end PseudoBoolean
