import PseudoBoolean.Scalar
import PseudoBoolean.Table

/-! # Power products of placeholders

A placeholder may take any value, so a product of placeholders keeps an exponent for
each. Power products are ordered like their ascending lists of labels and exponents.

Exponents add up exactly here. They are meant as unsigned words of 32 bits, and a sum of
exponents that is no such word is an overflow; `PowerProduct.FitsUnsigned` excludes it.
-/

namespace PseudoBoolean

/-- Placeholder values, by label. -/
abbrev Feed (α : Type) := Table String α

/-- A product of powers of placeholders, given by the exponents. -/
@[ext] structure PowerProduct where
  exponents : Table String Nat
deriving DecidableEq

namespace PowerProduct

instance : Ord PowerProduct :=
  ⟨fun p q => List.compareLex comparePairs p.exponents.entries q.exponents.entries⟩

instance : Std.TransOrd PowerProduct :=
  have order : Std.TransCmp (List.compareLex (comparePairs : String × Nat → _ → _)) := inferInstance
  { eq_swap := order.eq_swap, isLE_trans := order.isLE_trans }

instance : Std.LawfulEqOrd PowerProduct :=
  have order : Std.LawfulEqCmp (List.compareLex (comparePairs : String × Nat → _ → _)) :=
    inferInstance
  { eq_of_compare := fun h => PowerProduct.ext (Table.ext (order.eq_of_compare h)) }

instance : One PowerProduct := ⟨⟨∅⟩⟩

def mulPower (p : PowerProduct) (label : String) (exponent : Nat) : PowerProduct :=
  ⟨p.exponents.upsert label fun old => old.getD 0 + exponent⟩

instance : Mul PowerProduct :=
  ⟨fun p q => q.exponents.entries.foldl (fun p e => p.mulPower e.1 e.2) p⟩

/-- The product of the powers in a list. An exponent 0 leaves no factor, and the
exponents of a placeholder that occurs repeatedly add up. -/
def ofList (l : List (String × Nat)) : PowerProduct :=
  (l.filter fun e => e.2 ≠ 0).foldl (fun p e => p.mulPower e.1 e.2) 1

def placeholder (label : String) : PowerProduct := ofList [(label, 1)]

def isConstant (p : PowerProduct) : Bool := p.exponents.isEmpty

/-- An exponent as the power is taken with: a signed word of 32 bits, so that from
`2 ^ 31` on it is negative. -/
def wordExponent (exponent : Nat) : Int := (exponent : Int).bmod 4294967296

/-- The value of the product; the first label that the feed lacks fails. -/
def eval {α : Type} [Scalar α] (feed : Feed α) (p : PowerProduct) : Except EvalError α :=
  p.exponents.entries.foldlM
    (fun product e =>
      match feed.find? e.1 with
      | some x => .ok (product * Scalar.power x (wordExponent e.2))
      | none => .error (.missingPlaceholder e.1))
    1

def text (p : PowerProduct) : String :=
  if p.isConstant then "const"
  else String.intercalate "*" (p.exponents.entries.map fun e => e.1 ++ "^" ++ toString e.2)

end PowerProduct

end PseudoBoolean
