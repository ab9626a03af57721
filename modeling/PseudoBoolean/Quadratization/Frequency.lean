import PseudoBoolean.Cell
import PseudoBoolean.Polynomial

/-! # Frequent pairs of factors

Two variables that are factors of the same monomial of degree above 2 form a pair. The
pair that occurs in the most such monomials is found by counting.
-/

namespace PseudoBoolean

/-- The pairs of an element with a later one, in the order of the list. -/
def pairsOf {κ : Type} : List κ → List (Cell κ)
  | [] => []
  | x :: rest => rest.map (fun y => ⟨x, y⟩) ++ pairsOf rest

def tally (l : List (Cell String)) : Table (Cell String) Nat :=
  l.foldl (fun t c => t.upsert c fun old => old.getD 0 + 1) ∅

/-- Keeps the entry with the higher count, the earlier one of two with the same. -/
def moreFrequent (best? : Option (Cell String × Nat)) (e : Cell String × Nat) :
    Option (Cell String × Nat) :=
  match best? with
  | some best => if e.2 ≤ best.2 then some best else some e
  | none => some e

def mostFrequent? (l : List (Cell String × Nat)) : Option (Cell String × Nat) :=
  l.foldl moreFrequent none

namespace Polynomial

variable {α : Type}

/-- The pairs of factors in the monomials of degree above 2, in the order of these. -/
def highPairs (p : Polynomial α) : List (Cell String) :=
  (p.monomials.filter fun m => 2 < m.degree).flatMap fun m => pairsOf m.labels

/-- The pair that occurs in the most monomials of degree above 2, the smallest one of
several such, and the number of these monomials. -/
def commonestPair? (p : Polynomial α) : Option (Cell String × Nat) :=
  mostFrequent? (tally p.highPairs).entries

end Polynomial

end PseudoBoolean
