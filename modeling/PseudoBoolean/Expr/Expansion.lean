import PseudoBoolean.Expr.Basic
import PseudoBoolean.Polynomial

/-! # Expansion

Expansion turns an expression into a polynomial and collects the polynomials of its
named constraints in a table, where the last constraint of a name stays. A sum with few
terms hands the table on from term to term. The terms of a long sum are expanded apart
from each other, each into a table of its own, and the tables are joined afterwards.
-/

namespace PseudoBoolean.Expr

variable {α : Type} [Scalar α]

/-- A variable as a polynomial in its bit: a spin is twice the bit less one. -/
def variablePolynomial : Domain → String → Polynomial α
  | .binary, label => Polynomial.single (Monomial.ofList [label]) (.number 1)
  | .spin, label =>
    (Polynomial.single (Monomial.ofList [label]) (.number ((2 : Nat) : α))).addTerm 1 (.number (-1))

mutual

/-- The polynomial of an expression, and the table with its constraints entered. Sums of
at least `threshold` terms are long. -/
def expandInto (threshold : Nat) (table : Constraints α) :
    Expr α → Polynomial α × Constraints α
  | num x => (Polynomial.constant (.number x), table)
  | var d v => (variablePolynomial d v.label, table)
  | placeholder p => (Polynomial.constant (Weight.placeholder p), table)
  | product l r =>
    let (p, table) := expandInto threshold table l
    let (q, table) := expandInto threshold table r
    (p * q, table)
  | sum terms =>
    if threshold ≤ terms.length then
      let parts := expandApart threshold terms
      (parts.foldl (fun p part => p + part.1) ∅,
        parts.foldl (fun table part => table.extend part.2) table)
    else expandSum threshold ∅ table terms
  | constraint label e =>
    let (p, table) := expandInto threshold table e
    (p, table.insert label p)
  | named _ e => expandInto threshold table e
  | penalized label e penalty =>
    let (p, table) := expandInto threshold table e
    let (q, table) := expandInto threshold table penalty
    (p + q, table.insert label q)

/-- Adds the polynomials of terms to `p`, the table going on from term to term. -/
def expandSum (threshold : Nat) (p : Polynomial α) (table : Constraints α) :
    List (Expr α) → Polynomial α × Constraints α
  | [] => (p, table)
  | e :: rest =>
    let (q, table) := expandInto threshold table e
    expandSum threshold (p + q) table rest

def expandApart (threshold : Nat) : List (Expr α) → List (Polynomial α × Constraints α)
  | [] => []
  | e :: rest => expandInto threshold ∅ e :: expandApart threshold rest

end

def expand (threshold : Nat) (e : Expr α) : Polynomial α × Constraints α :=
  expandInto threshold ∅ e

end PseudoBoolean.Expr
