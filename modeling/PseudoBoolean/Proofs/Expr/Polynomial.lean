import PseudoBoolean.Expr.Expansion
import PseudoBoolean.Proofs.Table.Lookup

/-! # The polynomial of an expression

Expansion comes down to two functions of the tree alone: the polynomial of an expression
and the list of its named polynomials, a node after its parts and the parts from left to
right. Neither depends on where a sum counts as long, and no law of arithmetic is used.
-/

namespace PseudoBoolean.Expr

variable {α : Type} [Scalar α]

mutual

def polynomial : Expr α → Polynomial α
  | num x => Polynomial.constant (.number x)
  | var d v => variablePolynomial d v.label
  | placeholder p => Polynomial.constant (Weight.placeholder p)
  | product l r => polynomial l * polynomial r
  | sum terms => sumPolynomial ∅ terms
  | constraint _ e | named _ e => polynomial e
  | penalized _ e p => polynomial e + polynomial p

def sumPolynomial (p : Polynomial α) : List (Expr α) → Polynomial α
  | [] => p
  | e :: rest => sumPolynomial (p + polynomial e) rest

end

mutual

/-- The polynomials of the constraints and penalties, under their labels. -/
def namedPolynomials : Expr α → List (String × Polynomial α)
  | num _ | var _ _ | placeholder _ => []
  | product l r => namedPolynomials l ++ namedPolynomials r
  | sum terms => termNamedPolynomials terms
  | constraint label e => namedPolynomials e ++ [(label, polynomial e)]
  | named _ e => namedPolynomials e
  | penalized label e p => namedPolynomials e ++ namedPolynomials p ++ [(label, polynomial p)]

def termNamedPolynomials : List (Expr α) → List (String × Polynomial α)
  | [] => []
  | e :: rest => namedPolynomials e ++ termNamedPolynomials rest

end

theorem sumPolynomial_eq (p : Polynomial α) (terms : List (Expr α)) :
    sumPolynomial p terms = (terms.map polynomial).foldl (· + ·) p := by
  induction terms generalizing p with
  | nil => rfl
  | cons e rest ih => rw [sumPolynomial, ih, List.map_cons, List.foldl_cons]

theorem termNamedPolynomials_eq (terms : List (Expr α)) :
    termNamedPolynomials terms = terms.flatMap namedPolynomials := by
  induction terms with
  | nil => rfl
  | cons e rest ih => rw [termNamedPolynomials, ih, List.flatMap_cons]

theorem namedPolynomials_sum (terms : List (Expr α)) :
    (sum terms).namedPolynomials = terms.flatMap namedPolynomials := by
  rw [namedPolynomials, termNamedPolynomials_eq]

section
variable {threshold : Nat} {terms : List (Expr α)}

theorem expandSum_eq
    (h : ∀ e ∈ terms, ∀ table : Constraints α,
      expandInto threshold table e = (e.polynomial, table.insertAll e.namedPolynomials))
    (p : Polynomial α) (table : Constraints α) :
    expandSum threshold p table terms
      = (sumPolynomial p terms, table.insertAll (termNamedPolynomials terms)) := by
  induction terms generalizing p table with
  | nil => rfl
  | cons e rest ih =>
    rw [expandSum, h e List.mem_cons_self]
    simp only
    rw [ih fun d hd => h d (List.mem_cons_of_mem _ hd), sumPolynomial, termNamedPolynomials,
      Table.insertAll_append]

theorem expandApart_eq
    (h : ∀ e ∈ terms, ∀ table : Constraints α,
      expandInto threshold table e = (e.polynomial, table.insertAll e.namedPolynomials)) :
    expandApart threshold terms
      = terms.map fun e => (e.polynomial, Table.ofList e.namedPolynomials) := by
  induction terms with
  | nil => rfl
  | cons e rest ih =>
    rw [expandApart, h e List.mem_cons_self, ih fun d hd => h d (List.mem_cons_of_mem _ hd),
      List.map_cons]
    rfl

end

/-- Joining tables that were filled apart from each other is the same as handing one
table on. -/
theorem foldl_extend_eq (terms : List (Expr α)) (table : Constraints α) :
    (terms.map fun e => Table.ofList e.namedPolynomials).foldl Table.extend table
      = table.insertAll (termNamedPolynomials terms) := by
  induction terms generalizing table with
  | nil => rfl
  | cons e rest ih =>
    rw [List.map_cons, List.foldl_cons, ih, Table.extend_ofList, termNamedPolynomials,
      Table.insertAll_append]

theorem join_expandApart {threshold : Nat} {terms : List (Expr α)}
    (h : ∀ e ∈ terms, ∀ table : Constraints α,
      expandInto threshold table e = (e.polynomial, table.insertAll e.namedPolynomials))
    (table : Constraints α) :
    ((expandApart threshold terms).foldl (fun p part => p + part.1) ∅,
      (expandApart threshold terms).foldl (fun table part => table.extend part.2) table)
      = (sumPolynomial ∅ terms, table.insertAll (termNamedPolynomials terms)) := by
  rw [expandApart_eq h, sumPolynomial_eq, ← foldl_extend_eq]
  simp only [List.foldl_map]

theorem expandInto_eq (threshold : Nat) (e : Expr α) (table : Constraints α) :
    expandInto threshold table e = (e.polynomial, table.insertAll e.namedPolynomials) := by
  induction e using Expr.induction generalizing table with
  | num x => rw [expandInto, polynomial, namedPolynomials]; rfl
  | var d v => rw [expandInto, polynomial, namedPolynomials]; rfl
  | placeholder p => rw [expandInto, polynomial, namedPolynomials]; rfl
  | product l r ihl ihr =>
    rw [expandInto, ihl, polynomial, namedPolynomials, Table.insertAll_append]
    simp only
    rw [ihr]
  | sum terms ih =>
    rw [expandInto, polynomial, namedPolynomials]
    split
    -- A long sum fills a table for each term, and joins them in order.
    · exact join_expandApart ih table
    · exact expandSum_eq ih ∅ table
  | constraint label e ih =>
    rw [expandInto, ih, polynomial, namedPolynomials, Table.insertAll_append]
    rfl
  | named name e ih => rw [expandInto, ih, polynomial, namedPolynomials]
  | penalized label e p ihe ihp =>
    rw [expandInto, ihe, polynomial, namedPolynomials, Table.insertAll_append,
      Table.insertAll_append]
    simp only
    rw [ihp]
    rfl

theorem expand_eq (threshold : Nat) (e : Expr α) :
    e.expand threshold = (e.polynomial, Table.ofList e.namedPolynomials) :=
  expandInto_eq threshold e ∅

end PseudoBoolean.Expr
