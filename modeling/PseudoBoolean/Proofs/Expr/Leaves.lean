import PseudoBoolean.Expr.Basic

/-! # Leaves of expressions

What an expression reads from its surroundings stands at its leaves: the variables and
the placeholders.
-/

namespace PseudoBoolean.Expr

variable {α : Type}

mutual

/-- The leaves from left to right. -/
def leaves : Expr α → List (Expr α)
  | num x => [num x]
  | var d v => [var d v]
  | placeholder p => [placeholder p]
  | product l r => leaves l ++ leaves r
  | sum terms => termLeaves terms
  | constraint _ e | named _ e => leaves e
  | penalized _ e p => leaves e ++ leaves p

def termLeaves : List (Expr α) → List (Expr α)
  | [] => []
  | e :: rest => leaves e ++ termLeaves rest

end

theorem mem_termLeaves {terms : List (Expr α)} {leaf : Expr α} :
    leaf ∈ termLeaves terms ↔ ∃ e ∈ terms, leaf ∈ e.leaves := by
  induction terms with
  | nil => simp [termLeaves]
  | cons e rest ih => simp [termLeaves, ih]

/-- A leaf is a number, a variable or a placeholder. -/
theorem leaf_cases {e leaf : Expr α} (h : leaf ∈ e.leaves) :
    (∃ x, leaf = num x) ∨ (∃ d v, leaf = var d v) ∨ ∃ p, leaf = placeholder p := by
  induction e using Expr.induction with
  | num x => exact .inl ⟨x, List.mem_singleton.mp h⟩
  | var d v => exact .inr (.inl ⟨d, v, List.mem_singleton.mp h⟩)
  | placeholder p => exact .inr (.inr ⟨p, List.mem_singleton.mp h⟩)
  | product l r ihl ihr => exact (List.mem_append.mp h).elim ihl ihr
  | sum terms ih =>
    obtain ⟨e, he, hleaf⟩ := mem_termLeaves.mp h
    exact ih e he hleaf
  | constraint label e ih => exact ih h
  | named name e ih => exact ih h
  | penalized label e p ihe ihp => exact (List.mem_append.mp h).elim ihe ihp

def labels (e : Expr α) : List String :=
  e.leaves.filterMap fun
    | var _ v => some v.label
    | _ => none

def placeholders (e : Expr α) : List String :=
  e.leaves.filterMap fun
    | placeholder p => some p
    | _ => none

theorem mem_labels {e : Expr α} {label : String} :
    label ∈ e.labels ↔ ∃ d v, var d v ∈ e.leaves ∧ v.label = label := by
  rw [labels, List.mem_filterMap]
  constructor
  · rintro ⟨leaf, hleaf, h⟩
    cases leaf <;> cases h
    exact ⟨_, _, hleaf, rfl⟩
  · rintro ⟨d, v, hleaf, rfl⟩
    exact ⟨var d v, hleaf, rfl⟩

theorem mem_placeholders {e : Expr α} {label : String} :
    label ∈ e.placeholders ↔ placeholder label ∈ e.leaves := by
  rw [placeholders, List.mem_filterMap]
  constructor
  · rintro ⟨leaf, hleaf, h⟩
    cases leaf <;> cases h
    exact hleaf
  · intro hleaf
    exact ⟨placeholder label, hleaf, rfl⟩

end PseudoBoolean.Expr
