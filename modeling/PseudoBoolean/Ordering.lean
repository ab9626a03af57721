/-! # Orders on pairs and ascending lists

Tables keyed by pairs, and monomials that are lists of pairs, are ordered by
the first component and then by the second. Sets and tables are kept as lists in
strictly ascending order, and such a list is determined by its members.
-/

namespace PseudoBoolean

variable {α β : Type} [Ord α]

/-- Compares the first components, and the second ones where the first agree. -/
def comparePairs [Ord β] : α × β → α × β → Ordering :=
  compareLex (compareOn Prod.fst) (compareOn Prod.snd)

instance [Ord β] [Std.TransOrd α] [Std.TransOrd β] :
    Std.TransCmp (comparePairs : α × β → α × β → Ordering) :=
  inferInstanceAs (Std.TransCmp (compareLex (compareOn Prod.fst) (compareOn Prod.snd)))

instance [Ord β] [Std.LawfulEqOrd α] [Std.LawfulEqOrd β] :
    Std.LawfulEqCmp (comparePairs : α × β → α × β → Ordering) where
  compare_self := by simp [comparePairs, compareLex, compareOn]
  eq_of_compare {p q} h := by
    simp only [comparePairs, compareLex, compareOn, Ordering.then_eq_eq] at h
    exact Prod.ext (Std.LawfulEqOrd.eq_of_compare h.1) (Std.LawfulEqOrd.eq_of_compare h.2)

/-- Strictly ascending lists with the same members are equal, by whatever key their members
are ordered. -/
theorem eq_of_ascending [Std.TransOrd α] (key : β → α) {l m : List β}
    (hl : l.Pairwise fun x y => compare (key x) (key y) = .lt)
    (hm : m.Pairwise fun x y => compare (key x) (key y) = .lt) (h : ∀ x, x ∈ l ↔ x ∈ m) :
    l = m := by
  have asymm : ∀ x y : β, compare (key x) (key y) = .lt → ¬ compare (key y) (key x) = .lt := by
    intro x y hxy hyx
    simpa using Std.TransCmp.lt_trans hxy hyx
  have nodup : ∀ {l : List β}, (l.Pairwise fun x y => compare (key x) (key y) = .lt) → l.Nodup := by
    intro l hl
    refine hl.imp fun {x y} hxy heq => ?_
    rw [heq] at hxy
    exact asymm y y hxy hxy
  have hperm : l.Perm m := (List.perm_ext_iff_of_nodup (nodup hl) (nodup hm)).mpr h
  exact hperm.eq_of_pairwise (fun x y _ _ hxy hyx => absurd hyx (asymm x y hxy)) hl hm

end PseudoBoolean
