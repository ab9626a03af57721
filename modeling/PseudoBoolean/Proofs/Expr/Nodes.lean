import PseudoBoolean.Proofs.Expr.Leaves
import PseudoBoolean.Proofs.Expr.Polynomial

/-! # Nodes in the order of evaluation

A node is evaluated after its parts, these from left to right, and a body before its
penalty. The nodes with a constraint label require an expression to become 0: a
constraint its body, and a penalized body its penalty. Expansion names the polynomials
of these requirements in this order.
-/

namespace PseudoBoolean.Expr

variable {α : Type}

mutual

/-- All nodes in the order of evaluation. -/
def nodes : Expr α → List (Expr α)
  | num x => [num x]
  | var d v => [var d v]
  | placeholder p => [placeholder p]
  | product l r => nodes l ++ nodes r ++ [product l r]
  | sum terms => termNodes terms ++ [sum terms]
  | constraint label e => nodes e ++ [constraint label e]
  | named name e => nodes e ++ [named name e]
  | penalized label e p => nodes e ++ nodes p ++ [penalized label e p]

def termNodes : List (Expr α) → List (Expr α)
  | [] => []
  | e :: rest => nodes e ++ termNodes rest

end

theorem mem_termNodes {terms : List (Expr α)} {n : Expr α} :
    n ∈ termNodes terms ↔ ∃ e ∈ terms, n ∈ e.nodes := by
  induction terms with
  | nil => simp [termNodes]
  | cons e rest ih => simp [termNodes, ih]

theorem self_mem_nodes (e : Expr α) : e ∈ e.nodes := by
  cases e <;> simp [nodes]

theorem mem_nodes_trans {e n k : Expr α} (hn : n ∈ e.nodes) (hk : k ∈ n.nodes) : k ∈ e.nodes := by
  induction e using Expr.induction with
  | num x => exact List.mem_singleton.mp hn ▸ hk
  | var d v => exact List.mem_singleton.mp hn ▸ hk
  | placeholder p => exact List.mem_singleton.mp hn ▸ hk
  | product l r ihl ihr =>
    simp only [nodes, List.mem_append, List.mem_singleton] at hn
    obtain (hn | hn) | rfl := hn
    · exact List.mem_append_left _ (List.mem_append_left _ (ihl hn))
    · exact List.mem_append_left _ (List.mem_append_right _ (ihr hn))
    · exact hk
  | sum terms ih =>
    simp only [nodes, List.mem_append, List.mem_singleton] at hn
    obtain hn | rfl := hn
    · obtain ⟨e, he, hn⟩ := mem_termNodes.mp hn
      exact List.mem_append_left _ (mem_termNodes.mpr ⟨e, he, ih e he hn⟩)
    · exact hk
  | constraint label e ih =>
    simp only [nodes, List.mem_append, List.mem_singleton] at hn
    obtain hn | rfl := hn
    · exact List.mem_append_left _ (ih hn)
    · exact hk
  | named name e ih =>
    simp only [nodes, List.mem_append, List.mem_singleton] at hn
    obtain hn | rfl := hn
    · exact List.mem_append_left _ (ih hn)
    · exact hk
  | penalized label e p ihe ihp =>
    simp only [nodes, List.mem_append, List.mem_singleton] at hn
    obtain (hn | hn) | rfl := hn
    · exact List.mem_append_left _ (List.mem_append_left _ (ihe hn))
    · exact List.mem_append_left _ (List.mem_append_right _ (ihp hn))
    · exact hk

theorem left_nodes_subset (l r : Expr α) : l.nodes ⊆ (product l r).nodes :=
  fun _ hn => List.mem_append_left _ (List.mem_append_left _ hn)

theorem right_nodes_subset (l r : Expr α) : r.nodes ⊆ (product l r).nodes :=
  fun _ hn => List.mem_append_left _ (List.mem_append_right _ hn)

theorem term_nodes_subset {terms : List (Expr α)} {e : Expr α} (he : e ∈ terms) :
    e.nodes ⊆ (sum terms).nodes :=
  fun _ hn => List.mem_append_left _ (mem_termNodes.mpr ⟨e, he, hn⟩)

theorem body_nodes_subset (label : String) (e p : Expr α) :
    e.nodes ⊆ (penalized label e p).nodes :=
  fun _ hn => List.mem_append_left _ (List.mem_append_left _ hn)

theorem penalty_nodes_subset (label : String) (e p : Expr α) :
    p.nodes ⊆ (penalized label e p).nodes :=
  fun _ hn => List.mem_append_left _ (List.mem_append_right _ hn)

/-! ## Requirements -/

/-- The label of a node, and the expression that it requires to become 0. -/
def requirement? : Expr α → Option (String × Expr α)
  | constraint label e => some (label, e)
  | penalized label _ p => some (label, p)
  | _ => none

def requirements (e : Expr α) : List (String × Expr α) := e.nodes.filterMap requirement?

theorem nodes_subset_of_requirement? {n p : Expr α} {label : String}
    (h : n.requirement? = some (label, p)) : p.nodes ⊆ n.nodes := by
  intro k hk
  cases n with
  | constraint label body =>
    cases h
    exact List.mem_append_left _ hk
  | penalized label body penalty =>
    cases h
    exact List.mem_append_left _ (List.mem_append_right _ hk)
  | num x => cases h
  | var d v => cases h
  | placeholder p => cases h
  | product l r => cases h
  | sum terms => cases h
  | named name body => cases h

theorem mem_labels_requirements {e : Expr α} {label : String} :
    label ∈ e.requirements.map Prod.fst
      ↔ ∃ n ∈ e.nodes, ∃ p, n.requirement? = some (label, p) := by
  simp only [requirements, List.mem_map, List.mem_filterMap, Prod.exists, exists_and_right,
    exists_eq_right]
  constructor
  · rintro ⟨p, n, hn, h⟩
    exact ⟨n, hn, p, h⟩
  · rintro ⟨n, hn, p, h⟩
    exact ⟨p, n, hn, h⟩

theorem var_mem_leaves_iff {e : Expr α} {d : Domain} {v : Variable} :
    var d v ∈ e.leaves ↔ var d v ∈ e.nodes := by
  induction e using Expr.induction with
  | num x => simp [leaves, nodes]
  | var d' v' => simp [leaves, nodes]
  | placeholder p => simp [leaves, nodes]
  | product l r ihl ihr => simp [leaves, nodes, ihl, ihr]
  | sum terms ih =>
    simp only [leaves, nodes, List.mem_append, List.mem_singleton, reduceCtorEq, or_false,
      mem_termLeaves, mem_termNodes]
    exact exists_congr fun e => and_congr_right (ih e)
  | constraint label e ih => simp [leaves, nodes, ih]
  | named name e ih => simp [leaves, nodes, ih]
  | penalized label e p ihe ihp => simp [leaves, nodes, ihe, ihp]

theorem labels_subset_of_mem_requirements {e : Expr α} {c : String × Expr α}
    (hc : c ∈ e.requirements) : c.2.labels ⊆ e.labels := by
  intro l hl
  obtain ⟨n, hn, hnc⟩ := List.mem_filterMap.mp hc
  obtain ⟨d, v, hv, rfl⟩ := mem_labels.mp hl
  have hnode := mem_nodes_trans hn (nodes_subset_of_requirement? hnc (var_mem_leaves_iff.mp hv))
  exact mem_labels.mpr ⟨d, v, var_mem_leaves_iff.mpr hnode, rfl⟩

/-- The last requirement with a label is the one that a search from the end finds. -/
theorem lookup_requirements {e n p : Expr α} {before after : List (Expr α)} {label : String}
    (hnodes : e.nodes = before ++ n :: after) (hn : n.requirement? = some (label, p))
    (hafter : ∀ k ∈ after, ∀ q, k.requirement? ≠ some (label, q)) :
    e.requirements.reverse.lookup label = some p := by
  rw [requirements, hnodes, List.filterMap_append, List.filterMap_cons_some hn,
    List.reverse_append, List.reverse_cons, List.append_assoc, List.lookup_append]
  have hnone : (after.filterMap requirement?).reverse.lookup label = none := by
    rw [List.lookup_eq_none_iff]
    intro c hc
    obtain ⟨k, hk, hkc⟩ := List.mem_filterMap.mp (List.mem_reverse.mp hc)
    rw [bne_iff_ne]
    rintro rfl
    exact hafter k hk c.2 hkc
  rw [hnone, Option.none_or, List.singleton_append, List.lookup_cons_self]

/-- Expansion names the polynomials of the requirements, in their order. -/
theorem namedPolynomials_eq [Scalar α] (e : Expr α) :
    e.namedPolynomials = e.requirements.map fun c => (c.1, c.2.polynomial) := by
  induction e using Expr.induction with
  | num x => rw [namedPolynomials]; rfl
  | var d v => rw [namedPolynomials]; rfl
  | placeholder p => rw [namedPolynomials]; rfl
  | product l r ihl ihr =>
    rw [namedPolynomials, ihl, ihr, requirements, requirements, requirements, nodes,
      List.filterMap_append, List.filterMap_append, List.map_append, List.map_append]
    exact (List.append_nil _).symm
  | sum terms ih =>
    have hterms : ∀ l : List (Expr α), (∀ e ∈ l, e.namedPolynomials
        = e.requirements.map fun c => (c.1, c.2.polynomial)) →
        termNamedPolynomials l
          = ((termNodes l).filterMap requirement?).map fun c => (c.1, c.2.polynomial) := by
      intro l
      induction l with
      | nil => exact fun _ => rfl
      | cons e rest ihrest =>
        intro h
        rw [termNamedPolynomials, termNodes, List.filterMap_append, List.map_append,
          h e List.mem_cons_self, ihrest fun d hd => h d (List.mem_cons_of_mem _ hd)]
        rfl
    rw [namedPolynomials, requirements, nodes, List.filterMap_append, List.map_append,
      hterms terms ih]
    exact (List.append_nil _).symm
  | constraint label e ih =>
    rw [namedPolynomials, ih, requirements, requirements, nodes, List.filterMap_append,
      List.map_append]
    rfl
  | named name e ih =>
    rw [namedPolynomials, ih, requirements, requirements, nodes, List.filterMap_append,
      List.map_append]
    exact (List.append_nil _).symm
  | penalized label e p ihe ihp =>
    rw [namedPolynomials, ihe, ihp, requirements, requirements, requirements, nodes,
      List.filterMap_append, List.filterMap_append, List.map_append, List.map_append]
    rfl

theorem map_fst_namedPolynomials [Scalar α] (e : Expr α) :
    e.namedPolynomials.map Prod.fst = e.requirements.map Prod.fst := by
  rw [namedPolynomials_eq, List.map_map]
  rfl

/-! ## Sums with terms -/

def isEmptySum : Expr α → Bool
  | sum [] => true
  | _ => false

/-- Whether no sum in an expression is without terms. -/
def SumsNonempty (e : Expr α) : Prop := ∀ n ∈ e.nodes, n.isEmptySum = false

instance (e : Expr α) : Decidable e.SumsNonempty :=
  inferInstanceAs (Decidable (∀ n ∈ e.nodes, n.isEmptySum = false))

theorem SumsNonempty.subset {e k : Expr α} (h : e.SumsNonempty) (hk : k.nodes ⊆ e.nodes) :
    k.SumsNonempty := fun n hn => h n (hk hn)

theorem SumsNonempty.left {l r : Expr α} (h : (product l r).SumsNonempty) : l.SumsNonempty :=
  h.subset (left_nodes_subset l r)

theorem SumsNonempty.right {l r : Expr α} (h : (product l r).SumsNonempty) : r.SumsNonempty :=
  h.subset (right_nodes_subset l r)

theorem SumsNonempty.term {terms : List (Expr α)} (h : (sum terms).SumsNonempty) {e : Expr α}
    (he : e ∈ terms) : e.SumsNonempty := h.subset (term_nodes_subset he)

theorem SumsNonempty.terms_ne_nil {terms : List (Expr α)} (h : (sum terms).SumsNonempty) :
    terms ≠ [] := by
  rintro rfl
  cases h (sum []) (self_mem_nodes _)

theorem SumsNonempty.body {label : String} {e p : Expr α}
    (h : (penalized label e p).SumsNonempty) : e.SumsNonempty :=
  h.subset (body_nodes_subset label e p)

theorem SumsNonempty.penalty {label : String} {e p : Expr α}
    (h : (penalized label e p).SumsNonempty) : p.SumsNonempty :=
  h.subset (penalty_nodes_subset label e p)

end PseudoBoolean.Expr
