import Mathlib
import PseudoBoolean.Expr.Equality
import PseudoBoolean.Proofs.Expr.Nodes

/-! # Equality of expressions

Two expressions are equal if their roots are of one kind and the parts match: those of a
product in one of two ways, and each term of a sum with some term of the other one. So
equality is symmetric and transitive if that of the numbers is, and an expression is
equal to itself exactly if its numbers are.
-/

namespace PseudoBoolean

theorem Variable.beq_iff {v w : Variable} : (v == w) = true ↔ v.label = w.label := by
  show (v.label == w.label) = true ↔ _
  exact beq_iff_eq

namespace Expr

variable {α : Type} [Scalar α]

theorem allIn_iff {v w : List (Expr α)} :
    allIn v w = true ↔ ∀ e ∈ v, ∃ d ∈ w, (e == d) = true := by
  induction v with
  | nil => simp [allIn]
  | cons e rest ih =>
    rw [allIn, Bool.and_eq_true, ih, List.any_eq_true, List.forall_mem_cons]
    rfl

theorem hasEqual_iff {v : List (Expr α)} {d : Expr α} :
    hasEqual v d = true ↔ ∃ e ∈ v, (e == d) = true := by
  induction v with
  | nil => simp [hasEqual]
  | cons e rest ih =>
    rw [hasEqual, Bool.or_eq_true, ih, List.exists_mem_cons_iff]
    rfl

/-- Roots of one kind, and parts that match. -/
inductive Matches : Expr α → Expr α → Prop where
  | num {x y : α} : (x == y) = true → Matches (num x) (num y)
  | var {d : Domain} {v w : Variable} : v.label = w.label → Matches (var d v) (var d w)
  | placeholder {label : String} : Matches (placeholder label) (placeholder label)
  | product {l r l' r' : Expr α} : (l == l') = true → (r == r') = true →
      Matches (product l r) (product l' r')
  | swapped {l r l' r' : Expr α} : (l == r') = true → (r == l') = true →
      Matches (product l r) (product l' r')
  | sum {v w : List (Expr α)} : (∀ e ∈ v, ∃ d ∈ w, (e == d) = true) →
      (∀ d ∈ w, ∃ e ∈ v, (e == d) = true) → Matches (sum v) (sum w)
  | constraint {label : String} {e e' : Expr α} : (e == e') = true →
      Matches (constraint label e) (constraint label e')
  | named {name : String} {e e' : Expr α} : (e == e') = true →
      Matches (named name e) (named name e')
  | penalized {label : String} {e p e' p' : Expr α} : (e == e') = true → (p == p') = true →
      Matches (penalized label e p) (penalized label e' p')

theorem Matches.beq {a b : Expr α} (h : Matches a b) : (a == b) = true := by
  show Expr.beq a b = true
  cases h with
  | num h => exact h
  | var h =>
    rw [Expr.beq, Bool.and_eq_true]
    exact ⟨beq_self_eq_true _, Variable.beq_iff.mpr h⟩
  | @placeholder label => exact beq_self_eq_true label
  | product hl hr =>
    rw [Expr.beq, Bool.or_eq_true, Bool.and_eq_true]
    exact .inl ⟨hl, hr⟩
  | swapped hl hr =>
    rw [Expr.beq, Bool.or_eq_true, Bool.and_eq_true, Bool.and_eq_true]
    exact .inr ⟨hl, hr⟩
  | sum hv hw =>
    rw [Expr.beq, Bool.and_eq_true, allIn_iff, List.all_eq_true]
    exact ⟨hv, fun d hd => hasEqual_iff.mpr (hw d hd)⟩
  | constraint h =>
    rw [Expr.beq, Bool.and_eq_true]
    exact ⟨beq_self_eq_true _, h⟩
  | named h =>
    rw [Expr.beq, Bool.and_eq_true]
    exact ⟨beq_self_eq_true _, h⟩
  | penalized he hp =>
    rw [Expr.beq, Bool.and_eq_true, Bool.and_eq_true]
    exact ⟨⟨beq_self_eq_true _, he⟩, hp⟩

theorem Matches.of_beq {a b : Expr α} (h : (a == b) = true) : Matches a b := by
  change Expr.beq a b = true at h
  unfold Expr.beq at h
  split at h
  · exact .num h
  · next d v d' v' =>
    obtain ⟨hd, hv⟩ := Bool.and_eq_true_iff.mp h
    rw [← beq_iff_eq.mp hd]
    exact .var (Variable.beq_iff.mp hv)
  · rw [beq_iff_eq.mp h]
    exact .placeholder
  · simp only [Bool.or_eq_true, Bool.and_eq_true] at h
    obtain ⟨hl, hr⟩ | ⟨hl, hr⟩ := h
    · exact .product hl hr
    · exact .swapped hl hr
  · obtain ⟨hv, hw⟩ := Bool.and_eq_true_iff.mp h
    exact .sum (allIn_iff.mp hv) fun d hd => hasEqual_iff.mp (List.all_eq_true.mp hw d hd)
  · obtain ⟨hlabel, he⟩ := Bool.and_eq_true_iff.mp h
    rw [beq_iff_eq.mp hlabel]
    exact .constraint he
  · obtain ⟨hname, he⟩ := Bool.and_eq_true_iff.mp h
    rw [beq_iff_eq.mp hname]
    exact .named he
  · simp only [Bool.and_eq_true] at h
    obtain ⟨⟨hlabel, he⟩, hp⟩ := h
    rw [beq_iff_eq.mp hlabel]
    exact .penalized he hp
  · cases h

variable [PartialEquivBEq α]

theorem beq_symm {a b : Expr α} (h : (a == b) = true) : (b == a) = true := by
  induction a using Expr.induction generalizing b with
  | num x =>
    cases Matches.of_beq h with
    | num hx => exact (Matches.num (BEq.symm hx)).beq
  | var d v =>
    cases Matches.of_beq h with
    | var hv => exact (Matches.var hv.symm).beq
  | placeholder label =>
    cases Matches.of_beq h with
    | placeholder => exact Matches.placeholder.beq
  | product l r ihl ihr =>
    cases Matches.of_beq h with
    | product hl hr => exact (Matches.product (ihl hl) (ihr hr)).beq
    | swapped hl hr => exact (Matches.swapped (ihr hr) (ihl hl)).beq
  | sum v ih =>
    cases Matches.of_beq h with
    | sum hv hw =>
      refine (Matches.sum (fun d hd => ?_) fun e he => ?_).beq
      · obtain ⟨e, he, hed⟩ := hw d hd
        exact ⟨e, he, ih e he hed⟩
      · obtain ⟨d, hd, hed⟩ := hv e he
        exact ⟨d, hd, ih e he hed⟩
  | constraint label e ih =>
    cases Matches.of_beq h with
    | constraint he => exact (Matches.constraint (ih he)).beq
  | named name e ih =>
    cases Matches.of_beq h with
    | named he => exact (Matches.named (ih he)).beq
  | penalized label e p ihe ihp =>
    cases Matches.of_beq h with
    | penalized he hp => exact (Matches.penalized (ihe he) (ihp hp)).beq

theorem beq_trans {a b c : Expr α} (h : (a == b) = true) (h' : (b == c) = true) :
    (a == c) = true := by
  induction a using Expr.induction generalizing b c with
  | num x =>
    cases Matches.of_beq h with
    | num hx =>
      cases Matches.of_beq h' with
      | num hx' => exact (Matches.num (BEq.trans hx hx')).beq
  | var d v =>
    cases Matches.of_beq h with
    | var hv =>
      cases Matches.of_beq h' with
      | var hv' => exact (Matches.var (hv.trans hv')).beq
  | placeholder label =>
    cases Matches.of_beq h with
    | placeholder => exact h'
  | product l r ihl ihr =>
    cases Matches.of_beq h with
    | product hl hr =>
      cases Matches.of_beq h' with
      | product hl' hr' => exact (Matches.product (ihl hl hl') (ihr hr hr')).beq
      | swapped hl' hr' => exact (Matches.swapped (ihl hl hl') (ihr hr hr')).beq
    | swapped hl hr =>
      cases Matches.of_beq h' with
      | product hl' hr' => exact (Matches.swapped (ihl hl hr') (ihr hr hl')).beq
      -- Factors that are swapped twice are back in their places.
      | swapped hl' hr' => exact (Matches.product (ihl hl hr') (ihr hr hl')).beq
  | sum v ih =>
    cases Matches.of_beq h with
    | sum hv hw =>
      cases Matches.of_beq h' with
      | sum hv' hw' =>
        refine (Matches.sum (fun e he => ?_) fun c hc => ?_).beq
        · obtain ⟨d, hd, hed⟩ := hv e he
          obtain ⟨c, hc, hdc⟩ := hv' d hd
          exact ⟨c, hc, ih e he hed hdc⟩
        · obtain ⟨d, hd, hdc⟩ := hw' c hc
          obtain ⟨e, he, hed⟩ := hw d hd
          exact ⟨e, he, ih e he hed hdc⟩
  | constraint label e ih =>
    cases Matches.of_beq h with
    | constraint he =>
      cases Matches.of_beq h' with
      | constraint he' => exact (Matches.constraint (ih he he')).beq
  | named name e ih =>
    cases Matches.of_beq h with
    | named he =>
      cases Matches.of_beq h' with
      | named he' => exact (Matches.named (ih he he')).beq
  | penalized label e p ihe ihp =>
    cases Matches.of_beq h with
    | penalized he hp =>
      cases Matches.of_beq h' with
      | penalized he' hp' => exact (Matches.penalized (ihe he he') (ihp hp hp')).beq

instance : PartialEquivBEq (Expr α) where
  symm := beq_symm
  trans := beq_trans

theorem beq_self_of_beq {a b : Expr α} (h : (a == b) = true) : (a == a) = true :=
  beq_trans h (beq_symm h)

/-- An expression is equal to itself exactly if all its numbers are. -/
theorem beq_self_iff {a : Expr α} : (a == a) = true ↔ ∀ x, num x ∈ a.nodes → (x == x) = true := by
  induction a using Expr.induction with
  | num y =>
    simp only [nodes, List.mem_singleton, num.injEq, forall_eq]
    rfl
  | var d v => simp [nodes, (Matches.var rfl).beq]
  | placeholder label => simp [nodes, Matches.placeholder.beq]
  | product l r ihl ihr =>
    have hparts : (product l r == product l r) = true ↔ (l == l) = true ∧ (r == r) = true := by
      refine ⟨fun h => ?_, fun h => (Matches.product h.1 h.2).beq⟩
      cases Matches.of_beq h with
      | product hl hr => exact ⟨hl, hr⟩
      | swapped hl hr => exact ⟨beq_self_of_beq hl, beq_self_of_beq hr⟩
    rw [hparts, ihl, ihr]
    simp [nodes, or_imp, forall_and]
  | sum v ih =>
    have hparts : (sum v == sum v) = true ↔ ∀ e ∈ v, (e == e) = true := by
      refine ⟨fun h => ?_, fun h => (Matches.sum (fun e he => ⟨e, he, h e he⟩)
        fun e he => ⟨e, he, h e he⟩).beq⟩
      cases Matches.of_beq h with
      | sum hv _ =>
        intro e he
        obtain ⟨d, -, hed⟩ := hv e he
        exact beq_self_of_beq hed
    rw [hparts]
    simp only [nodes, List.mem_append, mem_termNodes, List.mem_singleton, reduceCtorEq, or_false]
    constructor
    · rintro h x ⟨e, he, hx⟩
      exact (ih e he).mp (h e he) x hx
    · intro h e he
      exact (ih e he).mpr fun x hx => h x ⟨e, he, hx⟩
  | constraint label e ih =>
    have hbody : (constraint label e == constraint label e) = true ↔ (e == e) = true := by
      refine ⟨fun h => ?_, fun h => (Matches.constraint h).beq⟩
      cases Matches.of_beq h with
      | constraint he => exact he
    rw [hbody, ih]
    simp [nodes]
  | named name e ih =>
    have hbody : (named name e == named name e) = true ↔ (e == e) = true := by
      refine ⟨fun h => ?_, fun h => (Matches.named h).beq⟩
      cases Matches.of_beq h with
      | named he => exact he
    rw [hbody, ih]
    simp [nodes]
  | penalized label e p ihe ihp =>
    have hparts : (penalized label e p == penalized label e p) = true
        ↔ (e == e) = true ∧ (p == p) = true := by
      refine ⟨fun h => ?_, fun h => (Matches.penalized h.1 h.2).beq⟩
      cases Matches.of_beq h with
      | penalized he hp => exact ⟨he, hp⟩
    rw [hparts, ihe, ihp]
    simp [nodes, or_imp, forall_and]

end Expr

end PseudoBoolean
