import Mathlib
import PseudoBoolean.Proofs.Expr.Equality
import PseudoBoolean.Proofs.Expr.Evaluation
import PseudoBoolean.Proofs.Expr.Rearrangement

/-! # Equal expressions without duplicates

Equality looks at sums as sets of terms, so it does not see how often a term is repeated.
Where no sum repeats one, the terms of equal sums match one by one, and with exact
arithmetic equal expressions have the same values and the same polynomial.
-/

namespace PseudoBoolean

/-- Lists without duplicates whose elements match match one by one. -/
theorem exists_perm_forall₂_beq {β : Type} [BEq β] [PartialEquivBEq β] {v w : List β}
    (hv : v.Pairwise fun a b => ¬ (a == b) = true) (hw : w.Pairwise fun a b => ¬ (a == b) = true)
    (hvw : ∀ a ∈ v, ∃ b ∈ w, (a == b) = true) (hwv : ∀ b ∈ w, ∃ a ∈ v, (a == b) = true) :
    ∃ u, u.Perm w ∧ List.Forall₂ (fun a b => (a == b) = true) v u := by
  induction v generalizing w with
  | nil =>
    have hnil : w = [] := List.eq_nil_iff_forall_not_mem.mpr fun b hb => by
      obtain ⟨a, ha, -⟩ := hwv b hb
      exact List.not_mem_nil ha
    exact ⟨[], hnil ▸ .refl _, .nil⟩
  | cons a v ih =>
    obtain ⟨ha, hv⟩ := List.pairwise_cons.mp hv
    obtain ⟨b, hb, hab⟩ := hvw a List.mem_cons_self
    obtain ⟨s, t, rfl⟩ := List.append_of_mem hb
    have hperm : (s ++ b :: t).Perm (b :: (s ++ t)) := List.perm_middle
    obtain ⟨hb, hst⟩ := List.pairwise_cons.mp
      (hperm.pairwise hw fun h h' => h (BEq.symm h'))
    -- No other element of either list matches `a` or `b`.
    have hvst : ∀ c ∈ v, ∃ d ∈ s ++ t, (c == d) = true := by
      intro c hc
      obtain ⟨d, hd, hcd⟩ := hvw c (List.mem_cons_of_mem _ hc)
      obtain rfl | hd := List.mem_cons.mp (hperm.mem_iff.mp hd)
      · exact absurd (BEq.trans hab (BEq.symm hcd)) (ha c hc)
      · exact ⟨d, hd, hcd⟩
    have hstv : ∀ d ∈ s ++ t, ∃ c ∈ v, (c == d) = true := by
      intro d hd
      obtain ⟨c, hc, hcd⟩ := hwv d (hperm.mem_iff.mpr (List.mem_cons_of_mem _ hd))
      obtain rfl | hc := List.mem_cons.mp hc
      · exact absurd (BEq.trans (BEq.symm hab) hcd) (hb d hd)
      · exact ⟨c, hc, hcd⟩
    obtain ⟨u, hu, hvu⟩ := ih hv hst hvst hstv
    exact ⟨b :: u, (hu.cons b).trans hperm.symm, .cons hab hvu⟩

namespace Expr

section
variable {α : Type} [Scalar α] {e k l r p : Expr α}

/-- Whether a node is no sum with two terms that are equal to each other. -/
def DistinctTerms : Expr α → Prop
  | sum terms => terms.Pairwise fun s t => ¬ (s == t) = true
  | _ => True

instance : DecidablePred (@DistinctTerms α _)
  | sum terms => inferInstanceAs (Decidable (terms.Pairwise fun s t => ¬ (s == t) = true))
  | num _ | var _ _ | placeholder _ | product _ _ | constraint _ _ | named _ _
  | penalized _ _ _ => isTrue trivial

def DuplicateFree (e : Expr α) : Prop := ∀ n ∈ e.nodes, n.DistinctTerms

instance (e : Expr α) : Decidable e.DuplicateFree :=
  inferInstanceAs (Decidable (∀ n ∈ e.nodes, n.DistinctTerms))

theorem DuplicateFree.pairwise {terms : List (Expr α)} (h : (sum terms).DuplicateFree) :
    terms.Pairwise fun s t => ¬ (s == t) = true := h _ (self_mem_nodes _)

theorem DuplicateFree.subset (h : e.DuplicateFree) (hk : k.nodes ⊆ e.nodes) : k.DuplicateFree :=
  fun n hn => h n (hk hn)

theorem DuplicateFree.left (h : (product l r).DuplicateFree) : l.DuplicateFree :=
  h.subset (left_nodes_subset l r)

theorem DuplicateFree.right (h : (product l r).DuplicateFree) : r.DuplicateFree :=
  h.subset (right_nodes_subset l r)

theorem DuplicateFree.body {label : String} (h : (penalized label e p).DuplicateFree) :
    e.DuplicateFree := h.subset (body_nodes_subset label e p)

theorem DuplicateFree.penalty {label : String} (h : (penalized label e p).DuplicateFree) :
    p.DuplicateFree := h.subset (penalty_nodes_subset label e p)

end

/-- Whether two expressions have the same values and the same polynomial. -/
structure Agrees (a b : Expr Rat) : Prop where
  eval : ∀ bits feed v, a.eval bits feed = .ok v ↔ b.eval bits feed = .ok v
  polynomial : a.polynomial = b.polynomial

variable {a b : Expr Rat} {v w : List (Expr Rat)}

theorem Agrees.product {l r l' r' : Expr Rat} (hl : Agrees l l') (hr : Agrees r r') :
    Agrees (product l r) (product l' r') where
  eval bits feed v := by simp only [eval_product_iff, hl.eval, hr.eval]
  polynomial := by rw [Expr.polynomial, Expr.polynomial, hl.polynomial, hr.polynomial]

theorem agrees_swap (l r : Expr Rat) : Agrees (product l r) (product r l) where
  eval bits feed v := by
    rw [eval_product_iff, eval_product_iff, exists_comm]
    simp only [mul_comm, and_left_comm]
  polynomial := by rw [Expr.polynomial, Expr.polynomial, mul_comm]

theorem Agrees.trans {c : Expr Rat} (h : Agrees a b) (h' : Agrees b c) : Agrees a c where
  eval bits feed v := (h.eval bits feed v).trans (h'.eval bits feed v)
  polynomial := h.polynomial.trans h'.polynomial

theorem agrees_sum_of_forall₂ (h : List.Forall₂ Agrees v w) : Agrees (sum v) (sum w) where
  eval bits feed x := by
    have hvalues : ∀ xs, List.Forall₂ (fun e y => e.eval bits feed = .ok y) v xs ↔
        List.Forall₂ (fun e y => e.eval bits feed = .ok y) w xs := by
      induction h with
      | nil => exact fun _ => Iff.rfl
      | cons h _ ih => simp only [List.forall₂_cons_left_iff, h.eval, ih, implies_true]
    simp only [eval_sum_iff, hvalues]
  polynomial := by
    have hmap : v.map Expr.polynomial = w.map Expr.polynomial := by
      rw [← List.forall₂_eq_eq_eq, List.forall₂_map_left_iff, List.forall₂_map_right_iff]
      exact h.imp fun _ _ hab => hab.polynomial
    rw [polynomial_sum, polynomial_sum, hmap]

theorem eval_sum_of_perm (h : v.Perm w) {bits : String → Option Bool} {feed : Feed Rat} {x : Rat}
    (hx : (sum v).eval bits feed = .ok x) : (sum w).eval bits feed = .ok x := by
  obtain ⟨xs, hxs, rfl⟩ := eval_sum_iff.mp hx
  obtain ⟨ys, hys, hperm⟩ := List.perm_comp_forall₂ h.symm hxs
  exact eval_sum_iff.mpr ⟨ys, hys, hperm.sum_eq.symm⟩

theorem agrees_sum_of_perm (h : v.Perm w) : Agrees (sum v) (sum w) where
  eval _ _ _ := ⟨eval_sum_of_perm h, eval_sum_of_perm h.symm⟩
  polynomial := (Rearranged.permute h).polynomial_eq

theorem agrees_of_beq (ha : a.DuplicateFree) (hb : b.DuplicateFree) (h : (a == b) = true) :
    Agrees a b := by
  induction a using Expr.induction generalizing b with
  | num x =>
    cases Matches.of_beq h with
    | num hx => exact of_decide_eq_true hx ▸ ⟨fun _ _ _ => Iff.rfl, rfl⟩
  | var d v =>
    cases Matches.of_beq h with
    | var hv =>
      refine ⟨fun bits feed x => ?_, ?_⟩
      · rw [eval, eval, hv]
      · rw [polynomial, polynomial, hv]
  | placeholder label =>
    cases Matches.of_beq h with
    | placeholder => exact ⟨fun _ _ _ => Iff.rfl, rfl⟩
  | product l r ihl ihr =>
    cases Matches.of_beq h with
    | product hl hr => exact (ihl ha.left hb.left hl).product (ihr ha.right hb.right hr)
    | swapped hl hr =>
      exact ((ihl ha.left hb.right hl).product (ihr ha.right hb.left hr)).trans (agrees_swap _ _)
  | sum v ih =>
    cases Matches.of_beq h with
    | sum hvw hwv =>
      obtain ⟨u, hperm, hmatch⟩ := exists_perm_forall₂_beq ha.pairwise hb.pairwise hvw hwv
      refine (agrees_sum_of_forall₂ ?_).trans (agrees_sum_of_perm hperm)
      rw [List.forall₂_iff_zip] at hmatch ⊢
      refine ⟨hmatch.1, fun hed => ?_⟩
      obtain ⟨he, hd⟩ := List.of_mem_zip hed
      exact ih _ he (ha.subset (term_nodes_subset he))
        (hb.subset (term_nodes_subset (hperm.mem_iff.mp hd))) (hmatch.2 hed)
  | constraint label e ih =>
    cases Matches.of_beq h with
    | constraint he =>
      obtain ⟨heval, hpolynomial⟩ := ih (ha.subset fun _ hn => List.mem_append_left _ hn)
        (hb.subset fun _ hn => List.mem_append_left _ hn) he
      exact ⟨heval, hpolynomial⟩
  | named name e ih =>
    cases Matches.of_beq h with
    | named he =>
      obtain ⟨heval, hpolynomial⟩ := ih (ha.subset fun _ hn => List.mem_append_left _ hn)
        (hb.subset fun _ hn => List.mem_append_left _ hn) he
      exact ⟨heval, hpolynomial⟩
  | penalized label e p ihe ihp =>
    cases Matches.of_beq h with
    | penalized he hp =>
      have hae := ihe ha.body hb.body he
      have hap := ihp ha.penalty hb.penalty hp
      refine ⟨fun bits feed v => ?_, ?_⟩
      · simp only [eval_penalized_iff, hae.eval, hap.eval]
      · rw [polynomial, polynomial, hae.polynomial, hap.polynomial]

end Expr

end PseudoBoolean
