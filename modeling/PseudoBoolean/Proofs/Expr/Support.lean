import Mathlib
import PseudoBoolean.Proofs.Expr.Labels
import PseudoBoolean.Proofs.Expr.Nodes
import PseudoBoolean.Proofs.Expr.Value
import PseudoBoolean.Proofs.Polynomial.Support

/-! # What expansion keeps

A sum without terms is 0 and makes every product with it vanish, variables included. It
is the only way in which expansion loses something: the polynomial of any other
expression has all variables and all placeholders of the expression, also where their
weights cancel.
-/

namespace PseudoBoolean.Expr

variable {α : Type} [Scalar α]

theorem exists_monomial {e : Expr α} (h : e.SumsNonempty) : ∃ m, m ∈ e.polynomial.monomials := by
  induction e using Expr.induction with
  | num x => exact ⟨1, List.mem_singleton_self _⟩
  | var d v =>
    cases d with
    | binary => exact ⟨_, List.mem_singleton_self _⟩
    | spin => exact ⟨1, Polynomial.mem_monomials_addTerm.mpr (.inr rfl)⟩
  | placeholder p => exact ⟨1, List.mem_singleton_self _⟩
  | product l r ihl ihr =>
    obtain ⟨m, hm⟩ := ihl h.left
    obtain ⟨n, hn⟩ := ihr h.right
    rw [polynomial]
    exact ⟨m * n, Polynomial.mem_monomials_mul.mpr ⟨m, hm, n, hn, rfl⟩⟩
  | sum terms ih =>
    obtain ⟨e, he⟩ := List.exists_mem_of_ne_nil terms h.terms_ne_nil
    obtain ⟨m, hm⟩ := ih e he (h.term he)
    rw [polynomial]
    exact ⟨m, mem_monomials_sumPolynomial.mpr (.inr ⟨e, he, hm⟩)⟩
  | constraint label e ih => exact ih (h.subset fun _ hn => List.mem_append_left _ hn)
  | named name e ih => exact ih (h.subset fun _ hn => List.mem_append_left _ hn)
  | penalized label e p ihe ihp =>
    obtain ⟨m, hm⟩ := ihe h.body
    rw [polynomial]
    exact ⟨m, Polynomial.mem_monomials_add.mpr (.inl hm)⟩

/-- What the polynomial of a leaf has, and sums and products with others keep, the
polynomial of the whole expression has. -/
theorem polynomial_of_leaf {Q : Polynomial α → Prop}
    (hadd : ∀ p q, Q p ∨ Q q → Q (p + q))
    (hmul : ∀ l r : Expr α, l.SumsNonempty → r.SumsNonempty →
      Q l.polynomial ∨ Q r.polynomial → Q (l.polynomial * r.polynomial)) {e leaf : Expr α}
    (h : e.SumsNonempty) (hmem : leaf ∈ e.leaves) (hleaf : Q leaf.polynomial) :
    Q e.polynomial := by
  induction e using Expr.induction with
  | num x => exact List.mem_singleton.mp hmem ▸ hleaf
  | var d v => exact List.mem_singleton.mp hmem ▸ hleaf
  | placeholder p => exact List.mem_singleton.mp hmem ▸ hleaf
  | product l r ihl ihr =>
    rw [polynomial]
    apply hmul _ _ h.left h.right
    exact (List.mem_append.mp hmem).imp (ihl h.left) (ihr h.right)
  | sum terms ih =>
    obtain ⟨e, he, hmem⟩ := mem_termLeaves.mp hmem
    have hterm := ih e he (h.term he) hmem
    have hsum : ∀ (l : List (Expr α)) (p : Polynomial α), Q p ∨ e ∈ l → Q (sumPolynomial p l) := by
      intro l
      induction l with
      | nil => exact fun p hp => hp.resolve_right List.not_mem_nil
      | cons d rest ihrest =>
        intro p hp
        rw [sumPolynomial]
        apply ihrest
        obtain hp | hp := hp
        · exact .inl (hadd _ _ (.inl hp))
        · obtain rfl | hp := List.mem_cons.mp hp
          · exact .inl (hadd _ _ (.inr hterm))
          · exact .inr hp
    rw [polynomial]
    exact hsum terms ∅ (.inr he)
  | constraint label e ih =>
    exact ih (h.subset fun _ hn => List.mem_append_left _ hn) hmem
  | named name e ih =>
    exact ih (h.subset fun _ hn => List.mem_append_left _ hn) hmem
  | penalized label e p ihe ihp =>
    rw [polynomial]
    apply hadd
    exact (List.mem_append.mp hmem).imp (ihe h.body) (ihp h.penalty)

theorem mem_labels_polynomial {e : Expr α} (h : e.SumsNonempty) {l : String} :
    l ∈ e.polynomial.labels ↔ l ∈ e.labels := by
  constructor
  · intro hl
    obtain ⟨m, hm, hl⟩ := Polynomial.mem_labels.mp hl
    exact mem_labels_of_mem_polynomial e hm hl
  · intro hl
    obtain ⟨d, v, hmem, rfl⟩ := mem_labels.mp hl
    apply polynomial_of_leaf (Q := fun p => v.label ∈ p.labels)
      (fun p q => Polynomial.mem_labels_add.mpr)
      (fun l r hl hr => (Polynomial.mem_labels_mul (exists_monomial hl) (exists_monomial hr)).mpr)
      h hmem
    have hlabel : v.label ∈ (Monomial.ofList [v.label]).labels :=
      Monomial.mem_labels_ofList.mpr (List.mem_singleton_self _)
    refine Polynomial.mem_labels.mpr ⟨Monomial.ofList [v.label], ?_, hlabel⟩
    cases d with
    | binary => exact List.mem_singleton_self _
    | spin => exact Polynomial.mem_monomials_addTerm.mpr (.inl (List.mem_singleton_self _))

/-! ## Placeholders -/

theorem hasTerms_polynomial {e : Expr α} (h : e.SumsNonempty) : e.polynomial.HasTerms where
  monomial := exists_monomial h
  weights := (allWeights_expansion (fun _ _ hv _ => Weight.hasTerms_add hv)
    (fun _ _ => Weight.hasTerms_mul) Weight.hasTerms_number e
    fun p _ => Weight.hasTerms_placeholder p).1

theorem mem_placeholders_of_mem_polynomial {e : Expr α} {l : String}
    (hl : l ∈ e.polynomial.placeholders) : l ∈ e.placeholders := by
  obtain ⟨d, hd, hl⟩ := Polynomial.mem_placeholders.mp hl
  have hall := allWeights_expansion (P := fun w => ∀ l ∈ w.placeholders, l ∈ e.placeholders)
    (fun v w hv hw l hl => (Weight.mem_placeholders_add.mp hl).elim (hv l) (hw l))
    (fun v w hv hw l hl => (Weight.mem_placeholders_of_mul hl).elim (hv l) (hw l))
    (fun x l hl => absurd hl List.not_mem_nil) e
    fun p hp l hl => Weight.mem_placeholders_placeholder.mp hl ▸ hp
  exact hall.1 d hd l hl

theorem mem_placeholders_polynomial {e : Expr α} (h : e.SumsNonempty) {l : String} :
    l ∈ e.polynomial.placeholders ↔ l ∈ e.placeholders := by
  refine ⟨mem_placeholders_of_mem_polynomial, fun hl => ?_⟩
  apply polynomial_of_leaf (Q := fun p => l ∈ p.placeholders)
    (fun p q => Polynomial.mem_placeholders_add.mpr)
    (fun l r hl hr => (Polynomial.mem_placeholders_mul (hasTerms_polynomial hl)
      (hasTerms_polynomial hr)).mpr)
    h (mem_placeholders.mp hl)
  exact Polynomial.mem_placeholders.mpr ⟨_, List.mem_singleton_self _,
    Weight.mem_placeholders_placeholder.mpr rfl⟩

/-- A feed that covers the polynomial of an expression covers the expression. -/
theorem placeholders_covered {e : Expr α} {feed : Feed α} (h : e.SumsNonempty)
    (hcovered : e.polynomial.AllWeights (Weight.Covered feed)) :
    ∀ p ∈ e.placeholders, p ∈ feed.keys := by
  intro p hp
  obtain ⟨d, hd, hl⟩ := Polynomial.mem_placeholders.mp ((mem_placeholders_polynomial h).mpr hp)
  exact hcovered d hd p hl

end PseudoBoolean.Expr
