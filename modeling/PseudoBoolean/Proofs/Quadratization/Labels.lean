import Mathlib
import PseudoBoolean.Proofs.Quadratization.Blocks

/-! # Labels along a quadratization

A property of labels that passes from the factors of every step to their product holds
of all labels of a quadratization if it holds of those at the start.
-/

namespace PseudoBoolean

theorem all_labelParts_auxiliaryLabel (x : String → Bool) (a b : String) :
    (labelParts (auxiliaryLabel a b)).all x = ((labelParts a).all x && (labelParts b).all x) := by
  rw [(labelParts_auxiliaryLabel a b).all_eq, List.all_append]

namespace Polynomial

variable {α : Type} [Scalar α] {strength : Weight α} {f p : Polynomial α} {done : List Step}

theorem Reaches.proper (h : Reaches strength f done p) : ∀ s ∈ done, s.Proper := by
  induction h with
  | start => exact fun s hs => nomatch hs
  | step _ hs ih =>
    intro t ht
    obtain ht | ht := List.mem_append.mp ht
    · exact ih t ht
    · rw [List.mem_singleton.mp ht]
      exact ⟨(exists_monomial_of_nextStep? hs).1, product_of_nextStep? hs⟩

theorem mem_labels_penalty {s : Step} {m : Monomial} (hm : m ∈ (s.penalty strength).monomials)
    {l : String} (hl : l ∈ m.labels) : l = s.first ∨ l = s.second ∨ l = s.product := by
  obtain ⟨e, he, rfl⟩ := mem_monomials_ofList.mp hm
  simp only [List.mem_cons, List.not_mem_nil, or_false] at he
  obtain rfl | rfl | rfl | rfl := he <;>
    simp only [Monomial.mem_labels_ofList, List.mem_cons, List.not_mem_nil, or_false] at hl
  · exact .inr (.inr hl)
  · exact .inr hl
  · exact hl.elim .inl fun hl => .inr (.inr hl)
  · exact hl.elim .inl fun hl => .inr (.inl hl)

theorem Reaches.forall_labels {Q : String → Prop} (h : Reaches strength f done p)
    (hQ : ∀ s ∈ done, Q s.first → Q s.second → Q s.product)
    (hf : ∀ m ∈ f.monomials, ∀ l ∈ m.labels, Q l) : ∀ m ∈ p.monomials, ∀ l ∈ m.labels, Q l := by
  induction h with
  | start => exact hf
  | @step done p s _ hs ih =>
    have hold := ih fun t ht => hQ t (List.mem_append_left _ ht)
    obtain ⟨-, n, hn, -, ha, hb⟩ := exists_monomial_of_nextStep? hs
    -- The factors of a new product are labels of a monomial from before the step.
    have hproduct := hQ s (List.mem_append_right _ (List.mem_singleton_self s))
      (hold n hn _ ha) (hold n hn _ hb)
    intro m hm l hl
    rw [apply, contract_eq_rename, mem_monomials_add] at hm
    obtain hm | hm := hm
    · obtain ⟨k, hk, rfl⟩ := mem_monomials_rename.mp hm
      obtain ⟨rfl, -⟩ | ⟨hl, -⟩ := Step.mem_labels_contract hl
      · exact hproduct
      · exact hold k hk l hl
    · obtain rfl | rfl | rfl := mem_labels_penalty hm hl
      · exact hold n hn _ ha
      · exact hold n hn _ hb
      · exact hproduct

/-- Where all auxiliary variables are the products of their factors, every label has the
product of its parts. -/
theorem Reaches.eq_all_labelParts (h : Reaches strength f done p) {z : String → Bool}
    (hz : ∀ s ∈ done, s.Holds z) (hf : ∀ m ∈ f.monomials, ∀ l ∈ m.labels, ¬ '*' ∈ l.toList) :
    ∀ m ∈ p.monomials, ∀ l ∈ m.labels, z l = (labelParts l).all z := by
  apply h.forall_labels (Q := fun l => z l = (labelParts l).all z)
  · intro s hs ha hb
    have hholds : z s.product = (z s.first && z s.second) := hz s hs
    rw [hholds, ha, hb, (h.proper s hs).product, all_labelParts_auxiliaryLabel]
  · intro m hm l hl
    rw [labelParts_eq_singleton (hf m hm l hl), List.all_cons, List.all_nil, Bool.and_true]

theorem Reaches.labelParts_mem (h : Reaches strength f done p) {labels : List String}
    (hf : ∀ m ∈ f.monomials, ∀ l ∈ m.labels, ¬ '*' ∈ l.toList ∧ l ∈ labels) :
    ∀ m ∈ p.monomials, ∀ l ∈ m.labels, ∀ x ∈ labelParts l, x ∈ labels := by
  apply h.forall_labels (Q := fun l => ∀ x ∈ labelParts l, x ∈ labels)
  · intro s hs ha hb x hx
    obtain hx | hx := (h.proper s hs).labelParts_product.mp hx
    · exact ha x hx
    · exact hb x hx
  · intro m hm l hl x hx
    obtain ⟨hstar, hl⟩ := hf m hm l hl
    rw [labelParts_eq_singleton hstar, List.mem_singleton] at hx
    exact hx ▸ hl

end Polynomial

end PseudoBoolean
