import Mathlib
import PseudoBoolean.Proofs.Expr.Support
import PseudoBoolean.Proofs.Model.Energy
import PseudoBoolean.Proofs.Polynomial.Evaluation

/-! # Expansion and evaluation agree

What an expression needs for a value are bits of its variables and values of its
placeholders, and nothing else. Its expansion needs the same, also for what is multiplied
by 0 or cancels, since expansion keeps every variable and every placeholder. Only a sum
without terms makes it forget some.
-/

namespace PseudoBoolean.Expr

open PowerProduct (wordValue)

/-- Whether the variables of an expression have bits, and its placeholders values. -/
structure Supplied {α : Type} (bits : String → Option Bool) (feed : Feed α) (e : Expr α) :
    Prop where
  labels : ∀ l ∈ e.labels, ∃ b, bits l = some b
  placeholders : ∀ p ∈ e.placeholders, p ∈ feed.keys

/-- The values that bits have as numbers, where there is one. -/
def numbersOf (bits : String → Option Bool) (l : String) : Option Rat := (bits l).map bit

variable {bits : String → Option Bool} {feed : Feed Rat} {e : Expr Rat} {v : Rat}

theorem not_supplied_iff : ¬ e.Supplied bits feed ↔
    (∃ l ∈ e.labels, bits l = none) ∨ ∃ p ∈ e.placeholders, p ∉ feed.keys := by
  constructor
  · intro h
    by_contra hnone
    push Not at hnone
    exact h ⟨fun l hl => Option.ne_none_iff_exists'.mp (hnone.1 l hl), hnone.2⟩
  · rintro (⟨l, hl, hnone⟩ | ⟨p, hp, hnone⟩) h
    · obtain ⟨b, hb⟩ := h.labels l hl
      rw [hnone] at hb
      cases hb
    · exact hnone (h.placeholders p hp)

theorem Supplied.exists_assignment (h : e.Supplied bits feed) :
    ∃ z : String → Bool, ∀ l ∈ e.labels, bits l = some (z l) := by
  refine ⟨fun l => (bits l).getD false, fun l hl => ?_⟩
  obtain ⟨b, hb⟩ := h.labels l hl
  simp only [hb, Option.getD_some]

theorem supplied_of_eval (h : e.eval bits feed = .ok v) : e.Supplied bits feed where
  labels := labels_covered_of_eval h
  placeholders := placeholders_covered_of_eval h

theorem exists_eval_iff : (∃ v, e.eval bits feed = .ok v) ↔ e.Supplied bits feed := by
  constructor
  · rintro ⟨v, hv⟩
    exact supplied_of_eval hv
  · intro h
    obtain ⟨z, hz⟩ := h.exists_assignment
    exact ⟨_, eval_eq_value e hz h.placeholders⟩

/-- A value depends on the bits of the variables only. -/
theorem eval_of_agree {bits' : String → Option Bool} (h : e.eval bits feed = .ok v)
    (hbits : ∀ l ∈ e.labels, bits' l = bits l) : e.eval bits' feed = .ok v := by
  have hsupplied := supplied_of_eval h
  obtain ⟨z, hz⟩ := hsupplied.exists_assignment
  rw [eval_eq_value e hz hsupplied.placeholders] at h
  rw [eval_eq_value e (fun l hl => (hbits l hl).trans (hz l hl)) hsupplied.placeholders]
  exact h

/-- Where an expression is supplied, its polynomial has the energy that is its value. -/
theorem Supplied.energy_eq_eval (h : e.Supplied bits feed)
    (hfits : e.polynomial.AllWeights Weight.FitsWord) :
    e.polynomial.energy (numbersOf bits) feed = e.eval bits feed := by
  obtain ⟨z, hz⟩ := h.exists_assignment
  rw [eval_eq_wordValue hfits hz h.placeholders]
  refine Polynomial.energy_of_bits (fun l hl => ?_) (e.covered_expansion h.placeholders).1
  obtain ⟨m, hm, hlm⟩ := Polynomial.mem_labels.mp hl
  rw [numbersOf, hz l (mem_labels_of_mem_polynomial e hm hlm), Option.map_some]

theorem supplied_of_energy (hsums : e.SumsNonempty)
    (h : e.polynomial.energy (numbersOf bits) feed = .ok v) : e.Supplied bits feed := by
  obtain ⟨hvalues, hcovered⟩ := Polynomial.exists_value_and_covered_of_energy h
  refine ⟨fun l hl => ?_, placeholders_covered hsums hcovered⟩
  obtain ⟨y, hy⟩ := hvalues l ((mem_labels_polynomial hsums).mpr hl)
  obtain ⟨b, hb, -⟩ := Option.map_eq_some_iff.mp hy
  exact ⟨b, hb⟩

theorem exists_energy_iff (hsums : e.SumsNonempty)
    (hfits : e.polynomial.AllWeights Weight.FitsWord) :
    (∃ v, e.polynomial.energy (numbersOf bits) feed = .ok v) ↔ e.Supplied bits feed := by
  constructor
  · rintro ⟨v, hv⟩
    exact supplied_of_energy hsums hv
  · intro h
    rw [h.energy_eq_eval hfits]
    exact exists_eval_iff.mpr h

/-- The energy of an expansion and the value of the expression. Without empty sums either
both exist and are equal, or both fail for want of a bit or of a fed number. -/
theorem energy_expand_eq_eval (threshold : Nat) (e : Expr Rat) (bits : String → Option Bool)
    (feed : Feed Rat) (hfits : (e.expand threshold).1.AllWeights Weight.FitsWord) :
    let energy := (e.expand threshold).1.energy (numbersOf bits) feed
    let Unsupplied := (∃ l ∈ e.labels, bits l = none) ∨ ∃ p ∈ e.placeholders, p ∉ feed.keys
    (∀ v, e.eval bits feed = .ok v → energy = .ok v) ∧
      (e.SumsNonempty →
        (∀ v, energy = .ok v ↔ e.eval bits feed = .ok v) ∧
        ((∃ err, energy = .error err) ↔ Unsupplied) ∧
        ((∃ err, e.eval bits feed = .error err) ↔ Unsupplied)) := by
  intro energy Unsupplied
  simp only [energy, Unsupplied]
  rw [expand_fst] at hfits ⊢
  have hvalue : ∀ v, e.eval bits feed = .ok v →
      e.polynomial.energy (numbersOf bits) feed = .ok v := fun v hv =>
    ((supplied_of_eval hv).energy_eq_eval hfits).trans hv
  refine ⟨hvalue, fun hsums => ⟨fun v => ⟨fun hv => ?_, hvalue v⟩, ?_, ?_⟩⟩
  · rw [← (supplied_of_energy hsums hv).energy_eq_eval hfits]
    exact hv
  · rw [exists_eq_error_iff, exists_energy_iff hsums hfits, not_supplied_iff]
  · rw [exists_eq_error_iff, exists_eval_iff, not_supplied_iff]

/-- The variable "a" and the placeholder "limit" occur in a product with 0 only, the spin
"s" in two terms that cancel. -/
def vanishingLeaves : Expr Rat :=
  .sum [.product (.num 0) (.product (.placeholder "limit") (.var .binary (.ofLabel 0 "a"))),
    .var .spin (.ofLabel 0 "s"), .product (.num (-1)) (.var .spin (.ofLabel 0 "s")),
    .var .binary (.ofLabel 0 "b")]

theorem energy_expand_vanishingLeaves :
    let bits : List (String × Bool) → String → Option Bool := fun l => (Table.ofList l).find?
    let energy := fun l feed => (vanishingLeaves.expand 64).1.energy (numbersOf (bits l)) feed
    let feed : Feed Rat := Table.single "limit" 7
    energy [("a", true), ("b", true), ("s", false)] feed = .ok 1 ∧
      (∃ err, energy [("b", true), ("s", false)] feed = .error err) ∧
      (∃ err, energy [("a", true), ("b", true)] feed = .error err) ∧
      ∃ err, energy [("a", true), ("b", true), ("s", false)] ∅ = .error err := by
  intro bits energy feed
  have hfits : (vanishingLeaves.expand 64).1.AllWeights Weight.FitsWord := by decide +kernel
  have hsums : vanishingLeaves.SumsNonempty := by decide +kernel
  have hagree := fun l feed => energy_expand_eq_eval 64 vanishingLeaves (bits l) feed hfits
  have hlabels : "a" ∈ vanishingLeaves.labels ∧ "s" ∈ vanishingLeaves.labels := by decide +kernel
  refine ⟨(hagree _ feed).1 1 (by decide +kernel), ?_, ?_, ?_⟩
  · exact ((hagree _ feed).2 hsums).2.1.mpr (.inl ⟨"a", hlabels.1, by decide +kernel⟩)
  · exact ((hagree _ feed).2 hsums).2.1.mpr (.inl ⟨"s", hlabels.2, by decide +kernel⟩)
  · exact ((hagree _ ∅).2 hsums).2.1.mpr (.inr ⟨"limit", by decide +kernel, List.not_mem_nil⟩)

/-- A product with an empty sum has no terms, so its energy is 0 at no bits at all. -/
example : ((product (sum []) (.var .binary (.ofLabel 0 "a")) : Expr Rat).expand 64).1.energy
    (fun _ => none) ∅ = .ok 0 := by rfl

end PseudoBoolean.Expr
