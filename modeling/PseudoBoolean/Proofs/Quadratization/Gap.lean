import Mathlib
import PseudoBoolean.Proofs.Quadratization.Stage

/-! # The price of wrong auxiliary values

A wrong auxiliary variable costs at least the strength. What it can gain is bounded by
the weights of the monomials that steps may rewrite, those of degree at least 2.
-/

namespace PseudoBoolean

variable {φ : PowerProduct → Rat} {z : String → Bool}

theorem bit_mul_sub_abs_le (a b : Bool) (w : Rat) : bit a * w - |w| ≤ bit b * w := by
  have hle := le_abs_self w
  have hneg := neg_abs_le w
  have habs := abs_nonneg w
  cases a <;> cases b <;> simp only [bit] <;> linarith

theorem Step.contract_of_degree_lt {s : Step} (hs : s.Proper) {m : Monomial} (hm : m.degree < 2) :
    s.contract m = m := by
  apply contract_of_not_mem
  rintro ⟨ha, hb⟩
  have hsubset : [s.first, s.second] ⊆ m.labels := by
    intro l hl
    obtain rfl | hl := List.mem_cons.mp hl
    · exact ha
    · exact List.mem_singleton.mp hl ▸ hb
  have hnodup : [s.first, s.second].Nodup :=
    List.nodup_cons.mpr ⟨fun h => hs.ne (List.mem_singleton.mp h), List.nodup_singleton _⟩
  have hlength : [s.first, s.second].length ≤ m.labels.length :=
    (hnodup.subperm hsubset).length_le
  have hdegree : m.degree = m.labels.length := rfl
  simp only [List.length_cons, List.length_nil] at hlength
  omega

theorem contractAll_of_degree_lt {done : List Step} (hdone : ∀ s ∈ done, s.Proper) {m : Monomial}
    (hm : m.degree < 2) : contractAll done m = m := by
  induction done with
  | nil => rfl
  | cons s rest ih =>
    have hstep : contractAll (s :: rest) m = contractAll rest (s.contract m) := rfl
    rw [hstep, Step.contract_of_degree_lt (hdone s List.mem_cons_self) hm]
    exact ih fun t ht => hdone t (List.mem_cons_of_mem _ ht)

namespace Polynomial

/-- The sum of the absolute values of all weights of monomials of degree at least 2. -/
def coupling (φ : PowerProduct → Rat) (l : List (Monomial × Weight Rat)) : Rat :=
  ((l.filter fun e => 2 ≤ e.1.degree).map fun e => |e.2.value φ|).sum

theorem coupling_nonneg (l : List (Monomial × Weight Rat)) : 0 ≤ coupling φ l := by
  apply List.sum_nonneg
  intro x hx
  obtain ⟨e, -, rfl⟩ := List.mem_map.mp hx
  exact abs_nonneg _

theorem coupling_cons (e : Monomial × Weight Rat) (rest : List (Monomial × Weight Rat)) :
    coupling φ (e :: rest)
      = (if 2 ≤ e.1.degree then |e.2.value φ| else 0) + coupling φ rest := by
  unfold coupling
  rw [List.filter_cons]
  by_cases h : 2 ≤ e.1.degree
  · rw [if_pos h, if_pos (decide_eq_true h), List.map_cons, List.sum_cons]
  · rw [if_neg h, if_neg fun h' => h (of_decide_eq_true h'), zero_add]

/-- Rewriting the monomials of degree at least 2 moves the value by at most their weights. -/
theorem sub_coupling_le {r : Monomial → Monomial} {l : List (Monomial × Weight Rat)}
    (hr : ∀ e ∈ l, e.1.degree < 2 → r e.1 = e.1) :
    (l.map fun e => bit (e.1.holds z) * e.2.value φ).sum - coupling φ l
      ≤ (l.map fun e => bit ((r e.1).holds z) * e.2.value φ).sum := by
  induction l with
  | nil => exact sub_le_self _ (coupling_nonneg [])
  | cons e rest ih =>
    have hrest := ih fun d hd => hr d (List.mem_cons_of_mem _ hd)
    rw [coupling_cons, List.map_cons, List.sum_cons, List.map_cons, List.sum_cons]
    split
    · have hterm := bit_mul_sub_abs_le (e.1.holds z) ((r e.1).holds z) (e.2.value φ)
      linarith
    · next h =>
      rw [hr e List.mem_cons_self (Nat.lt_of_not_le h)]
      linarith

variable {strength : Weight Rat} {f p : Polynomial Rat} {done : List Step}

theorem Stage.value_eq (h1 : φ 1 = 1) (h : Stage strength f done p) :
    p.value z φ =
      (f.terms.entries.map fun e => bit ((contractAll done e.1).holds z) * e.2.value φ).sum
      + strength.value φ * (done.map (Step.gadget z)).sum := by
  have hpenalties : ((done.map (Step.penalty strength)).sum).value z φ
      = strength.value φ * (done.map (Step.gadget z)).sum := by
    rw [value_sum h1, List.map_map, ← List.sum_map_mul_left]
    exact congrArg List.sum (List.map_congr_left fun s _ => s.value_penalty h1)
  rw [h.eq, value_add h1, value_rename h1, hpenalties]

/-- Where an auxiliary variable is wrong, the value rises by the strength at least, up to
the weights of the rewritten monomials. -/
theorem Stage.le_value_of_not_holds (h1 : φ 1 = 1) (h : Stage strength f done p)
    (hstrength : 0 ≤ strength.value φ) {s : Step} (hs : s ∈ done) (hz : ¬ s.Holds z) :
    f.value z φ - coupling φ f.terms.entries + strength.value φ ≤ p.value z φ := by
  have hgadgets : 1 ≤ (done.map (Step.gadget z)).sum := by
    refine (Step.one_le_gadget hz).trans (List.single_le_sum ?_ _ (List.mem_map_of_mem hs))
    intro x hx
    obtain ⟨t, -, rfl⟩ := List.mem_map.mp hx
    exact t.gadget_nonneg
  -- All contractions of a monomial count at once, however many of their steps are wrong.
  have hterms : f.value z φ - coupling φ f.terms.entries ≤ (f.terms.entries.map
      fun e => bit ((contractAll done e.1).holds z) * e.2.value φ).sum :=
    sub_coupling_le fun _ _ hdegree => contractAll_of_degree_lt h.proper hdegree
  have hpenalties := mul_le_mul_of_nonneg_left hgadgets hstrength
  rw [h.value_eq h1]
  rw [mul_one] at hpenalties
  exact add_le_add hterms hpenalties

theorem finite_range_value (p : Polynomial Rat) :
    (Set.range fun z : String → Bool => p.value z φ).Finite := by
  have hlist : ∀ l : List (Monomial × Weight Rat), (Set.range fun z : String → Bool =>
      (l.map fun e => bit (e.1.holds z) * e.2.value φ).sum).Finite := by
    intro l
    induction l with
    | nil => exact (Set.finite_singleton (0 : Rat)).subset (by rintro x ⟨z, rfl⟩; rfl)
    | cons e rest ih =>
      have hterm : ({0, e.2.value φ} : Set Rat).Finite := Set.toFinite _
      refine (hterm.image2 (· + ·) ih).subset ?_
      rintro x ⟨z, rfl⟩
      refine ⟨bit (e.1.holds z) * e.2.value φ, ?_, _, ⟨z, rfl⟩, rfl⟩
      cases e.1.holds z with
      | true => exact .inr (one_mul _)
      | false => exact .inl (zero_mul _)
  exact hlist p.terms.entries

theorem exists_least_value (p : Polynomial Rat) :
    ∃ z₀ : String → Bool, ∀ z, p.value z₀ φ ≤ p.value z φ := by
  have hfinite : (Set.range fun z : String → Bool => p.value z φ).Finite := finite_range_value p
  obtain ⟨x, ⟨z₀, hz₀⟩, hx⟩ := Set.exists_min_image _ id hfinite (Set.range_nonempty _)
  exact ⟨z₀, fun z => hz₀.le.trans (hx _ ⟨z, rfl⟩)⟩

end Polynomial

end PseudoBoolean
