import Mathlib
import PseudoBoolean.Proofs.Quadratization.Alignment

/-! # Stages of a quadratization

At every stage the polynomial is the original one with contracted monomials, plus the
penalties of the steps so far as they were added. The pair of the next step comes from a
contracted monomial, since penalties are quadratic, and so the step leaves the penalties
alone.
-/

namespace PseudoBoolean

/-- What is left of a monomial after the steps in `done`. -/
def contractAll (done : List Step) (m : Monomial) : Monomial :=
  done.foldl (fun m s => s.contract m) m

theorem contractAll_append (done : List Step) (s : Step) (m : Monomial) :
    contractAll (done ++ [s]) m = s.contract (contractAll done m) := by
  rw [contractAll, List.foldl_append]
  rfl

theorem Step.degree_le_of_mem_penalty {s : Step} {strength : Weight Rat} {m : Monomial}
    (hm : m ∈ (s.penalty strength).monomials) : m.degree ≤ 2 := by
  obtain ⟨e, he, rfl⟩ := Polynomial.mem_monomials_ofList.mp hm
  simp only [List.mem_cons, List.not_mem_nil, or_false] at he
  obtain rfl | rfl | rfl | rfl := he
  · exact (Monomial.degree_ofList_le _).trans (Nat.le_succ 1)
  · exact Monomial.degree_ofList_le _
  · exact Monomial.degree_ofList_le _
  · exact Monomial.degree_ofList_le _

namespace Polynomial

/-- The invariant of a quadratization of `f`. No step has contracted an earlier penalty,
and no later step will, because the blocks of the contracted monomials are aligned. -/
structure Stage (strength : Weight Rat) (f : Polynomial Rat) (done : List Step)
    (p : Polynomial Rat) : Prop where
  proper : ∀ s ∈ done, s.Proper
  fresh : done.Pairwise fun s t => s.product ≠ t.product
  untouched : done.Pairwise fun s t => ∀ m ∈ (s.penalty strength).monomials, t.contract m = m
  aligned : Aligned (f.monomials.map (contractAll done)) done
  parts : ∀ m ∈ f.monomials, (contractAll done m).parts.Perm m.labels
  eq : p = f.rename (contractAll done) + (done.map (Step.penalty strength)).sum

variable {strength : Weight Rat} {f p : Polynomial Rat} {done : List Step} {s : Step}

theorem Stage.start (hf : ∀ m ∈ f.monomials, ∀ l ∈ m.labels, ¬ '*' ∈ l.toList) :
    Stage strength f [] f where
  proper s hs := nomatch hs
  fresh := .nil
  untouched := .nil
  aligned := by
    rw [show f.monomials.map (contractAll []) = f.monomials from List.map_id _]
    exact Aligned.start hf
  parts m hm := by
    rw [show contractAll [] m = m from rfl, Monomial.parts_eq_labels (hf m hm)]
  eq := by
    rw [List.map_nil, List.sum_nil, add_zero]
    exact (rename_eq_self fun m _ => rfl).symm

theorem Stage.exists_mem (h : Stage strength f done p) (hs : p.nextStep? = some s) :
    ∃ m ∈ f.monomials.map (contractAll done), s.first ∈ m.labels ∧ s.second ∈ m.labels := by
  obtain ⟨-, m, hm, hdegree, ha, hb⟩ := exists_monomial_of_nextStep? hs
  refine ⟨m, ?_, ha, hb⟩
  rw [h.eq, mem_monomials_add] at hm
  obtain hm | hm := hm
  · obtain ⟨n, hn, rfl⟩ := mem_monomials_rename.mp hm
    exact List.mem_map_of_mem hn
  -- The degree is above 2, so the monomial is not from a penalty.
  · obtain ⟨q, hq, hmq⟩ := mem_monomials_sum.mp hm
    obtain ⟨t, -, rfl⟩ := List.mem_map.mp hq
    exact absurd hdegree (Nat.not_lt_of_le (Step.degree_le_of_mem_penalty hmq))

theorem Stage.step (h : Stage strength f done p) (hs : p.nextStep? = some s) :
    Stage strength f (done ++ [s]) (p.apply strength s) := by
  have hproper : s.Proper := ⟨(exists_monomial_of_nextStep? hs).1, product_of_nextStep? hs⟩
  obtain ⟨m, hm, ha, hb⟩ := h.exists_mem hs
  have huntouched : ∀ t ∈ done, ∀ n ∈ (t.penalty strength).monomials, s.contract n = n :=
    fun t ht n hn => h.aligned.contract_penalty hproper hm ha hb ht (h.proper t ht) hn
  constructor
  case proper =>
    intro t ht
    obtain ht | ht := List.mem_append.mp ht
    · exact h.proper t ht
    · exact List.mem_singleton.mp ht ▸ hproper
  case fresh =>
    rw [List.pairwise_append]
    refine ⟨h.fresh, List.pairwise_singleton _ _, fun t ht u hu => ?_⟩
    rw [List.mem_singleton.mp hu]
    exact h.aligned.product_ne hproper hm ha hb ht
  case untouched =>
    rw [List.pairwise_append]
    refine ⟨h.untouched, List.pairwise_singleton _ _, fun t ht u hu => ?_⟩
    rw [List.mem_singleton.mp hu]
    exact huntouched t ht
  case aligned =>
    have hmap : f.monomials.map (contractAll (done ++ [s]))
        = (f.monomials.map (contractAll done)).map s.contract := by
      rw [List.map_map]
      exact List.map_congr_left fun n _ => contractAll_append done s n
    rw [hmap]
    exact h.aligned.contract hproper hm ha hb
  case parts =>
    intro n hn
    rw [contractAll_append]
    have hnodup := h.aligned.nodup _ (List.mem_map_of_mem hn)
    exact (hproper.parts_contract hnodup).trans (h.parts n hn)
  case eq =>
    -- Contraction renames the monomials of `p` and leaves those of the penalties alone.
    have hpenalties : (done.map (Step.penalty strength)).map (rename s.contract)
        = done.map (Step.penalty strength) := by
      rw [List.map_map]
      exact List.map_congr_left fun t ht => rename_eq_self (huntouched t ht)
    have hcontract : p.contract s
        = f.rename (contractAll (done ++ [s])) + (done.map (Step.penalty strength)).sum := by
      rw [contract_eq_rename, h.eq, rename_add, rename_rename, rename_sum, hpenalties]
      exact congrArg (· + _) (rename_congr fun n _ => (contractAll_append done s n).symm)
    rw [apply, hcontract, List.map_append, List.sum_append, List.map_singleton, List.sum_singleton,
      add_assoc]

theorem Reaches.stage (hf : ∀ m ∈ f.monomials, ∀ l ∈ m.labels, ¬ '*' ∈ l.toList)
    (h : Reaches strength f done p) : Stage strength f done p := by
  induction h with
  | start => exact Stage.start hf
  | step _ hs ih => exact ih.step hs

end Polynomial

end PseudoBoolean
