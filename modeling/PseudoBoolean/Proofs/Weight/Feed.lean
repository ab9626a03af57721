import PseudoBoolean.Proofs.Fold
import PseudoBoolean.Proofs.Weight.Placeholders

/-! # Feeds

A weight has a value under a feed exactly if the feed has all its placeholders, and this
value depends on their values only. Where it has none, the failure is that of an empty
feed, or it names a placeholder that the feed lacks.
-/

namespace PseudoBoolean

variable {α : Type} {feed feed' : Feed α}

/-- What a failure says of a feed from which placeholders of a list are missing. -/
inductive Feed.Lacks (feed : Feed α) (labels : List String) : EvalError → Prop where
  | emptyFeed {l : String} (hfeed : feed.isEmpty = true) (hl : l ∈ labels) :
    Lacks feed labels .emptyFeed
  | placeholder {l : String} (hfeed : feed.isEmpty = false) (hl : l ∈ labels)
      (hmissing : ¬ l ∈ feed.keys) : Lacks feed labels (.missingPlaceholder l)

namespace Feed

theorem not_mem_keys_of_isEmpty (h : feed.isEmpty = true) (l : String) : ¬ l ∈ feed.keys := by
  rw [Table.isEmpty_iff.mp h]
  exact List.not_mem_nil

theorem Lacks.mono {labels labels' : List String} {err : EvalError} (h : feed.Lacks labels err)
    (hsub : labels ⊆ labels') : feed.Lacks labels' err := by
  cases h with
  | emptyFeed hfeed hl => exact .emptyFeed hfeed (hsub hl)
  | placeholder hfeed hl hmissing => exact .placeholder hfeed (hsub hl) hmissing

theorem Lacks.not_covered {labels : List String} {err : EvalError} (h : feed.Lacks labels err) :
    ¬ ∀ l ∈ labels, l ∈ feed.keys := by
  intro hcovered
  cases h with
  | emptyFeed hfeed hl => exact not_mem_keys_of_isEmpty hfeed _ (hcovered _ hl)
  | placeholder hfeed hl hmissing => exact hmissing (hcovered _ hl)

theorem covered_congr {labels : List String} (h : ∀ l ∈ labels, feed'.find? l = feed.find? l)
    (hcovered : ∀ l ∈ labels, l ∈ feed.keys) : ∀ l ∈ labels, l ∈ feed'.keys := by
  intro l hl
  rw [Table.mem_keys_iff_isSome, h l hl, ← Table.mem_keys_iff_isSome]
  exact hcovered l hl

end Feed

variable [Scalar α]

namespace PowerProduct

variable {p : PowerProduct}

theorem covered_of_eval {x : α} (h : p.eval feed = .ok x) : ∀ l ∈ p.labels, l ∈ feed.keys := by
  intro l hl
  obtain ⟨e, he, rfl⟩ := List.mem_map.mp hl
  refine forall_of_foldlM_eq_ok (P := fun e => e.1 ∈ feed.keys) ?_ h e he
  intro e a b hab
  split at hab
  · next y hy => exact Table.mem_keys_iff.mpr ⟨y, hy⟩
  · cases hab

theorem missing_of_eval {err : EvalError} (h : p.eval feed = .error err) :
    ∃ l ∈ p.labels, ¬ l ∈ feed.keys ∧ err = .missingPlaceholder l := by
  obtain ⟨e, he, product, hfail⟩ := exists_of_foldlM_eq_error h
  split at hfail
  · cases hfail
  · next hnone =>
    cases hfail
    refine ⟨e.1, List.mem_map_of_mem he, ?_, rfl⟩
    rw [Table.mem_keys_iff_isSome, hnone]
    exact Bool.false_ne_true

theorem eval_congr (h : ∀ l ∈ p.labels, feed'.find? l = feed.find? l) :
    p.eval feed' = p.eval feed := by
  refine foldlM_congr ?_ 1
  intro e he a
  rw [h e.1 (List.mem_map_of_mem he)]

end PowerProduct

namespace Coefficient

variable {c : Coefficient α}

theorem covered_of_eval {x : α} (h : c.eval feed = .ok x) :
    ∀ l ∈ c.placeholders, l ∈ feed.keys := by
  intro l hl
  obtain ⟨p, hp, hl⟩ := mem_placeholders.mp hl
  obtain ⟨e, he, rfl⟩ := List.mem_map.mp hp
  rw [eval] at h
  split at h
  · cases h
  · refine forall_of_foldlM_eq_ok (P := fun e => ∀ l ∈ e.1.labels, l ∈ feed.keys) ?_ h e he l hl
    intro e a b hab
    obtain ⟨y, hy, -⟩ := bind_eq_ok hab
    exact PowerProduct.covered_of_eval hy

theorem lacks_of_eval {err : EvalError} (h : c.eval feed = .error err) :
    feed.Lacks c.placeholders err := by
  rw [eval] at h
  split at h
  · next hempty =>
    cases h
    obtain ⟨hfeed, hconstant⟩ := Bool.and_eq_true_iff.mp hempty
    rw [Bool.not_eq_true', ← Bool.not_eq_true, isConstant_iff] at hconstant
    push Not at hconstant
    obtain ⟨p, hp, hlabels⟩ := hconstant
    obtain ⟨l, hl⟩ := List.exists_mem_of_ne_nil _ hlabels
    exact .emptyFeed hfeed (mem_placeholders.mpr ⟨p, hp, hl⟩)
  · next hempty =>
    obtain ⟨e, he, sum, hfail⟩ := exists_of_foldlM_eq_error h
    obtain hfail | ⟨product, -, hfail⟩ := bind_eq_error hfail
    · have hp : e.1 ∈ c.terms.keys := List.mem_map_of_mem he
      obtain ⟨l, hl, hmissing, rfl⟩ := PowerProduct.missing_of_eval hfail
      refine .placeholder ?_ (mem_placeholders.mpr ⟨e.1, hp, hl⟩) hmissing
      -- A constant coefficient has no label to miss.
      cases hfeed : feed.isEmpty with
      | false => rfl
      | true =>
        rw [hfeed, Bool.true_and, Bool.not_eq_true', Bool.not_eq_false, isConstant_iff] at hempty
        rw [hempty e.1 hp] at hl
        cases hl
    · cases hfail

omit [Scalar α] in
theorem isConstant_of_covered (hfeed : feed.isEmpty = true)
    (h : ∀ l ∈ c.placeholders, l ∈ feed.keys) : c.isConstant = true := by
  rw [isConstant_iff]
  intro p hp
  rw [List.eq_nil_iff_forall_not_mem]
  intro l hl
  exact Feed.not_mem_keys_of_isEmpty hfeed l (h l (mem_placeholders.mpr ⟨p, hp, hl⟩))

/-- Under a feed with all its placeholders a coefficient is the sum of its terms. -/
theorem eval_eq_fold (h : ∀ l ∈ c.placeholders, l ∈ feed.keys) :
    c.eval feed = c.terms.entries.foldlM
      (fun sum e => do
        let product ← e.1.eval feed
        return sum + e.2 * product)
      0 := by
  rw [eval, if_neg]
  rw [Bool.and_eq_true, Bool.not_eq_true', not_and, Bool.not_eq_false]
  exact fun hfeed => isConstant_of_covered hfeed h

theorem eval_congr (h : ∀ l ∈ c.placeholders, feed'.find? l = feed.find? l)
    (hcovered : ∀ l ∈ c.placeholders, l ∈ feed.keys) : c.eval feed' = c.eval feed := by
  rw [eval_eq_fold hcovered, eval_eq_fold (Feed.covered_congr h hcovered)]
  refine foldlM_congr ?_ 0
  intro e he sum
  rw [PowerProduct.eval_congr fun l hl =>
    h l (mem_placeholders.mpr ⟨e.1, List.mem_map_of_mem he, hl⟩)]

end Coefficient

namespace Weight

variable {v w : Weight α}

def Covered (feed : Feed α) (w : Weight α) : Prop := ∀ l ∈ w.placeholders, l ∈ feed.keys

omit [Scalar α] in
theorem covered_number (x : α) : (number x).Covered feed := fun _ h => nomatch h

theorem covered_add_iff : (v + w).Covered feed ↔ v.Covered feed ∧ w.Covered feed := by
  simp only [Covered, mem_placeholders_add, or_imp, forall_and]

theorem covered_add (hv : v.Covered feed) (hw : w.Covered feed) : (v + w).Covered feed :=
  covered_add_iff.mpr ⟨hv, hw⟩

theorem covered_mul_iff (hv : v.HasTerms) (hw : w.HasTerms) :
    (v * w).Covered feed ↔ v.Covered feed ∧ w.Covered feed := by
  simp only [Covered, mem_placeholders_mul hv hw, or_imp, forall_and]

theorem covered_mul (hv : v.Covered feed) (hw : w.Covered feed) : (v * w).Covered feed :=
  fun l h => (mem_placeholders_of_mul h).elim (hv l) (hw l)

theorem covered_scale_iff {x : α} : (w.scale x).Covered feed ↔ w.Covered feed := by
  rw [Covered, placeholders_scale, Covered]

theorem covered_scale (hw : w.Covered feed) (x : α) : (w.scale x).Covered feed :=
  covered_scale_iff.mpr hw

theorem covered_placeholder {label : String} (h : label ∈ feed.keys) :
    (placeholder label).Covered feed := fun _ hl => mem_placeholders_placeholder.mp hl ▸ h

theorem covered_of_eval {x : α} (h : w.eval feed = .ok x) : w.Covered feed := by
  cases w with
  | number y => exact covered_number y
  | symbolic c => exact Coefficient.covered_of_eval h

theorem lacks_of_eval {err : EvalError} (h : w.eval feed = .error err) :
    feed.Lacks w.placeholders err := by
  cases w with
  | number y => cases h
  | symbolic c => exact Coefficient.lacks_of_eval h

theorem eval_congr (h : ∀ l ∈ w.placeholders, feed'.find? l = feed.find? l)
    (hcovered : w.Covered feed) : w.eval feed' = w.eval feed := by
  cases w with
  | number y => rfl
  | symbolic c => exact Coefficient.eval_congr h hcovered

end Weight

end PseudoBoolean
