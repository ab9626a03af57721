import PseudoBoolean.Proofs.QuadraticForm.Support
import PseudoBoolean.Proofs.Weight.Feed

/-! # Quadratic forms under a feed

A form has numbers under a feed exactly if the feed has all its placeholders, and these
numbers depend on their values only. A failure tells what is missing from the feed.
-/

namespace PseudoBoolean.Qubo

variable {α : Type} [Scalar α] {feed feed' : Feed α} {f : Qubo α}

omit [Scalar α] in
theorem allWeights_covered_iff :
    f.AllWeights (Weight.Covered feed) ↔ ∀ l ∈ f.placeholders, l ∈ feed.keys := by
  simp only [mem_placeholders, or_imp, forall_and, forall_exists_index, and_imp]
  constructor
  · rintro ⟨hentries, hoffset⟩
    exact ⟨fun l e he hl => hentries e he l hl, hoffset⟩
  · rintro ⟨hentries, hoffset⟩
    exact ⟨fun e he l hl => hentries l e he hl, hoffset⟩

theorem covered_of_eval {q : QuadraticForm String α} (h : f.eval feed = .ok q) :
    f.AllWeights (Weight.Covered feed) := by
  obtain ⟨entries, hentries, h⟩ := bind_eq_ok h
  obtain ⟨offset, hoffset, -⟩ := bind_eq_ok h
  refine ⟨fun e he => ?_, Weight.covered_of_eval hoffset⟩
  obtain ⟨c, hc, -⟩ := exists_of_mapM_eq_ok hentries e he
  obtain ⟨x, hx, -⟩ := bind_eq_ok hc
  exact Weight.covered_of_eval hx

theorem lacks_of_eval {err : EvalError} (h : f.eval feed = .error err) :
    feed.Lacks f.placeholders err := by
  obtain h | ⟨entries, -, h⟩ := bind_eq_error h
  · obtain ⟨e, he, hfail⟩ := exists_of_mapM_eq_error h
    obtain hfail | ⟨x, -, hfail⟩ := bind_eq_error hfail
    · exact (Weight.lacks_of_eval hfail).mono fun l hl => mem_placeholders.mpr (.inl ⟨e, he, hl⟩)
    · cases hfail
  · obtain h | ⟨offset, -, h⟩ := bind_eq_error h
    · exact (Weight.lacks_of_eval h).mono fun l hl => mem_placeholders.mpr (.inr hl)
    · cases h

theorem exists_eval_iff :
    (∃ q, f.eval feed = .ok q) ↔ ∀ l ∈ f.placeholders, l ∈ feed.keys := by
  constructor
  · rintro ⟨q, hq⟩
    exact allWeights_covered_iff.mp (covered_of_eval hq)
  · intro hcovered
    cases h : f.eval feed with
    | ok q => exact ⟨q, rfl⟩
    | error err => exact absurd hcovered (lacks_of_eval h).not_covered

theorem eval_congr (h : ∀ l ∈ f.placeholders, feed'.find? l = feed.find? l)
    (hcovered : f.AllWeights (Weight.Covered feed)) : f.eval feed' = f.eval feed := by
  have hentry : ∀ e ∈ f.entries.entries, e.2.eval feed' = e.2.eval feed := fun e he =>
    Weight.eval_congr (fun l hl => h l (mem_placeholders.mpr (.inl ⟨e, he, hl⟩)))
      (hcovered.entries e he)
  have hoffset : f.offset.eval feed' = f.offset.eval feed :=
    Weight.eval_congr (fun l hl => h l (mem_placeholders.mpr (.inr hl))) hcovered.offset
  rw [eval, eval, hoffset]
  refine congrArg (· >>= _) (mapM_congr fun e he => ?_)
  rw [hentry e he]

end PseudoBoolean.Qubo
