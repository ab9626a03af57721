import Mathlib
import PseudoBoolean.Proofs.Weight.Powers
import PseudoBoolean.Proofs.Weight.Product

/-! # Evaluation of sums, products and multiples of weights

The result of an operation on weights has a value under a feed exactly if the operands have,
because no placeholder is lost when terms cancel or are scaled by 0. This value is what the
operation gives for the values of the operands; for products the exponents that have been
added up must still fit into a signed word. A failure is due to a placeholder of an operand.
-/

namespace PseudoBoolean.Weight

variable {feed : Feed Rat} {v w : Weight Rat}

theorem eval_eq_ok_iff {x : Rat} :
    w.eval feed = .ok x ↔ w.Covered feed ∧ w.value (PowerProduct.wordValue feed) = x := by
  constructor
  · intro h
    exact ⟨covered_of_eval h, value_of_eval h⟩
  · rintro ⟨hcovered, rfl⟩
    exact eval_of_covered hcovered

theorem exists_eval_eq_ok_iff : (∃ x, w.eval feed = .ok x) ↔ w.Covered feed := by
  simp only [eval_eq_ok_iff, exists_and_left, exists_eq', and_true]

/-! ## Exponents of products -/

theorem mem_keys_mul {p : PowerProduct} : p ∈ (v * w).toCoefficient.terms.keys ↔
    ∃ q ∈ v.toCoefficient.terms.keys, ∃ r ∈ w.toCoefficient.terms.keys, p = q * r := by
  rw [toCoefficient_mul]
  exact Coefficient.mem_keys_mul

theorem fitsWord_iff : w.FitsWord ↔ ∀ p ∈ w.toCoefficient.terms.keys, p.FitsWord := by
  cases w with
  | symbolic c => exact Iff.rfl
  | number x =>
    refine iff_of_true trivial ?_
    intro p hp
    rw [Coefficient.mem_keys_constant.mp hp]
    exact fun e he => absurd he List.not_mem_nil

/-- The exponents of either factor are at most those of a product with a term of the other. -/
theorem FitsWord.of_mul (hv : v.HasTerms) (hw : w.HasTerms) (h : (v * w).FitsWord) :
    v.FitsWord ∧ w.FitsWord := by
  rw [fitsWord_iff] at h
  have hmul : ∀ p ∈ v.toCoefficient.terms.keys, ∀ q ∈ w.toCoefficient.terms.keys,
      p.FitsWord ∧ q.FitsWord := by
    intro p hp q hq
    exact (h (p * q) (mem_keys_mul.mpr ⟨p, hp, q, hq, rfl⟩)).of_mul
  obtain ⟨p, hp⟩ := hv
  obtain ⟨q, hq⟩ := hw
  exact ⟨fitsWord_iff.mpr fun p hp => (hmul p hp q hq).1,
    fitsWord_iff.mpr fun q hq => (hmul p hp q hq).2⟩

theorem value_mul_of_fitsWord (hv : v.HasTerms) (hw : w.HasTerms) (h : (v * w).FitsWord) :
    (v * w).value (PowerProduct.wordValue feed)
      = v.value (PowerProduct.wordValue feed) * w.value (PowerProduct.wordValue feed) := by
  obtain ⟨hvfits, hwfits⟩ := h.of_mul hv hw
  rw [value_eq_of_fitsWord h, value_eq_of_fitsWord hvfits, value_eq_of_fitsWord hwfits,
    value_mul PowerProduct.powerValue_mul]

/-! ## Values and failures of operations -/

/-- A weight with the placeholders of two others evaluates exactly if both do. -/
theorem eval_eq_ok_iff_of_operands {u : Weight Rat} {f : Rat → Rat → Rat}
    (hcovered : u.Covered feed ↔ v.Covered feed ∧ w.Covered feed)
    (hvalue : u.value (PowerProduct.wordValue feed)
      = f (v.value (PowerProduct.wordValue feed)) (w.value (PowerProduct.wordValue feed)))
    {x : Rat} : u.eval feed = .ok x ↔
      ∃ y z, v.eval feed = .ok y ∧ w.eval feed = .ok z ∧ x = f y z := by
  simp only [eval_eq_ok_iff, hcovered, hvalue]
  constructor
  · rintro ⟨⟨hv, hw⟩, rfl⟩
    exact ⟨_, _, ⟨hv, rfl⟩, ⟨hw, rfl⟩, rfl⟩
  · rintro ⟨_, _, ⟨hv, rfl⟩, ⟨hw, rfl⟩, rfl⟩
    exact ⟨⟨hv, hw⟩, rfl⟩

theorem eval_scale_eq_ok_iff {f x : Rat} :
    (w.scale f).eval feed = .ok x ↔ ∃ y, w.eval feed = .ok y ∧ x = y * f := by
  simp only [eval_eq_ok_iff, covered_scale_iff, value_scale]
  constructor
  · rintro ⟨hw, rfl⟩
    exact ⟨_, ⟨hw, rfl⟩, rfl⟩
  · rintro ⟨_, ⟨hw, rfl⟩, rfl⟩
    exact ⟨hw, rfl⟩

theorem lacks_of_eval_add {err : EvalError} (h : (v + w).eval feed = .error err) :
    feed.Lacks (v.placeholders ++ w.placeholders) err :=
  (lacks_of_eval h).mono fun _ hl => List.mem_append.mpr (mem_placeholders_add.mp hl)

theorem lacks_of_eval_mul {err : EvalError} (h : (v * w).eval feed = .error err) :
    feed.Lacks (v.placeholders ++ w.placeholders) err :=
  (lacks_of_eval h).mono fun _ hl => List.mem_append.mpr (mem_placeholders_of_mul hl)

theorem lacks_of_eval_scale {f : Rat} {err : EvalError} (h : (w.scale f).eval feed = .error err) :
    feed.Lacks w.placeholders err := by
  rw [← placeholders_scale w f]
  exact lacks_of_eval h

/-- The sum and the product of two weights with terms have a value exactly if both weights
have, and a multiple and the negation of a weight exactly if the weight has. It is the sum,
product, multiple and negation of the values, for a product as long as its exponents fit into
a signed word. All failures are due to placeholders of the operands that the feed lacks. -/
theorem eval_operations (hv : v.HasTerms) (hw : w.HasTerms) (f : Rat) (feed : Feed Rat) :
    (∀ x, (v + w).eval feed = .ok x ↔
      ∃ y z, v.eval feed = .ok y ∧ w.eval feed = .ok z ∧ x = y + z) ∧
    ((∃ x, (v * w).eval feed = .ok x) ↔
      (∃ y, v.eval feed = .ok y) ∧ ∃ z, w.eval feed = .ok z) ∧
    ((v * w).FitsWord → ∀ x, (v * w).eval feed = .ok x ↔
      ∃ y z, v.eval feed = .ok y ∧ w.eval feed = .ok z ∧ x = y * z) ∧
    (∀ x, (v.scale f).eval feed = .ok x ↔ ∃ y, v.eval feed = .ok y ∧ x = y * f) ∧
    (∀ x, (-v).eval feed = .ok x ↔ ∃ y, v.eval feed = .ok y ∧ x = -y) ∧
    (∀ err, (v + w).eval feed = .error err ∨ (v * w).eval feed = .error err →
      feed.Lacks (v.placeholders ++ w.placeholders) err) ∧
    ∀ err, (v.scale f).eval feed = .error err ∨ (-v).eval feed = .error err →
      feed.Lacks v.placeholders err := by
  refine ⟨fun x => ?_, ?_, fun hfits x => ?_, fun x => eval_scale_eq_ok_iff, fun x => ?_, ?_, ?_⟩
  · exact eval_eq_ok_iff_of_operands covered_add_iff (value_add PowerProduct.wordValue_one v w)
  · simp only [exists_eval_eq_ok_iff]
    exact covered_mul_iff hv hw
  · exact eval_eq_ok_iff_of_operands (covered_mul_iff hv hw) (value_mul_of_fitsWord hv hw hfits)
  · refine eval_scale_eq_ok_iff.trans ?_
    simp only [mul_neg_one]
  · rintro err (h | h)
    · exact lacks_of_eval_add h
    · exact lacks_of_eval_mul h
  · rintro err (h | h)
    · exact lacks_of_eval_scale h
    · exact lacks_of_eval_scale h

/-- `3 * w ^ 2 + 1`. -/
def squareLoad : Weight Rat := symbolic (.ofList [(.ofList [("w", 2)], 3), (1, 1)])

/-- With `M` alone a product of it with `squareLoad` has no value, and with `w` besides it has
one. With neither, even the sum fails as that of an empty feed. -/
theorem eval_operations_squareLoad :
    let M : Weight Rat := placeholder "M"
    let half : Feed Rat := Table.single "M" 5
    let full : Feed Rat := half.insert "w" 2
    M.HasTerms ∧ squareLoad.HasTerms ∧ (M * squareLoad).FitsWord ∧
      (M * squareLoad).eval full = .ok 65 ∧
      (¬ ∃ x, (M * squareLoad).eval half = .ok x) ∧
      ∀ err, (M + squareLoad).eval ∅ = .error err → err = .emptyFeed := by
  intro M half full
  have hM : M.HasTerms := hasTerms_placeholder "M"
  have hload : squareLoad.HasTerms := ⟨1, by decide +kernel⟩
  have hfits : (M * squareLoad).FitsWord := by decide +kernel
  refine ⟨hM, hload, hfits, ?_, ?_, ?_⟩
  · obtain ⟨-, -, hmul, -⟩ := eval_operations hM hload 0 full
    exact (hmul hfits 65).mpr ⟨5, 13, by decide +kernel, by decide +kernel, by norm_num⟩
  · obtain ⟨-, hiff, -⟩ := eval_operations hM hload 0 half
    rw [hiff]
    rintro ⟨-, z, hz⟩
    have hfail : squareLoad.eval half = .error (.missingPlaceholder "w") := by decide +kernel
    cases hz.symm.trans hfail
  · obtain ⟨-, -, -, -, -, hlacks, -⟩ := eval_operations hM hload 0 ∅
    intro err herr
    cases hlacks err (.inl herr) with
    | emptyFeed => rfl
    | placeholder hfeed => cases hfeed

end PseudoBoolean.Weight
