import PseudoBoolean.Proofs.Compilation
import PseudoBoolean.Proofs.Expr.Support
import PseudoBoolean.Proofs.QuadraticForm.Feed
import PseudoBoolean.Proofs.Quadratization.Support

/-! # Feeds that a model needs

A model needs values for the placeholders of its expression and, if the expression has to
be quadratized, for those of the strength. It needs them also where their factors have
become 0, and needs no others.
-/

namespace PseudoBoolean.Expr

variable {α : Type} [Scalar α] {o : Options α} {e : Expr α} {feed feed' : Feed α}

/-- The placeholders of an expression, and those of the strength if its expansion has a
degree above 2. -/
def requiredPlaceholders (o : Options α) (e : Expr α) : List String :=
  e.placeholders ++ if 2 < (e.expand o.threshold).1.degree then o.strength.placeholders else []

theorem mem_requiredPlaceholders {l : String} : l ∈ e.requiredPlaceholders o ↔
    l ∈ e.placeholders ∨ 2 < e.polynomial.degree ∧ l ∈ o.strength.placeholders := by
  rw [requiredPlaceholders, expand_fst, List.mem_append]
  split
  · next h => simp only [h, true_and]
  · next h => simp only [h, List.not_mem_nil, false_and]

/-- The form of a model has the placeholders that the model needs. -/
theorem mem_placeholders_form (h : e.SumsNonempty) {l : String} :
    l ∈ (e.compile o).form.placeholders ↔ l ∈ e.requiredPlaceholders o := by
  rw [compile_form, Qubo.mem_placeholders_ofPolynomial degree_le_of_mem_quadratic, quadratic,
    (Polynomial.reaches_quadratize e.polynomial).mem_placeholders, Polynomial.steps_ne_nil_iff,
    mem_placeholders_polynomial h, mem_requiredPlaceholders]

/-- A model has a form under a feed exactly if the feed has the required placeholders, and
the form depends on these alone. A failure is that of an empty feed, or names a required
placeholder that the feed lacks. -/
theorem toQubo_compile_feed (o : Options α) (h : e.SumsNonempty) (feed : Feed α) :
    let m := e.compile o
    let required := e.requiredPlaceholders o
    ((∃ f, m.toQubo feed = .ok f) ↔ ∀ q ∈ required, q ∈ feed.keys) ∧
    (¬ (∀ q ∈ required, q ∈ feed.keys) →
      if feed.isEmpty then m.toQubo feed = .error .emptyFeed
      else ∃ q ∈ required, ¬ q ∈ feed.keys ∧ m.toQubo feed = .error (.missingPlaceholder q)) ∧
    ∀ f, m.toQubo feed = .ok f → ∀ feed' : Feed α,
      (∀ q ∈ required, feed'.find? q = feed.find? q) → m.toQubo feed' = .ok f := by
  intro m required
  have hrequired : ∀ l, l ∈ m.form.placeholders ↔ l ∈ required :=
    fun _ => mem_placeholders_form h
  have hcovered : (∃ f, m.toQubo feed = .ok f) ↔ ∀ q ∈ required, q ∈ feed.keys := by
    rw [Model.toQubo, Qubo.exists_eval_iff]
    simp only [hrequired]
  refine ⟨hcovered, fun hmissing => ?_, fun f hf feed' hsame => ?_⟩
  · cases hfail : m.toQubo feed with
    | ok f => exact absurd (hcovered.mp ⟨f, hfail⟩) hmissing
    | error err =>
      cases Qubo.lacks_of_eval hfail with
      | emptyFeed hempty hl =>
        rw [if_pos hempty]
      | @placeholder q hempty hl hq =>
        rw [if_neg (Bool.not_eq_true _ ▸ hempty)]
        exact ⟨q, (hrequired q).mp hl, hq, rfl⟩
  · have hform : m.form.AllWeights (Weight.Covered feed) := Qubo.covered_of_eval hf
    rw [Model.toQubo, Qubo.eval_congr (fun l hl => hsame l ((hrequired l).mp hl)) hform]
    exact hf

/-- A cubic expression in which the terms with a placeholder cancel. -/
def cancelledLimit : Expr Float :=
  let x label := var .binary (.ofLabel 0 label)
  let limited := product (placeholder "limit") (x "a")
  sum [limited, product (num (-1)) limited, product (x "a") (product (x "b") (x "c"))]

theorem toQubo_cancelledLimit :
    let m := cancelledLimit.compile ⟨.placeholder "strength", 64⟩
    let feed (other : Float) : Feed Float :=
      Table.ofList [("limit", 1), ("strength", 5), ("other", other)]
    cancelledLimit.SumsNonempty ∧ m.toQubo ∅ = .error .emptyFeed ∧
      m.toQubo (Table.single "strength" 5) = .error (.missingPlaceholder "limit") ∧
      ∃ f, ∀ other, m.toQubo (feed other) = .ok f := by
  intro m feed
  let o : Options Float := ⟨.placeholder "strength", 64⟩
  have hsums : cancelledLimit.SumsNonempty := by decide
  have hrequired : cancelledLimit.requiredPlaceholders o = ["limit", "limit", "strength"] := by
    decide +kernel
  refine ⟨hsums, ?_, ?_, ?_⟩
  · obtain ⟨-, hmissing, -⟩ := toQubo_compile_feed o hsums ∅
    rw [hrequired] at hmissing
    exact hmissing (by decide)
  · obtain ⟨-, hmissing, -⟩ := toQubo_compile_feed o hsums (Table.single "strength" 5)
    rw [hrequired] at hmissing
    obtain ⟨q, hq, hlacks, hfail⟩ := hmissing (by decide)
    have hlimit : q = "limit" := by
      simp only [List.mem_cons, List.not_mem_nil, or_false] at hq
      obtain rfl | rfl | rfl := hq
      · rfl
      · rfl
      · exact absurd (List.mem_singleton_self _) hlacks
    rw [← hlimit]
    exact hfail
  · obtain ⟨hok, -, hsame⟩ := toQubo_compile_feed o hsums (feed 0)
    rw [hrequired] at hok hsame
    obtain ⟨f, hf⟩ := hok.mpr (by decide)
    refine ⟨f, fun other => hsame f hf (feed other) ?_⟩
    simp [feed, Table.find?_ofList, List.lookup]

end PseudoBoolean.Expr
