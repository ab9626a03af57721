import Mathlib
import PseudoBoolean.Proofs.Model.Presentation
import PseudoBoolean.Proofs.QuadraticForm.Evaluation
import PseudoBoolean.Proofs.QuadraticForm.Spins

/-! # Models in spins

The spin form of a model and its quadratic form are two readings of one function. At spins
the first has the energy that the model reports for them, and the second has it at the
bits that they stand for.
-/

namespace PseudoBoolean

theorem Qubo.keys_of_eval {f : Qubo Rat} {feed : Feed Rat} {q : QuadraticForm String Rat}
    (h : f.eval feed = .ok q) : q.entries.keys = f.entries.keys := by
  rw [Qubo.eval_of_covered (Qubo.covered_of_eval h)] at h
  cases h
  exact Table.keys_mapValues _ _

theorem ofBit_half_add_one (x : Rat) : Domain.spin.ofBit ((x + 1) / 2) = x := by
  change (2 : Nat) * ((x + 1) / 2) - 1 = x
  push_cast
  ring

theorem half_add_one_eq {x : Rat} (h : x = -1 ∨ x = 1) : (x + 1) / 2 = 0 ∨ (x + 1) / 2 = 1 := by
  obtain rfl | rfl := h
  · exact .inl (by norm_num)
  · exact .inr (by norm_num)

namespace Model

variable {m : Model Rat} {feed : Feed Rat} {f : QuadraticForm String Rat} {s : String → Rat}

/-- The energy of spins is that of the bits `(s + 1) / 2`, in whichever way they are
written down. -/
theorem Regular.energy_spins (hm : m.Regular) (hf : m.toQubo feed = .ok f)
    (hs : ∀ l ∈ m.order, s l = -1 ∨ s l = 1) (p : Presentation) :
    m.energy .spin (p.solution m.order (m.order.map s)) feed
      = .ok (f.energy fun l => (s l + 1) / 2) := by
  let x := fun l => (s l + 1) / 2
  have hspins : (m.order.map x).map Domain.spin.ofBit = m.order.map s := by
    rw [List.map_map]
    exact List.map_congr_left fun l _ => ofBit_half_add_one (s l)
  have hbits : m.bits .spin (p.solution m.order (m.order.map s))
      = .ok (Table.ofList (m.order.map fun l => (l, x l))) := by
    rw [← hspins, List.map_prod_left_eq_zip]
    refine Presentation.bits_solution hm.ascending (List.length_map _) ?_ m.layout.contains .spin p
    exact List.forall_mem_map.mpr fun l hl => half_add_one_eq (hs l hl)
  have hfind : ∀ l ∈ m.order,
      ((Table.ofList (m.order.map fun l => (l, x l))).find? l).getD 0 = x l := by
    intro l hl
    rw [Table.find?_ofList_map, if_pos hl, Option.getD_some]
  rw [Model.energy_of_bits hbits, bitEnergy, hf]
  refine congrArg Except.ok (QuadraticForm.energy_congr fun c hc => ?_)
  obtain ⟨hrow, hcol⟩ := hm.mem_order_of_toQubo hf hc
  exact ⟨hfind _ hrow, hfind _ hcol⟩

/-- The spin form has a linear term for each variable of the model. -/
theorem Regular.mem_keys_linear (hm : m.Regular) (hf : m.toQubo feed = .ok f) {l : String} :
    l ∈ (Ising.ofForm f).linear.keys ↔ l ∈ m.order := by
  rw [Ising.mem_keys_linear_ofForm, Qubo.keys_of_eval hf, hm.mem_order]

end Model

/-- The spin form of a compiled expression has the energy of the model in spins, and that
of its quadratic form in the bits of these. Its linear terms are those of the variables,
and its quadratic terms those of the entries off the diagonal. -/
theorem Expr.energy_toIsing_compile (o : Options Rat) (e : Expr Rat) (feed : Feed Rat)
    {g : Ising String Rat} (hg : (e.compile o).toIsing feed = .ok g) (s : String → Rat)
    (hs : ∀ l ∈ (e.compile o).order, s l = -1 ∨ s l = 1) :
    let m := e.compile o
    (∀ p : Presentation,
      m.energy .spin (p.solution m.order (m.order.map s)) feed = .ok (g.energy s)) ∧
    (∃ f, m.toQubo feed = .ok f ∧ f.energy (fun l => (s l + 1) / 2) = g.energy s ∧
      ∀ c, c ∈ g.quadratic.keys ↔ c ∈ f.entries.keys ∧ c.row ≠ c.col) ∧
    ∀ l, l ∈ g.linear.keys ↔ l ∈ m.order := by
  intro m
  have hm : m.Regular := regular_compile o e
  obtain ⟨f, hf, rfl⟩ := map_eq_ok_iff.mp hg
  have henergy : (Ising.ofForm f).energy s = f.energy fun l => (s l + 1) / 2 :=
    Ising.energy_ofForm fun c hc _ => hs _ (hm.mem_order_of_toQubo hf hc).1
  refine ⟨fun p => ?_, ⟨f, hf, henergy.symm, fun c => Ising.mem_keys_quadratic_ofForm⟩,
    fun l => hm.mem_keys_linear hf⟩
  rw [henergy]
  exact hm.energy_spins hf hs p

/-- A variable in two couplings, one of them with a placeholder. -/
def starCoupling : Expr Rat :=
  .sum [.product (.var .binary (.ofLabel 0 "a")) (.var .binary (.ofLabel 1 "b")),
    .product (.placeholder "w") (.product (.var .binary (.ofLabel 0 "a"))
      (.var .spin (.ofLabel 2 "c")))]

def couplingModel : Model Rat where
  form := Qubo.ofPolynomial starCoupling.polynomial
  layout := starCoupling.layout
  constraints := ∅

theorem compile_starCoupling : starCoupling.compile .standard = couplingModel :=
  (Expr.compile_of_quadratic (by decide +kernel)).2

theorem energy_toIsing_starCoupling :
    let m := starCoupling.compile .standard
    let s : String → Rat := fun l => if l = "c" then -1 else 1
    let g : Ising String Rat := ⟨Table.ofList [("a", 1 / 4), ("b", 1 / 4), ("c", 3 / 2)],
      Table.ofList [(⟨"a", "b"⟩, 1 / 4), (⟨"a", "c"⟩, 3 / 2)], 1 / 4⟩
    m.toIsing (Table.single "w" 3) = .ok g ∧ g.energy s = -2 ∧
      m.energy .spin (.list [1, 1, -1]) (Table.single "w" 3) = .ok (g.energy s) ∧
      ∃ f, m.toQubo (Table.single "w" 3) = .ok f ∧
        f.energy (fun l => if l = "c" then 0 else 1) = g.energy s := by
  intro m s g
  have hising : couplingModel.toIsing (Table.single "w" 3) = .ok g := by decide +kernel
  have horder : couplingModel.order = ["a", "b", "c"] := by decide +kernel
  have hvalues : couplingModel.order.map s = [1, 1, -1] := by
    rw [horder]
    rfl
  have hs : ∀ l ∈ couplingModel.order, s l = -1 ∨ s l = 1 := by
    rw [horder]
    decide +kernel
  obtain ⟨hspins, ⟨f, hf, hbits, -⟩, -⟩ := Expr.energy_toIsing_compile .standard starCoupling
    (Table.single "w" 3) (compile_starCoupling ▸ hising) s (compile_starCoupling ▸ hs)
  have hhalf : (fun l => (s l + 1) / 2) = fun l => if l = "c" then 0 else 1 := by
    funext l
    by_cases hl : l = "c" <;> norm_num [s, hl]
  simp only [m, compile_starCoupling] at hspins hf ⊢
  refine ⟨hising, by decide +kernel, ?_, f, hf, hhalf ▸ hbits⟩
  exact hvalues ▸ hspins .list

end PseudoBoolean
