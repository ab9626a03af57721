import Mathlib
import PseudoBoolean.Proofs.Compilation
import PseudoBoolean.Proofs.Model.Audit
import PseudoBoolean.Proofs.Polynomial.Evaluation

/-! # Regular models

A model is regular if its form lies on and above the diagonal, the diagonal is complete
and gives the order of the variables, and the index of a variable is its place in this
order. Compiled models are regular, whatever the expression and the options are. So every
look-up on the way from a regular model to its energies has a result: the indices of the
variables of an entry, and the bits of an accepted solution.
-/

namespace PseudoBoolean

theorem idxOf?_eq_some_iff_of_nodup {l : List String} (h : l.Nodup) {a : String} {k : Nat} :
    l.idxOf? a = some k ↔ l[k]? = some a := by
  rw [List.idxOf?_eq_some_iff, List.getElem?_eq_some_iff]
  refine exists_congr fun hk => and_iff_left_of_imp ?_
  rintro rfl j hj heq
  exact hj.ne (h.getElem_inj_iff.mp heq)

variable {α : Type} [Scalar α]

theorem Qubo.mem_keys_of_eval {f : Qubo α} {feed : Feed α} {q : QuadraticForm String α}
    (h : f.eval feed = .ok q) : ∀ c ∈ q.entries.keys, c ∈ f.entries.keys := by
  obtain ⟨entries, hentries, h⟩ := bind_eq_ok h
  obtain ⟨offset, -, h⟩ := bind_eq_ok h
  cases h
  intro c hc
  obtain ⟨d, hd, rfl⟩ := List.mem_map.mp (Table.mem_keys_ofList.mp hc)
  obtain ⟨e, he, hed⟩ := exists_of_mem_mapM hentries d hd
  obtain ⟨x, -, hed⟩ := bind_eq_ok hed
  cases hed
  exact List.mem_map_of_mem he

namespace Model

/-- What holds of the form and the order of every compiled model. -/
structure Regular (m : Model α) : Prop where
  upper : ∀ c ∈ m.form.entries.keys, (compare c.row c.col).isLE = true
  diagonal : ∀ c ∈ m.form.entries.keys,
    Cell.mk c.row c.row ∈ m.form.entries.keys ∧ Cell.mk c.col c.col ∈ m.form.entries.keys
  ascending : m.order.Pairwise fun a b => compare a b = .lt
  mem_order : ∀ l, l ∈ m.order ↔ ∃ c ∈ m.form.entries.keys, l = c.row ∨ l = c.col
  indexOf? : ∀ l k, m.indexOf? l = some k ↔ m.order[k]? = some l

variable {m : Model α}

omit [Scalar α] in
theorem regular_of_form
    (hupper : ∀ c ∈ m.form.entries.keys, (compare c.row c.col).isLE = true)
    (hdiagonal : ∀ c ∈ m.form.entries.keys, c.row ∈ m.order ∧ c.col ∈ m.order) : m.Regular where
  upper := hupper
  diagonal c hc := by
    obtain ⟨hrow, hcol⟩ := hdiagonal c hc
    exact ⟨QuadraticForm.mem_diagonal.mp hrow, QuadraticForm.mem_diagonal.mp hcol⟩
  ascending := m.form.diagonal_ascending
  mem_order l := by
    refine ⟨fun hl => ⟨⟨l, l⟩, QuadraticForm.mem_diagonal.mp hl, .inl rfl⟩, ?_⟩
    rintro ⟨c, hc, rfl | rfl⟩
    · exact (hdiagonal c hc).1
    · exact (hdiagonal c hc).2
  indexOf? l k := idxOf?_eq_some_iff_of_nodup m.form.diagonal_nodup

variable {feed : Feed α} {c : Cell String} {l : String}

theorem Regular.mem_order_of_toQubo (h : m.Regular) {f : QuadraticForm String α}
    (hf : m.toQubo feed = .ok f) (hc : c ∈ f.entries.keys) : c.row ∈ m.order ∧ c.col ∈ m.order :=
  have hform := Qubo.mem_keys_of_eval hf c hc
  ⟨(h.mem_order _).mpr ⟨c, hform, .inl rfl⟩, (h.mem_order _).mpr ⟨c, hform, .inr rfl⟩⟩

omit [Scalar α] in
theorem Regular.indexOf?_eq_idxOf (h : m.Regular) (hl : l ∈ m.order) :
    m.indexOf? l = some (m.order.idxOf l) :=
  (h.indexOf? l _).mpr (List.getElem?_idxOf hl)

end Model

namespace Expr

theorem regular_compile (o : Options α) (e : Expr α) : (e.compile o).Regular := by
  apply Model.regular_of_form
  · rw [compile_form]
    exact fun c hc => Qubo.upper_of_mem_ofPolynomial degree_le_of_mem_quadratic hc
  · exact mem_order_of_mem_form

/-- A compiled model is regular. Each variable of an entry has the index that it is
renamed to, and a bit in every accepted solution. A constraint that has an energy at these
bits finds the bits of its variables. -/
theorem lookups_compile (o : Options α) (e : Expr α) (feed : Feed α) :
    let m := e.compile o
    m.Regular ∧
    (∀ f, m.toQubo feed = .ok f → ∀ c ∈ f.entries.keys,
      m.indexOf? c.row = some (m.order.idxOf c.row) ∧
      m.indexOf? c.col = some (m.order.idxOf c.col)) ∧
    ∀ domain solution bits, m.bits domain solution = .ok bits →
      (∀ f, m.toQubo feed = .ok f → ∀ c ∈ f.entries.keys,
        (∃ x, bits.find? c.row = some x) ∧ ∃ y, bits.find? c.col = some y) ∧
      ∀ label p x, m.constraints.find? label = some p → p.energy bits.find? feed = .ok x →
        ∀ l ∈ p.labels, ∃ y, bits.find? l = some y := by
  intro m
  have hregular : m.Regular := regular_compile o e
  refine ⟨hregular, fun f hf c hc => ?_,
    fun domain solution bits hbits => ⟨fun f hf c hc => ?_, ?_⟩⟩
  · obtain ⟨hrow, hcol⟩ := hregular.mem_order_of_toQubo hf hc
    exact ⟨hregular.indexOf?_eq_idxOf hrow, hregular.indexOf?_eq_idxOf hcol⟩
  · obtain ⟨hrow, hcol⟩ := hregular.mem_order_of_toQubo hf hc
    exact ⟨Table.mem_keys_iff.mp (Solution.mem_keys_of_bits hbits _ hrow),
      Table.mem_keys_iff.mp (Solution.mem_keys_of_bits hbits _ hcol)⟩
  · exact fun label p x _ hx => Polynomial.exists_value_of_energy hx

/-- A product of a spin with a variable whose label has a star of its own. -/
def starProduct : Expr Rat :=
  .product (.var .spin (.ofLabel 0 "b")) (.var .binary (.ofLabel 1 "a*c"))

def starModel : Model Rat where
  form := Qubo.ofPolynomial starProduct.polynomial
  layout := starProduct.layout
  constraints := ∅

theorem compile_starProduct : starProduct.compile .standard = starModel :=
  (compile_of_quadratic (by cbv)).2

theorem lookups_starProduct :
    let m := starProduct.compile .standard
    let bits : Table String Rat := Table.ofList [("a*c", 1), ("b", 0)]
    let entries : Table (Cell String) Rat :=
      Table.ofList [(⟨"a*c", "a*c"⟩, -1), (⟨"a*c", "b"⟩, 2), (⟨"b", "b"⟩, 0)]
    m.Regular ∧ m.toQubo ∅ = .ok ⟨entries, 0⟩ ∧ m.bits .binary (.list [1, 0]) = .ok bits ∧
      m.indexOf? "a*c" = some (m.order.idxOf "a*c") ∧ ∃ x, bits.find? "b" = some x := by
  intro m bits entries
  have hform : starModel.toQubo ∅ = .ok ⟨entries, 0⟩ := by cbv
  have hbits : starModel.bits .binary (.list [1, 0]) = .ok bits := by rfl
  have hentry : ⟨"a*c", "b"⟩ ∈ entries.keys := by decide
  obtain ⟨hregular, hindex, haccepted⟩ := lookups_compile .standard starProduct ∅
  simp only [m, compile_starProduct] at hregular hindex haccepted ⊢
  obtain ⟨hfound, -⟩ := haccepted .binary (.list [1, 0]) bits hbits
  exact ⟨hregular, hform, hbits, (hindex _ hform _ hentry).1, (hfound _ hform _ hentry).2⟩

end Expr

end PseudoBoolean
