import Mathlib
import PseudoBoolean.Proofs.Model.Regular
import PseudoBoolean.Proofs.QuadraticForm.Renaming

/-! # Models by index

The index of a variable is its place in the order of the variables, which is ascending. So
indices compare as labels do, and what a model exports by index is what it exports by label,
entry after entry and under renamed variables. The numbers are the same, not only equal up
to rounding.
-/

namespace PseudoBoolean

theorem compare_idxOf {l : List String} (h : l.Pairwise fun a b => compare a b = .lt)
    {a b : String} (ha : a ∈ l) (hb : b ∈ l) : compare (l.idxOf a) (l.idxOf b) = compare a b := by
  have hlt : ∀ {a b : String}, a ∈ l → b ∈ l → l.idxOf a < l.idxOf b → compare a b = .lt := by
    intro a b ha hb hab
    have hpair := List.pairwise_iff_getElem.mp h _ _ (List.idxOf_lt_length_of_mem ha)
      (List.idxOf_lt_length_of_mem hb) hab
    rwa [List.getElem_idxOf, List.getElem_idxOf] at hpair
  obtain hab | hab | hab := Nat.lt_trichotomy (l.idxOf a) (l.idxOf b)
  · rw [Nat.compare_eq_lt.mpr hab, hlt ha hb hab]
  · rw [(List.idxOf_inj ha).mp hab, Std.ReflOrd.compare_self, Std.ReflOrd.compare_self]
  · rw [Nat.compare_eq_gt.mpr hab, Std.OrientedCmp.gt_of_lt (hlt hb ha hab)]

namespace Model

variable {α : Type} [Scalar α] {m : Model α} {feed : Feed α} {f : QuadraticForm String α}

omit [Scalar α] in
theorem Regular.keepsOrder (h : m.Regular) :
    Table.KeepsOrder (fun l => m.order.idxOf l) {l | l ∈ m.order} :=
  fun _ ha _ hb => compare_idxOf h.ascending ha hb

/-- A cell of two variables above the diagonal or on it, by label and by index. -/
structure Upper (m : Model α) (c : Cell String) : Prop where
  row_mem : c.row ∈ m.order
  col_mem : c.col ∈ m.order
  labels : (compare c.row c.col).isLE = true
  indices : m.order.idxOf c.row ≤ m.order.idxOf c.col

theorem Regular.upper_of_toQubo (h : m.Regular) (hf : m.toQubo feed = .ok f) :
    ∀ c ∈ f.entries.keys, m.Upper c := by
  intro c hc
  obtain ⟨hrow, hcol⟩ := h.mem_order_of_toQubo hf hc
  have hle := h.upper c (Qubo.mem_keys_of_eval hf c hc)
  refine ⟨hrow, hcol, hle, ?_⟩
  rw [← h.keepsOrder _ hrow _ hcol] at hle
  exact Nat.isLE_compare.mp hle

theorem Regular.renamed_toQuboIndex (h : m.Regular) (hf : m.toQubo feed = .ok f) :
    m.toQuboIndex feed = .ok (f.relabel fun l => m.order.idxOf l) ∧
      f.entries.Renamed (Cell.map fun l => m.order.idxOf l) {c | c ∈ f.entries.keys}
        (f.relabel fun l => m.order.idxOf l).entries := by
  constructor
  · rw [toQuboIndex, hf]
    rfl
  · exact QuadraticForm.renamed_relabel
      (Cell.keepsOrder_map h.keepsOrder fun c hc => h.mem_order_of_toQubo hf hc) fun _ hc => hc

end Model

namespace Expr

variable {α : Type} [Scalar α]

/-- A compiled model exports the same form by label and by index, and the same spin form. -/
theorem toQuboIndex_compile (o : Options α) (e : Expr α) (feed : Feed α) :
    let m := e.compile o
    let index := fun l => m.order.idxOf l
    (∀ l ∈ m.order, m.indexOf? l = some (index l)) ∧
    (∀ err, (m.toQubo feed = .error err ↔ m.toQuboIndex feed = .error err) ∧
      (m.toIsing feed = .error err ↔ m.toIsingIndex feed = .error err)) ∧
    (∀ f, m.toQubo feed = .ok f → ∃ g, m.toQuboIndex feed = .ok g ∧ f.RenamedBy index g ∧
      ∀ c ∈ f.entries.keys, m.Upper c) ∧
    ∀ f, m.toIsing feed = .ok f → ∃ g, m.toIsingIndex feed = .ok g ∧ f.RenamedBy index g ∧
      (∀ l ∈ f.linear.keys, l ∈ m.order) ∧ ∀ c ∈ f.quadratic.keys, m.Upper c := by
  intro m index
  have hm : m.Regular := regular_compile o e
  refine ⟨fun l hl => hm.indexOf?_eq_idxOf hl, fun err => ?_, fun f hf => ?_, fun f hf => ?_⟩
  · rw [Model.toIsing, Model.toIsingIndex, Model.toQuboIndex]
    simp only [map_eq_error_iff, and_self]
  · obtain ⟨hg, hrenamed⟩ := hm.renamed_toQuboIndex hf
    have hcells := Cell.keepsOrder_map hm.keepsOrder fun c hc => hm.mem_order_of_toQubo hf hc
    exact ⟨_, hg, ⟨hrenamed.renamedBy hcells, rfl⟩, hm.upper_of_toQubo hf⟩
  · obtain ⟨q, hq, rfl⟩ := map_eq_ok_iff.mp hf
    obtain ⟨hg, hrenamed⟩ := hm.renamed_toQuboIndex hq
    have hmem : ∀ c ∈ q.entries.keys, c.row ∈ m.order ∧ c.col ∈ m.order :=
      fun c hc => hm.mem_order_of_toQubo hq hc
    have hising := Ising.renamed_ofForm hm.keepsOrder hmem hrenamed rfl
    refine ⟨Ising.ofForm (q.relabel index), ?_, ⟨?_, ?_, hising.offset⟩, ?_, ?_⟩
    · rw [Model.toIsingIndex, hg]
      rfl
    · exact hising.linear.renamedBy hm.keepsOrder
    · exact hising.quadratic.renamedBy (Cell.keepsOrder_map hm.keepsOrder hmem)
    · exact hising.linear.keys_mem
    · exact fun c hc => hm.upper_of_toQubo hq c (hising.quadratic.keys_mem c hc)

theorem toQuboIndex_starProduct :
    let m := starProduct.compile .standard
    (∃ f g, m.toQubo ∅ = .ok f ∧ m.toQuboIndex ∅ = .ok g ∧
      f.entries.find? ⟨"a*c", "b"⟩ = some 2 ∧ g.entries.find? ⟨0, 1⟩ = some 2) ∧
    ∃ f g, m.toIsing ∅ = .ok f ∧ m.toIsingIndex ∅ = .ok g ∧
      f.linear.find? "b" = some (1 / 2) ∧ g.linear.find? 1 = some (1 / 2) := by
  intro m
  let entries : Table (Cell String) Rat :=
    Table.ofList [(⟨"a*c", "a*c"⟩, -1), (⟨"a*c", "b"⟩, 2), (⟨"b", "b"⟩, 0)]
  have hform : starModel.toQubo ∅ = .ok ⟨entries, 0⟩ := by cbv
  have hspins : starModel.toIsing ∅ = .ok (Ising.ofForm ⟨entries, 0⟩) := by
    rw [Model.toIsing, hform]
    rfl
  have horder : starModel.order = ["a*c", "b"] := by decide
  obtain ⟨-, -, hqubo, hising⟩ := toQuboIndex_compile .standard starProduct ∅
  simp only [m, compile_starProduct, horder] at hqubo hising ⊢
  constructor
  · obtain ⟨g, hg, hrenamed, -⟩ := hqubo _ hform
    exact ⟨_, g, hform, hg, by decide, hrenamed.entries.find? ⟨"a*c", "b"⟩ (by decide)⟩
  · obtain ⟨g, hg, hrenamed, -⟩ := hising _ hspins
    have hlinear : (Ising.ofForm ⟨entries, 0⟩).linear.find? "b" = some (1 / 2) := by decide +kernel
    have hkey : "b" ∈ (Ising.ofForm ⟨entries, 0⟩).linear.keys :=
      Table.mem_keys_iff_isSome.mpr (hlinear ▸ rfl)
    exact ⟨_, g, hspins, hg, hlinear, (hrenamed.linear.find? "b" hkey).trans hlinear⟩

end Expr

end PseudoBoolean
