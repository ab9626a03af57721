import PseudoBoolean.Proofs.Decoded
import PseudoBoolean.Proofs.Model.Regular
import PseudoBoolean.Proofs.Scalar.Bits

/-! # Presentations of an assignment

The bits of the variables may be presented as a list, by label or by index, and as bits or
as spins. The model reads the same bits from all of them, so that they have the same
energy and break the same constraints. The decoded trees of spins are those of bits with
spins at the leaves.
-/

namespace PseudoBoolean

variable {α : Type} [Scalar α]

/-- The ways to write down values of the variables in the order of these. -/
inductive Presentation where
  | list
  | byLabel
  | byIndex

namespace Presentation

def solution (order : List String) (values : List α) : Presentation → Solution α
  | list => .list values
  | byLabel => .labels (Table.ofList (order.zip values))
  | byIndex => .indices (Table.ofList ((List.range order.length).zip values))

variable {order : List String} (horder : order.Pairwise fun a b => compare a b = .lt)
include horder

omit [Scalar α] in
/-- A model reads the same entries from every presentation. -/
theorem entries_solution {values : List α} (hlength : values.length = order.length)
    (extra : String → Bool) (p : Presentation) :
    (p.solution order values).entries order extra = .ok (order.zip values) := by
  cases p with
  | list => exact if_pos hlength
  | byLabel =>
    rw [solution, Solution.entries, Table.entries_ofList_zip horder hlength.ge]
    refine (mapM_eq_ok (g := id) fun e he => ?_).trans (by rw [List.map_id])
    have he : e.1 ∈ order := (List.of_mem_zip he).1
    rw [List.contains_iff_mem.mpr he, Bool.true_or, if_pos rfl, id]
  | byIndex =>
    have hrange : (List.range order.length).Pairwise fun j k => compare j k = .lt :=
      List.pairwise_lt_range.imp Nat.compare_eq_lt.mpr
    rw [solution, Solution.entries, Table.entries_ofList_zip hrange (by simp [hlength]),
      mapM_eq_ok_iff, List.forall₂_iff_get]
    refine ⟨by simp [hlength], fun k hk _ => ?_⟩
    have hk : k < order.length := by
      rw [List.length_zip, List.length_range] at hk
      omega
    simp [List.getElem?_eq_getElem hk]

/-- Bits are read from every presentation in both domains. -/
theorem bits_solution [LawfulBits α] {values : List α} (hlength : values.length = order.length)
    (hvalues : ∀ b ∈ values, b = 0 ∨ b = 1) (extra : String → Bool) (domain : Domain)
    (p : Presentation) :
    (p.solution order (values.map domain.ofBit)).bits order extra domain
      = .ok (Table.ofList (order.zip values)) := by
  have hmap : (values.map domain.ofBit).length = order.length := by rw [List.length_map, hlength]
  refine Solution.bits_eq_ok (entries_solution horder hmap extra p) ?_ fun l hl => ?_
  · rw [mapM_eq_ok_iff, List.zip_map_right, List.forall₂_map_left_iff, List.forall₂_same]
    intro e he
    rw [Solution.bit_eq_ok_iff]
    exact ⟨rfl, LawfulBits.toBit?_ofBit domain (hvalues e.2 (List.of_mem_zip he).2)⟩
  · rw [List.map_fst_zip hmap.ge]
    exact hl

end Presentation

namespace Model

variable {m : Model α} {domain : Domain} {feed : Feed α} {bits : Table String α}

/-! ## Decoding -/

theorem mapLeaves_place (m : Model α) (bits : Table String α) :
    (m.place .binary bits).mapLeaves Domain.spin.ofBit = m.place .spin bits := by
  rw [place, place, ← Decoded.mapLeaves_empty]
  refine (List.foldl_hom (Decoded.mapLeaves Domain.spin.ofBit) fun d e => ?_).symm
  cases bits.find? e.1 with
  | none => rfl
  | some b => exact (Decoded.mapLeaves_insert _ b e.2 d).symm

theorem energy_of_bits {s : Solution α} (h : m.bits domain s = .ok bits) :
    m.energy domain s feed = m.bitEnergy bits feed := by
  rw [energy, h]
  rfl

/-- Spins are decoded like their bits, with spins at the leaves. -/
theorem decode_spin {s t : Solution α} (hs : m.bits .spin s = .ok bits)
    (ht : m.bits .binary t = .ok bits) :
    m.decode .spin s feed = (m.decode .binary t feed).map fun d =>
      { d with tree := d.tree.mapLeaves Domain.spin.ofBit } := by
  rw [decode, decode, hs, ht]
  simp only [bind, Except.bind]
  cases (m.audit bits feed).result with
  | error err => rfl
  | ok broken =>
    cases m.bitEnergy bits feed with
    | error err => rfl
    | ok energy =>
      simp only [pure, Except.pure, Except.map, mapLeaves_place]

theorem decode_congr {s t : Solution α} (h : m.bits domain s = m.bits domain t) :
    m.decode domain s feed = m.decode domain t feed := by
  rw [decode, decode, h]

/-! ## Acceptance -/

/-- Whether a solution assigns every variable, names nothing beyond the variables and the
layout, and has all its values in the domain. -/
def Accepts (m : Model α) (domain : Domain) : Solution α → Prop
  | .list values => values.length = m.order.length ∧ ∀ x ∈ values, domain.Has x
  | .labels values => (∀ l ∈ values.keys, l ∈ m.order ∨ l ∈ m.layout.keys) ∧
    (∀ l ∈ m.order, l ∈ values.keys) ∧ values.AllValues domain.Has
  | .indices values => (∀ k ∈ values.keys, k < m.order.length) ∧
    (∀ k < m.order.length, k ∈ values.keys) ∧ values.AllValues domain.Has

instance : (s : Solution α) → Decidable (m.Accepts domain s)
  | .list values => inferInstanceAs (Decidable
    (values.length = m.order.length ∧ ∀ x ∈ values, domain.Has x))
  | .labels values => inferInstanceAs (Decidable
    ((∀ l ∈ values.keys, l ∈ m.order ∨ l ∈ m.layout.keys) ∧ (∀ l ∈ m.order, l ∈ values.keys) ∧
      values.AllValues domain.Has))
  | .indices values => inferInstanceAs (Decidable
    ((∀ k ∈ values.keys, k < m.order.length) ∧ (∀ k < m.order.length, k ∈ values.keys) ∧
      values.AllValues domain.Has))

theorem exists_bits_iff {s : Solution α} :
    (∃ bits, m.bits domain s = .ok bits) ↔ m.Accepts domain s := by
  rw [Model.bits, Solution.exists_bits_iff]
  cases s with
  | list values =>
    exact and_congr_right fun _ => and_iff_left fun l hl => hl
  | labels values =>
    rw [Accepts, and_comm (a := ∀ l ∈ m.order, l ∈ values.keys)]
    refine and_congr ?_ (and_congr_left' List.forall_mem_map)
    simp only [Solution.Known, Table.contains, Table.mem_keys_iff_isSome]
  | indices values =>
    rw [Accepts, and_comm (a := ∀ k < m.order.length, k ∈ values.keys)]
    refine and_congr_right fun hknown => and_congr List.forall_mem_map ?_
    simp only [Solution.assigned, List.mem_filterMap]
    constructor
    · intro h k hk
      obtain ⟨j, hj, hjk⟩ := h m.order[k] (List.getElem_mem hk)
      -- No variable occurs twice in the order.
      obtain ⟨hlength, heq⟩ := List.getElem?_eq_some_iff.mp hjk
      rwa [← m.form.diagonal_nodup.getElem_inj_iff.mp heq]
    · intro h l hl
      obtain ⟨k, hk, rfl⟩ := List.getElem_of_mem hl
      exact ⟨k, h k hk, List.getElem?_eq_getElem hk⟩

/-- The energy depends on the bits of the variables alone. -/
theorem Regular.bitEnergy_congr (hm : m.Regular) {bits' : Table String α}
    (h : ∀ l ∈ m.order, bits.find? l = bits'.find? l) :
    m.bitEnergy bits feed = m.bitEnergy bits' feed := by
  rw [bitEnergy, bitEnergy]
  cases hf : m.toQubo feed with
  | error err => rfl
  | ok f =>
    refine congrArg Except.ok (QuadraticForm.energy_congr fun c hc => ?_)
    obtain ⟨hrow, hcol⟩ := hm.mem_order_of_toQubo hf hc
    rw [h _ hrow, h _ hcol]
    exact ⟨rfl, rfl⟩

end Model

/-- All presentations of the bits of the variables mean the same: they have the same energy,
are decoded with the same verdict on the constraints, and differ in the leaves of the tree
only, where spins have twice the bit less 1. A solution is accepted if it assigns every
variable a value of the domain and names nothing unknown. Then exactly the labels that it
assigns have a bit, and those that are no variables do not count in the energy. -/
theorem Expr.presentations_compile [LawfulBits α] (o : Options α) (e : Expr α) :
    let m := e.compile o
    (∀ v : List α, v.length = m.order.length → (∀ b ∈ v, b = 0 ∨ b = 1) →
      ∀ (p : Presentation) (feed : Feed α),
        let bits := p.solution m.order v
        let spins := p.solution m.order (v.map Domain.spin.ofBit)
        m.energy .binary bits feed = m.energy .binary (.list v) feed ∧
        m.energy .spin spins feed = m.energy .binary (.list v) feed ∧
        m.decode .binary bits feed = m.decode .binary (.list v) feed ∧
        m.decode .spin spins feed = (m.decode .binary (.list v) feed).map fun d =>
          { d with tree := d.tree.mapLeaves Domain.spin.ofBit }) ∧
    (∀ domain s, (∃ bits, m.bits domain s = .ok bits) ↔ m.Accepts domain s) ∧
    (∀ domain s bits, m.bits domain s = .ok bits →
      (bits.AllValues fun b => (b == 0) = true ∨ (b == 1) = true) ∧
      ∀ l, l ∈ bits.keys ↔ l ∈ s.assigned m.order) ∧
    ∀ domain (s t : Table String α) (feed : Feed α),
      m.Accepts domain (.labels s) → m.Accepts domain (.labels t) →
      (∀ l ∈ m.order, s.find? l = t.find? l) →
      m.energy domain (.labels s) feed = m.energy domain (.labels t) feed := by
  intro m
  have hm : m.Regular := regular_compile o e
  refine ⟨fun v hlength hv p feed => ?_, fun domain s => Model.exists_bits_iff,
    fun domain s bits hbits => ⟨?_, fun l => Solution.mem_keys_bits_iff hbits⟩,
    fun domain s t feed hs ht hsame => ?_⟩
  · have hread : ∀ (domain : Domain) (p : Presentation),
        m.bits domain (p.solution m.order (v.map domain.ofBit))
          = .ok (Table.ofList (m.order.zip v)) :=
      Presentation.bits_solution hm.ascending hlength hv m.layout.contains
    have hid : v.map Domain.binary.ofBit = v := List.map_id v
    have hbits := hid ▸ hread .binary p
    have hlist := hid ▸ hread .binary .list
    intro bits spins
    have hspins := hread .spin p
    exact ⟨(Model.energy_of_bits hbits).trans (Model.energy_of_bits hlist).symm,
      (Model.energy_of_bits hspins).trans (Model.energy_of_bits hlist).symm,
      Model.decode_congr (hbits.trans hlist.symm), Model.decode_spin hspins hlist⟩
  · rw [Table.allValues_iff]
    intro l b hb
    obtain ⟨x, hx⟩ := Solution.exists_toBit?_of_bits hbits hb
    exact LawfulBits.zero_or_one_of_toBit? hx
  · obtain ⟨sbits, hsbits⟩ := Model.exists_bits_iff.mpr hs
    obtain ⟨tbits, htbits⟩ := Model.exists_bits_iff.mpr ht
    rw [Model.energy_of_bits hsbits, Model.energy_of_bits htbits]
    apply hm.bitEnergy_congr
    intro l hl
    rw [Solution.find?_bits_labels hsbits, Solution.find?_bits_labels htbits, hsame l hl]

/-- A product of a spin with one of two cells. -/
def cellProduct : Expr Float :=
  let cells : Family :=
    ⟨0, Table.ofList [("x[0]", [.name "x", .index 0]), ("x[1]", [.name "x", .index 1])]⟩
  .product (.var .spin (.ofLabel 1 "b")) (.var .binary ⟨"x[0]", cells⟩)

def cellModel : Model Float where
  form := Qubo.ofPolynomial cellProduct.polynomial
  layout := cellProduct.layout
  constraints := ∅

theorem compile_cellProduct : cellProduct.compile .standard = cellModel :=
  (Expr.compile_of_quadratic (by decide +kernel)).2

theorem presentations_cellProduct :
    let m := cellProduct.compile .standard
    let spins : Solution Float := .indices (Table.ofList [(0, 1), (1, -1)])
    let cells (x : Float) : Table String Float := Table.ofList [("b", 1), ("x[0]", 0), ("x[1]", x)]
    m.order = ["b", "x[0]"] ∧
      m.energy .spin spins ∅ = m.energy .binary (.list [1, 0]) ∅ ∧
      (m.decode .spin spins ∅ = (m.decode .binary (.list [1, 0]) ∅).map fun d =>
        { d with tree := d.tree.mapLeaves Domain.spin.ofBit }) ∧
      (∃ bits, m.bits .binary (.labels (cells 1)) = .ok bits ∧
        (bits.AllValues fun b => (b == 0) = true ∨ (b == 1) = true) ∧ "x[1]" ∈ bits.keys) ∧
      m.energy .binary (.labels (cells 0)) ∅ = m.energy .binary (.labels (cells 1)) ∅ := by
  intro m spins cells
  obtain ⟨hsame, haccepted, hbits, hextra⟩ := Expr.presentations_compile .standard cellProduct
  simp only [m, compile_cellProduct] at hsame haccepted hbits hextra ⊢
  have horder : cellModel.order = ["b", "x[0]"] := by decide +kernel
  have hspins : Presentation.byIndex.solution cellModel.order
      ([1, 0].map Domain.spin.ofBit) = spins := by
    have hvalues : [1, 0].map Domain.spin.ofBit = [1, (-1 : Float)] := by decide +kernel
    rw [horder, hvalues]
    rfl
  obtain ⟨-, henergy, -, hdecode⟩ := hsame [1, 0] (by rw [horder]; rfl) (by simp) .byIndex ∅
  rw [hspins] at henergy hdecode
  have hzero : cellModel.Accepts .binary (.labels (cells 0)) := by decide +kernel
  have hone : cellModel.Accepts .binary (.labels (cells 1)) := by decide +kernel
  obtain ⟨bits, hread⟩ := (haccepted _ _).mpr hone
  obtain ⟨hvalues, hkeys⟩ := hbits _ _ _ hread
  refine ⟨horder, henergy, hdecode, ⟨bits, hread, hvalues, (hkeys _).mpr (by decide)⟩, ?_⟩
  apply hextra _ _ _ _ hzero hone
  rw [horder]
  decide

end PseudoBoolean
