import PseudoBoolean.Ising
import PseudoBoolean.Proofs.Table.Renaming

/-! # Renamed variables

Renaming the variables of a quadratic form by a map that keeps their order leaves the
sequence of the entries alone. So the spin form of the renamed entries adds up the same
numbers in the same sequence, and is the renamed spin form, whatever the arithmetic does.
-/

namespace PseudoBoolean

variable {κ ω ν α : Type} [Ord κ] [Ord ω] {r : κ → ω} {S : Set κ} {T : Set (Cell κ)}

/-- The cell with renamed row and column. -/
def Cell.map (r : κ → ω) (c : Cell κ) : Cell ω := ⟨r c.row, r c.col⟩

theorem Cell.keepsOrder_map (hr : Table.KeepsOrder r S) (hT : ∀ c ∈ T, c.row ∈ S ∧ c.col ∈ S) :
    Table.KeepsOrder (Cell.map r) T := by
  intro c hc d hd
  have hrow := hr c.row (hT c hc).1 d.row (hT d hd).1
  have hcol := hr c.col (hT c hc).2 d.col (hT d hd).2
  show (compare (r c.row) (r d.row)).then (compare (r c.col) (r d.col)) = _
  rw [hrow, hcol]
  rfl

/-- A quadratic form with renamed variables. -/
structure QuadraticForm.RenamedBy (r : κ → ω) (f : QuadraticForm κ ν) (g : QuadraticForm ω ν) :
    Prop where
  entries : f.entries.RenamedBy (Cell.map r) g.entries
  offset : g.offset = f.offset

/-- A spin form with renamed variables. -/
structure Ising.RenamedBy (r : κ → ω) (m : Ising κ α) (n : Ising ω α) : Prop where
  linear : m.linear.RenamedBy r n.linear
  quadratic : m.quadratic.RenamedBy (Cell.map r) n.quadratic
  offset : n.offset = m.offset

theorem QuadraticForm.renamed_relabel [Std.TransOrd ω] [Std.LawfulEqOrd ω] [DecidableEq ω]
    (hr : Table.KeepsOrder (Cell.map r) T) {f : QuadraticForm κ ν}
    (hf : ∀ c ∈ f.entries.keys, c ∈ T) :
    f.entries.Renamed (Cell.map r) T (f.relabel r).entries :=
  Table.renamed_ofList hr hf

namespace Ising

variable [Std.TransOrd κ] [Std.TransOrd ω] [DecidableEq κ] [DecidableEq ω] [Scalar α]

/-- The spin forms that are made of the same entries so far. -/
structure Renamed (r : κ → ω) (S : Set κ) (T : Set (Cell κ)) (m : Ising κ α) (n : Ising ω α) :
    Prop where
  linear : m.linear.Renamed r S n.linear
  quadratic : m.quadratic.Renamed (Cell.map r) T n.quadratic
  offset : n.offset = m.offset

variable [Std.LawfulEqOrd κ] {m : Ising κ α} {n : Ising ω α}

theorem Renamed.addEntry (hr : Table.KeepsOrder r S) (hT : ∀ c ∈ T, c.row ∈ S ∧ c.col ∈ S)
    (h : Renamed r S T m n) {c : Cell κ} (hc : c ∈ T) (x : α) :
    Renamed r S T (m.addEntry c x) (n.addEntry (c.map r) x) := by
  obtain ⟨hrow, hcol⟩ := hT c hc
  have hdiagonal : (c.map r).row = (c.map r).col ↔ c.row = c.col := hr.injOn.eq_iff hrow hcol
  unfold Ising.addEntry
  simp only [hdiagonal]
  split
  · exact ⟨h.linear.upsert hr hrow _, h.quadratic, congrArg (· + _) h.offset⟩
  · refine ⟨(h.linear.upsert hr hrow _).upsert hr hcol _, ?_, congrArg (· + _) h.offset⟩
    exact h.quadratic.upsert (Cell.keepsOrder_map hr hT) hc _

theorem renamed_ofForm (hr : Table.KeepsOrder r S) (hT : ∀ c ∈ T, c.row ∈ S ∧ c.col ∈ S)
    {f : QuadraticForm κ α} {g : QuadraticForm ω α}
    (h : f.entries.Renamed (Cell.map r) T g.entries) (hoffset : g.offset = f.offset) :
    Renamed r S T (ofForm f) (ofForm g) := by
  have hfold : ∀ (l : List (Cell κ × α)) (m : Ising κ α) (n : Ising ω α),
      (∀ e ∈ l, e.1 ∈ T) → Renamed r S T m n →
      Renamed r S T (l.foldl (fun m e => m.addEntry e.1 e.2) m)
        ((l.map fun e => (e.1.map r, e.2)).foldl (fun n e => n.addEntry e.1 e.2) n) := by
    intro l
    induction l with
    | nil => exact fun _ _ _ h => h
    | cons e rest ih =>
      intro m n hl h
      rw [List.map_cons, List.foldl_cons, List.foldl_cons]
      exact ih _ _ (fun d hd => hl d (List.mem_cons_of_mem _ hd))
        (h.addEntry hr hT (hl e List.mem_cons_self) e.2)
  rw [ofForm, ofForm, h.entries]
  apply hfold f.entries.entries
  · exact fun e he => h.keys_mem e.1 (List.mem_map_of_mem he)
  · exact ⟨Table.renamed_empty, Table.renamed_empty, hoffset⟩

end Ising

end PseudoBoolean
