import Mathlib
import PseudoBoolean.Compilation
import PseudoBoolean.Proofs.Expr.Nodes
import PseudoBoolean.Proofs.Expr.Rearrangement

/-! # Layouts and families

A survey visits the families of the variables one after the other, so its layout is told
from this list alone. It has the labels of all families, and under a label the path of the
family that lays out the label and is first met after all others that do. Where families
agree on the labels that they share, neither the order of the families nor their number
matters, and the layout is the union of theirs.
-/

namespace PseudoBoolean

/-! ## Visits -/

namespace Survey

theorem visit_of_mem {s : Survey} {f : Family} (h : f ∈ s.met) : s.visit f = s := if_pos h

theorem visit_of_not_mem {s : Survey} {f : Family} (h : f ∉ s.met) :
    s.visit f = ⟨f :: s.met, s.layout.extend f.layout⟩ := if_neg h

/-- The survey that visits the families of a list. -/
def ofFamilies (l : List Family) : Survey := l.foldl visit start

theorem ofFamilies_append_singleton (l : List Family) (f : Family) :
    ofFamilies (l ++ [f]) = (ofFamilies l).visit f := List.foldl_append

theorem mem_met_ofFamilies {l : List Family} {f : Family} : f ∈ (ofFamilies l).met ↔ f ∈ l := by
  induction l using List.reverseRecOn with
  | nil => exact Iff.rfl
  | append_singleton l g ih =>
    rw [ofFamilies_append_singleton, List.mem_append, List.mem_singleton, ← ih]
    by_cases hg : g ∈ (ofFamilies l).met
    · rw [visit_of_mem hg]
      exact ⟨.inl, fun h => h.elim id fun h => h ▸ hg⟩
    · rw [visit_of_not_mem hg, List.mem_cons, or_comm]

/-- Whether a family has the path of a label, and no other family with a path for it is
first met later. -/
structure Decides (l : List Family) (label : String) (path : Path) (f : Family) : Prop where
  mem : f ∈ l
  find : f.layout.find? label = some path
  last : ∀ g ∈ l, label ∈ g.layout.keys → l.idxOf g ≤ l.idxOf f

variable {l : List Family} {label : String} {path : Path} {f g : Family}

theorem decides_append_of_mem (hg : g ∈ l) :
    Decides (l ++ [g]) label path f ↔ Decides l label path f := by
  have hmem : ∀ h, h ∈ l ++ [g] ↔ h ∈ l := fun h =>
    ⟨fun hh => (List.mem_append.mp hh).elim id fun hh => List.mem_singleton.mp hh ▸ hg,
      List.mem_append_left _⟩
  have hidx : ∀ h ∈ l, (l ++ [g]).idxOf h = l.idxOf h := fun h hh => List.idxOf_append_of_mem hh
  constructor
  · rintro ⟨hf, hfind, hlast⟩
    have hfl := (hmem f).mp hf
    refine ⟨hfl, hfind, fun h hh hkey => ?_⟩
    rw [← hidx h hh, ← hidx f hfl]
    exact hlast h ((hmem h).mpr hh) hkey
  · rintro ⟨hf, hfind, hlast⟩
    refine ⟨(hmem f).mpr hf, hfind, fun h hh hkey => ?_⟩
    rw [hidx h ((hmem h).mp hh), hidx f hf]
    exact hlast h ((hmem h).mp hh) hkey

/-- A new family decides all labels that it lays out, and no others. -/
theorem decides_append_of_not_mem (hg : g ∉ l) :
    Decides (l ++ [g]) label path f ↔
      (f = g ∧ g.layout.find? label = some path) ∨
        (label ∉ g.layout.keys ∧ Decides l label path f) := by
  have hidx : ∀ h ∈ l, (l ++ [g]).idxOf h = l.idxOf h := fun h hh => List.idxOf_append_of_mem hh
  have hlength : (l ++ [g]).idxOf g = l.length := by
    rw [List.idxOf_append_of_notMem hg, List.idxOf_cons_self, Nat.add_zero]
  constructor
  · rintro ⟨hf, hfind, hlast⟩
    obtain hf | hf := List.mem_append.mp hf
    · refine .inr ⟨fun hkey => ?_, hf, hfind, fun h hh hkey => ?_⟩
      · have hle := hlast g List.mem_concat_self hkey
        rw [hlength, hidx f hf] at hle
        exact absurd (List.idxOf_lt_length_of_mem hf) (Nat.not_lt.mpr hle)
      · rw [← hidx h hh, ← hidx f hf]
        exact hlast h (List.mem_append_left _ hh) hkey
    · obtain rfl := List.mem_singleton.mp hf
      exact .inl ⟨rfl, hfind⟩
  · rintro (⟨rfl, hfind⟩ | ⟨hkey, hf, hfind, hlast⟩)
    · refine ⟨List.mem_concat_self, hfind, fun h hh _ => ?_⟩
      rw [hlength]
      obtain hh | hh := List.mem_append.mp hh
      · rw [hidx h hh]
        exact List.idxOf_le_length
      · rw [List.mem_singleton.mp hh, hlength]
    · refine ⟨List.mem_append_left _ hf, hfind, fun h hh hh' => ?_⟩
      obtain hh | hh := List.mem_append.mp hh
      · rw [hidx h hh, hidx f hf]
        exact hlast h hh hh'
      · exact absurd (List.mem_singleton.mp hh ▸ hh') hkey

theorem find?_ofFamilies :
    (ofFamilies l).layout.find? label = some path ↔ ∃ f, Decides l label path f := by
  induction l using List.reverseRecOn with
  | nil => exact ⟨nofun, fun ⟨f, hf⟩ => absurd hf.mem List.not_mem_nil⟩
  | append_singleton l g ih =>
    rw [ofFamilies_append_singleton]
    by_cases hg : g ∈ l
    · rw [visit_of_mem (mem_met_ofFamilies.mpr hg), ih]
      exact exists_congr fun f => (decides_append_of_mem hg).symm
    · rw [visit_of_not_mem (mt mem_met_ofFamilies.mp hg), Table.find?_extend]
      simp only [decides_append_of_not_mem hg, exists_or, exists_and_left, exists_eq_left]
      cases hfind : g.layout.find? label with
      | none =>
        have hkey : label ∉ g.layout.keys := by
          rw [Table.mem_keys_iff_isSome, hfind]
          exact Bool.false_ne_true
        simp [hkey, ih]
      | some p =>
        have hkey : label ∈ g.layout.keys := Table.mem_keys_iff.mpr ⟨p, hfind⟩
        simp [hkey]

theorem mem_keys_ofFamilies :
    label ∈ (ofFamilies l).layout.keys ↔ ∃ f ∈ l, label ∈ f.layout.keys := by
  induction l using List.reverseRecOn with
  | nil => exact ⟨fun h => absurd h List.not_mem_nil, fun ⟨f, hf, _⟩ => absurd hf List.not_mem_nil⟩
  | append_singleton l g ih =>
    simp only [List.mem_append, List.mem_singleton, or_and_right, exists_or, exists_eq_left, ← ih]
    rw [ofFamilies_append_singleton]
    by_cases hg : g ∈ l
    · rw [visit_of_mem (mem_met_ofFamilies.mpr hg)]
      exact ⟨.inl, fun h => h.elim id fun h => ih.mpr ⟨g, hg, h⟩⟩
    · rw [visit_of_not_mem (mt mem_met_ofFamilies.mp hg)]
      simp only [Table.mem_keys_iff_isSome, Table.find?_extend, Option.isSome_or, Bool.or_eq_true,
        or_comm]

/-! ## Families that agree -/

/-- Whether families have the same path for each label that they share. -/
def Compatible (l : List Family) : Prop :=
  ∀ f ∈ l, ∀ g ∈ l, ∀ label p q, f.layout.find? label = some p → g.layout.find? label = some q →
    p = q

theorem find?_ofFamilies_of_compatible (h : Compatible l) :
    (ofFamilies l).layout.find? label = some path ↔ ∃ f ∈ l, f.layout.find? label = some path := by
  constructor
  · intro hpath
    obtain ⟨f, hf⟩ := find?_ofFamilies.mp hpath
    exact ⟨f, hf.mem, hf.find⟩
  · rintro ⟨f, hf, hfind⟩
    obtain ⟨q, hq⟩ := Table.mem_keys_iff.mp
      (mem_keys_ofFamilies.mpr ⟨f, hf, Table.mem_keys_iff.mpr ⟨path, hfind⟩⟩)
    obtain ⟨g, hg⟩ := find?_ofFamilies.mp hq
    rw [hq, h f hf g hg.mem label path q hfind hg.find]

theorem layout_ofFamilies_congr {m : List Family} (h : Compatible l) (hm : ∀ f, f ∈ m ↔ f ∈ l) :
    (ofFamilies m).layout = (ofFamilies l).layout := by
  have hcompatible : Compatible m := fun f hf g hg => h f ((hm f).mp hf) g ((hm g).mp hg)
  apply Table.ext_find?
  intro label
  apply Option.ext
  intro path
  rw [find?_ofFamilies_of_compatible hcompatible, find?_ofFamilies_of_compatible h]
  exact exists_congr fun f => and_congr_left fun _ => hm f

end Survey

/-! ## Surveys of expressions -/

namespace Expr

variable {α : Type}

def family? : Expr α → Option Family
  | var _ v => some v.family
  | _ => none

/-- The families of the variables, from left to right and a body before its penalty. -/
def families (e : Expr α) : List Family := e.leaves.filterMap family?

theorem exists_mem_families_iff {e : Expr α} {P : Family → Prop} :
    (∃ f ∈ e.families, P f) ↔ ∃ d v, var d v ∈ e.nodes ∧ P v.family := by
  simp only [families, List.mem_filterMap]
  constructor
  · rintro ⟨f, ⟨leaf, hleaf, h⟩, hf⟩
    cases leaf <;> cases h
    exact ⟨_, _, var_mem_leaves_iff.mp hleaf, hf⟩
  · rintro ⟨d, v, hv, hf⟩
    exact ⟨v.family, ⟨var d v, var_mem_leaves_iff.mpr hv, rfl⟩, hf⟩

theorem families_product (l r : Expr α) : (product l r).families = l.families ++ r.families :=
  List.filterMap_append

theorem families_penalized (label : String) (e p : Expr α) :
    (penalized label e p).families = e.families ++ p.families := List.filterMap_append

theorem families_sum (terms : List (Expr α)) : (sum terms).families = terms.flatMap families := by
  rw [families, leaves]
  induction terms with
  | nil => rfl
  | cons e rest ih => rw [termLeaves, List.filterMap_append, ih, List.flatMap_cons, families]

/-- A survey of an expression goes on to visit the families of its variables. -/
theorem survey_eq (e : Expr α) (s : Survey) : survey s e = e.families.foldl Survey.visit s := by
  induction e using Expr.induction generalizing s with
  | num x => rfl
  | var d v => rfl
  | placeholder p => rfl
  | product l r ihl ihr => rw [survey, ihl, ihr, families_product, List.foldl_append]
  | sum terms ih =>
    rw [survey, families_sum]
    induction terms generalizing s with
    | nil => rfl
    | cons e rest ihrest =>
      rw [surveyTerms, ih e List.mem_cons_self, List.flatMap_cons, List.foldl_append]
      exact ihrest (fun d hd => ih d (List.mem_cons_of_mem _ hd)) _
  | constraint label e ih => exact ih s
  | named name e ih => exact ih s
  | penalized label e p ihe ihp => rw [survey, ihe, ihp, families_penalized, List.foldl_append]

theorem layout_eq (e : Expr α) : e.layout = (Survey.ofFamilies e.families).layout := by
  rw [layout, survey_eq, Survey.ofFamilies]

theorem Rearranged.families_perm {d e : Expr α} (h : Rearranged d e) :
    d.families.Perm e.families := by
  induction h with
  | refl e => exact .refl _
  | symm _ ih => exact ih.symm
  | trans _ _ ih ih' => exact ih.trans ih'
  | permute h =>
    rw [families_sum, families_sum]
    exact h.flatMap_right _
  | swap l r =>
    rw [families_product, families_product]
    exact List.perm_append_comm
  | flatten before inner after =>
    simp only [families_sum, List.flatMap_append, List.flatMap_cons, List.append_assoc]
    exact .refl _
  | unwrap e => rw [families_sum, List.flatMap_singleton]
  | term before after _ ih =>
    simp only [families_sum, List.flatMap_append, List.flatMap_cons]
    exact (ih.append_right _).append_left _
  | product _ _ ihl ihr =>
    rw [families_product, families_product]
    exact ihl.append ihr
  | constraint label _ ih => exact ih
  | named name _ ih => exact ih
  | penalized label _ _ ihe ihp =>
    rw [families_penalized, families_penalized]
    exact ihe.append ihp

/-- The layout of a model has the labels that the families of the variables lay out, each
under the path of the family that is first met last among those with a path for it. If the
families agree, it is their union, and any expression with the same families has it. -/
theorem layout_compile [Scalar α] (o : Options α) (e : Expr α) :
    let layout := (e.compile o).layout
    (∀ l, l ∈ layout.keys ↔ ∃ d v, var d v ∈ e.nodes ∧ l ∈ v.family.layout.keys) ∧
    (∀ l path, layout.find? l = some path ↔
      ∃ f ∈ e.families, f.layout.find? l = some path ∧
        ∀ g ∈ e.families, l ∈ g.layout.keys → e.families.idxOf g ≤ e.families.idxOf f) ∧
    (Survey.Compatible e.families →
      (∀ l path, layout.find? l = some path ↔
        ∃ d v, var d v ∈ e.nodes ∧ v.family.layout.find? l = some path) ∧
      (∀ d : Expr α, (∀ f, f ∈ d.families ↔ f ∈ e.families) → (d.compile o).layout = layout) ∧
      ∀ d, Rearranged d e → (d.compile o).layout = layout) := by
  have hlayout : ∀ d : Expr α, (d.compile o).layout = (Survey.ofFamilies d.families).layout :=
    layout_eq
  simp only [hlayout]
  refine ⟨fun l => ?_, fun l path => ?_, fun hcompatible => ⟨fun l path => ?_, fun d hd => ?_,
    fun d hd => ?_⟩⟩
  · rw [Survey.mem_keys_ofFamilies, exists_mem_families_iff]
  · rw [Survey.find?_ofFamilies]
    exact exists_congr fun f => ⟨fun h => ⟨h.mem, h.find, h.last⟩, fun h => ⟨h.1, h.2.1, h.2.2⟩⟩
  · rw [Survey.find?_ofFamilies_of_compatible hcompatible, exists_mem_families_iff]
  · exact Survey.layout_ofFamilies_congr hcompatible hd
  · exact Survey.layout_ofFamilies_congr hcompatible fun f => hd.families_perm.mem_iff

def cellFamily : Family :=
  ⟨0, Table.ofList [("a", [.name "cells", .index 0]), ("c", [.name "cells", .index 1])]⟩

def nameFamily : Family := ⟨1, Table.ofList [("b", [.name "b"]), ("c", [.name "c"])]⟩

/-- Between two cells, a variable of a family that lays out one of them elsewhere. -/
def overlaidCells : Expr Rat :=
  penalized "limit" (product (var .binary ⟨"a", cellFamily⟩) (var .spin ⟨"b", nameFamily⟩))
    (sum [num 2, var .binary ⟨"c", cellFamily⟩])

theorem layout_compile_overlaidCells :
    let layout := (overlaidCells.compile .standard).layout
    let x : Expr Rat := var .binary (.ofLabel 0 "x")
    let y : Expr Rat := var .spin (.ofLabel 1 "y")
    "a" ∈ layout.keys ∧ layout.find? "c" = some [.name "c"] ∧
      ((product x y).compile .standard).layout = ((product y x).compile .standard).layout := by
  intro layout x y
  obtain ⟨hkeys, hpath, -⟩ := layout_compile .standard overlaidCells
  obtain ⟨-, -, hunion⟩ := layout_compile .standard (product y x)
  have ha : ∃ f ∈ overlaidCells.families, "a" ∈ f.layout.keys := ⟨cellFamily, by decide, by decide⟩
  -- A variable by itself is placed under its label.
  have hown : ∀ f ∈ (product y x).families, ∃ id l, f = (Variable.ofLabel id l).family :=
    List.forall_mem_cons.mpr ⟨⟨1, "y", rfl⟩, List.forall_mem_singleton.mpr ⟨0, "x", rfl⟩⟩
  have hpaths : ∀ f ∈ (product y x).families, ∀ l p, f.layout.find? l = some p → p = [.name l] := by
    intro f hf l p hp
    obtain ⟨id, l', rfl⟩ := hown f hf
    cases List.mem_singleton.mp (Table.find?_eq_some_iff.mp hp)
    rfl
  have hcompatible : Survey.Compatible (product y x).families := by
    intro f hf g hg l p q hp hq
    rw [hpaths f hf l p hp, hpaths g hg l q hq]
  exact ⟨(hkeys "a").mpr (exists_mem_families_iff.mp ha),
    (hpath "c" _).mpr ⟨nameFamily, by decide, rfl, by decide +kernel⟩,
    (hunion hcompatible).2.2 _ (.swap x y)⟩

end Expr

end PseudoBoolean
