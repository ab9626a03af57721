import Mathlib
import PseudoBoolean.Quadratization.Step

/-! # The parts of labels

Bringing a label into canonical form only permutes its parts, so the label of a product
has the parts of both factors. A label without a star is its own single part.
-/

namespace PseudoBoolean

theorem labelParts_ne_nil (label : String) : labelParts label ≠ [] := by
  rw [labelParts, Ne, List.map_eq_nil_iff]
  exact List.splitOn_ne_nil '*' label.toList

theorem exists_mem_labelParts (label : String) : ∃ part, part ∈ labelParts label :=
  List.exists_mem_of_ne_nil _ (labelParts_ne_nil label)

theorem not_mem_of_mem_splitOn {c : Char} {l part : List Char} (h : part ∈ l.splitOn c) :
    ¬ c ∈ part := by
  induction l generalizing part with
  | nil =>
    rw [List.splitOn_nil, List.mem_singleton] at h
    rw [h]
    exact List.not_mem_nil
  | cons d rest ih =>
    rw [List.splitOn_cons_eq_if_modifyHead] at h
    split at h
    · obtain rfl | h := List.mem_cons.mp h
      · exact List.not_mem_nil
      · exact ih h
    · next hd =>
      cases hsplit : rest.splitOn c with
      | nil => exact absurd hsplit (List.splitOn_ne_nil c rest)
      | cons head tail =>
        rw [hsplit] at ih h
        obtain rfl | h := List.mem_cons.mp h
        · intro hc
          obtain rfl | hc := List.mem_cons.mp hc
          · exact hd (beq_self_eq_true c)
          · exact ih List.mem_cons_self hc
        · exact ih (List.mem_cons_of_mem _ h)

theorem star_not_mem_of_mem_labelParts {label part : String} (h : part ∈ labelParts label) :
    ¬ '*' ∈ part.toList := by
  obtain ⟨l, hl, rfl⟩ := List.mem_map.mp h
  rw [String.toList_ofList]
  exact not_mem_of_mem_splitOn hl

theorem labelParts_eq_singleton {label : String} (h : ¬ '*' ∈ label.toList) :
    labelParts label = [label] := by
  rw [labelParts, List.splitOn_eq_singleton h, List.map_singleton, String.ofList_toList]

theorem labelParts_append (a b : String) :
    labelParts (a ++ "*" ++ b) = labelParts a ++ labelParts b := by
  have htoList : (a ++ "*" ++ b).toList = a.toList ++ '*' :: b.toList := by
    rw [String.toList_append, String.toList_append, List.append_assoc]
    rfl
  rw [labelParts, htoList, List.splitOn_append_cons_self, List.map_append]
  rfl

theorem labelParts_intercalate {parts : List String} (hne : parts ≠ [])
    (h : ∀ part ∈ parts, ¬ '*' ∈ part.toList) :
    labelParts (String.intercalate "*" parts) = parts := by
  have hstar : "*".toList = ['*'] := rfl
  rw [labelParts, String.toList_intercalate, hstar, List.splitOn_intercalate]
  · rw [List.map_map]
    exact List.map_id'' (fun _ => String.ofList_toList) parts
  · intro l hl
    obtain ⟨part, hpart, rfl⟩ := List.mem_map.mp hl
    exact h part hpart
  · exact fun hnil => hne (List.map_eq_nil_iff.mp hnil)

theorem labelParts_canonicalLabel (label : String) :
    labelParts (canonicalLabel label)
      = (labelParts label).mergeSort fun s t => (compare s t).isLE := by
  have hperm := List.mergeSort_perm (labelParts label) fun s t => (compare s t).isLE
  apply labelParts_intercalate
  · intro hnil
    rw [hnil] at hperm
    exact labelParts_ne_nil label (List.nil_perm.mp hperm)
  · exact fun part hpart => star_not_mem_of_mem_labelParts (hperm.mem_iff.mp hpart)

theorem labelParts_auxiliaryLabel (a b : String) :
    (labelParts (auxiliaryLabel a b)).Perm (labelParts a ++ labelParts b) := by
  rw [auxiliaryLabel, labelParts_canonicalLabel, labelParts_append]
  exact List.mergeSort_perm _ _

theorem canonicalLabel_eq_of_perm {s t : String} (h : (labelParts s).Perm (labelParts t)) :
    canonicalLabel s = canonicalLabel t := by
  have htotal : ∀ s t : String, ((compare s t).isLE || (compare t s).isLE) = true := by
    intro s t
    have hswap : compare s t = (compare t s).swap := Std.OrientedOrd.eq_swap
    rw [hswap]
    cases compare t s <;> rfl
  have hsorted : ∀ l : List String, (l.mergeSort fun s t => (compare s t).isLE).Pairwise
      fun s t => (compare s t).isLE = true :=
    List.pairwise_mergeSort (fun _ _ _ => Std.TransCmp.isLE_trans) htotal
  have hs := List.mergeSort_perm (labelParts s) fun s t => (compare s t).isLE
  have ht := List.mergeSort_perm (labelParts t) fun s t => (compare s t).isLE
  have hperm := (hs.trans h).trans ht.symm
  refine congrArg (String.intercalate "*") (hperm.eq_of_pairwise ?_ (hsorted _) (hsorted _))
  intro s t _ _ hst hts
  exact Std.LawfulEqCmp.eq_of_compare (Std.OrientedCmp.isLE_antisymm hst hts)

theorem auxiliaryLabel_comm (a b : String) : auxiliaryLabel a b = auxiliaryLabel b a := by
  apply canonicalLabel_eq_of_perm
  rw [labelParts_append, labelParts_append]
  exact List.perm_append_comm

theorem star_mem_auxiliaryLabel (a b : String) : '*' ∈ (auxiliaryLabel a b).toList := by
  apply Classical.byContradiction
  intro h
  have hlength := (labelParts_auxiliaryLabel a b).length_eq
  have ha := List.length_pos_iff.mpr (labelParts_ne_nil a)
  have hb := List.length_pos_iff.mpr (labelParts_ne_nil b)
  rw [labelParts_eq_singleton h, List.length_append, List.length_singleton] at hlength
  omega

theorem length_intercalate_star {parts : List (List Char)} (h : parts ≠ []) :
    (['*'].intercalate parts).length + 1 = (parts.map fun part => part.length + 1).sum := by
  induction parts with
  | nil => exact absurd rfl h
  | cons part rest ih =>
    cases rest with
    | nil => simp
    | cons next rest =>
      have hrest := ih (List.cons_ne_nil next rest)
      rw [List.intercalate_cons_cons, List.map_cons, List.sum_cons, ← hrest, List.length_append,
        List.length_append, List.length_singleton]
      omega

theorem length_eq_sum_labelParts (label : String) :
    label.toList.length + 1 = ((labelParts label).map fun part => part.toList.length + 1).sum := by
  have h := length_intercalate_star (List.splitOn_ne_nil '*' label.toList)
  rw [List.intercalate_splitOn] at h
  rw [h, labelParts, List.map_map]
  refine congrArg List.sum (List.map_congr_left fun part _ => ?_)
  rw [Function.comp_apply, String.toList_ofList]

theorem length_auxiliaryLabel (a b : String) :
    (auxiliaryLabel a b).toList.length = a.toList.length + b.toList.length + 1 := by
  have hsum := ((labelParts_auxiliaryLabel a b).map fun part => part.toList.length + 1).sum_eq
  rw [List.map_append, List.sum_append, ← length_eq_sum_labelParts, ← length_eq_sum_labelParts,
    ← length_eq_sum_labelParts] at hsum
  omega

end PseudoBoolean
