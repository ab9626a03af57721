import PseudoBoolean.Table
import PseudoBoolean.Text.Quoted

/-! # Layouts

A layout says under which path the value of each variable is placed in a decoded
solution. A path leads through nested maps, whose keys are names and indices.
-/

namespace PseudoBoolean

inductive PathKey where
  | name (s : String)
  | index (i : Nat)
deriving DecidableEq

namespace PathKey

/-- Names come before indices. -/
protected def compare : PathKey → PathKey → Ordering
  | name s, name t => compare s t
  | name _, index _ => .lt
  | index _, name _ => .gt
  | index i, index j => compare i j

instance : Ord PathKey := ⟨PathKey.compare⟩

theorem compare_swap : ∀ k l : PathKey, PathKey.compare k l = (PathKey.compare l k).swap
  | name s, name t => (Std.OrientedOrd.eq_swap : compare s t = _)
  | name _, index _ => rfl
  | index _, name _ => rfl
  | index i, index j => (Std.OrientedOrd.eq_swap : compare i j = _)

theorem compare_isLE_trans : ∀ k l m : PathKey, (PathKey.compare k l).isLE →
    (PathKey.compare l m).isLE → (PathKey.compare k m).isLE
  | name s, name t, name u =>
    (Std.TransCmp.isLE_trans : (compare s t).isLE → _ → (compare s u).isLE)
  | index i, index j, index k =>
    (Std.TransCmp.isLE_trans : (compare i j).isLE → _ → (compare i k).isLE)
  | name _, _, index _ => fun _ _ => rfl
  | name _, index _, name _ => fun _ h => nomatch h
  | index _, name _, _ => fun h _ => nomatch h
  | index _, index _, name _ => fun _ h => nomatch h

instance : Std.TransOrd PathKey where
  eq_swap := compare_swap _ _
  isLE_trans := compare_isLE_trans _ _ _

theorem compare_self : ∀ k : PathKey, PathKey.compare k k = .eq
  | name _ => Std.ReflOrd.compare_self
  | index _ => Std.ReflOrd.compare_self

theorem eq_of_compare : ∀ k l : PathKey, PathKey.compare k l = .eq → k = l
  | name _, name _ => fun h => congrArg name (Std.LawfulEqOrd.eq_of_compare h)
  | index _, index _ => fun h => congrArg index (Std.LawfulEqOrd.eq_of_compare h)
  | name _, index _ => fun h => nomatch h
  | index _, name _ => fun h => nomatch h

instance : Std.LawfulEqOrd PathKey where
  compare_self := compare_self _
  eq_of_compare := eq_of_compare _ _

def text : PathKey → String
  | name s => Text.quote s
  | index i => toString i

end PathKey

abbrev Path := List PathKey

/-- The path of each variable, by label. -/
abbrev Layout := Table String Path

end PseudoBoolean
