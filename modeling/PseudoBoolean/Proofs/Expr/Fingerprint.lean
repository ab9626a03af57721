import Mathlib
import PseudoBoolean.Expr.Fingerprint
import PseudoBoolean.Proofs.Expr.Equality
import PseudoBoolean.Proofs.Scalar.Double

/-! # Equal expressions have equal hashes

What is hashed of a product does not depend on the order of its factors, and what is
hashed of a sum depends on the set of the digests of its terms alone. So whatever the
hash function is, equal expressions are hashed alike, and expressions can be the keys of
a table as long as no number in them is a NaN.
-/

namespace PseudoBoolean

namespace Hasher

variable {δ : Type} [Ord δ] [Std.TransOrd δ] [Std.LawfulEqOrd δ] (h : Hasher δ)

theorem writePair_comm (d e : δ) : h.writePair d e = h.writePair e d := by
  rw [writePair, writePair, Std.OrientedOrd.eq_swap (a := e)]
  cases hde : compare d e with
  | lt => rfl
  | eq =>
    rw [Std.LawfulEqOrd.eq_of_compare hde]
    rfl
  | gt => rfl

theorem writeSet_congr {l m : List δ} (hlm : ∀ d, d ∈ l ↔ d ∈ m) : h.writeSet l = h.writeSet m := by
  have hset : OrderedSet.ofList l = OrderedSet.ofList m := by
    apply OrderedSet.ext_mem
    intro d
    rw [OrderedSet.mem_ofList, OrderedSet.mem_ofList, hlm]
  rw [writeSet, hset, writeSet]

end Hasher

namespace Expr

theorem numberBits_eq_of_beq {x y : Float} (h : (x == y) = true) : numberBits x = numberBits y := by
  have hzero : (x == 0) = (y == 0) := by
    rw [Bool.eq_iff_iff]
    exact ⟨BEq.trans (BEq.symm h), BEq.trans h⟩
  rw [numberBits, numberBits, hzero]
  split
  · rfl
  · next hy =>
    obtain ⟨-, hy'⟩ | ⟨rfl, -⟩ := Double.beq_iff.mp h
    · exact absurd (Double.beq_iff.mpr (.inl ⟨hy', Double.isZero_zero⟩)) hy
    · rfl

variable {δ : Type} [Ord δ] [Std.TransOrd δ] (h : Hasher δ)

theorem termDigests_eq (terms : List (Expr Float)) :
    termDigests h terms = terms.map fun e => h.digest (hashData h e) := by
  induction terms with
  | nil => rfl
  | cons e rest ih => rw [termDigests, ih, List.map_cons]

theorem hashData_eq_of_beq [Std.LawfulEqOrd δ] {a b : Expr Float} (hab : (a == b) = true) :
    hashData h a = hashData h b := by
  induction a using Expr.induction generalizing b with
  | num x =>
    cases Matches.of_beq hab with
    | num hx => rw [hashData, hashData, numberBits_eq_of_beq hx]
  | var d v =>
    cases Matches.of_beq hab with
    | var hv => rw [hashData, hashData, Variable.fingerprint, Variable.fingerprint, hv]
  | placeholder label =>
    cases Matches.of_beq hab with
    | placeholder => rfl
  | product l r ihl ihr =>
    cases Matches.of_beq hab with
    | product hl hr => rw [hashData, hashData, ihl hl, ihr hr]
    | swapped hl hr => rw [hashData, hashData, ihl hl, ihr hr, h.writePair_comm]
  | sum v ih =>
    cases Matches.of_beq hab with
    | @sum _ w hv hw =>
      have hdigests : ∀ d, d ∈ termDigests h v ↔ d ∈ termDigests h w := by
        intro d
        rw [termDigests_eq, termDigests_eq, List.mem_map, List.mem_map]
        constructor
        · rintro ⟨e, he, rfl⟩
          obtain ⟨e', he', hee⟩ := hv e he
          exact ⟨e', he', by rw [ih e he hee]⟩
        · rintro ⟨e', he', rfl⟩
          obtain ⟨e, he, hee⟩ := hw e' he'
          exact ⟨e, he, by rw [ih e he hee]⟩
      rw [hashData, hashData, h.writeSet_congr hdigests]
  | constraint label e ih =>
    cases Matches.of_beq hab with
    | constraint he => rw [hashData, hashData, ih he]
  | named name e ih =>
    cases Matches.of_beq hab with
    | named he => rw [hashData, hashData, ih he]
  | penalized label e p ihe ihp =>
    cases Matches.of_beq hab with
    | penalized he hp => rw [hashData, hashData, ihe he, ihp hp]

/-- Equality of expressions over doubles is symmetric and transitive, reflexive exactly
where no number is a NaN, and respected by every hash. -/
theorem beq_laws [Std.LawfulEqOrd δ] (a b c : Expr Float) :
    ((a == b) = true → (b == a) = true) ∧
    ((a == b) = true → (b == c) = true → (a == c) = true) ∧
    ((a == a) = true ↔ ∀ x, num x ∈ a.nodes → x.isNaN = false) ∧
    ((a == b) = true → hashData h a = hashData h b) := by
  refine ⟨beq_symm, beq_trans, ?_, hashData_eq_of_beq h⟩
  rw [beq_self_iff]
  exact forall₂_congr fun x _ => Double.beq_self_iff

/-- A product and a zero, arranged in one of three ways. -/
def zeroSums : Expr Float × Expr Float × Expr Float :=
  let x := var .binary (.ofLabel 0 "x")
  let y := placeholder "y"
  (sum [product x y, num 0, num 0], sum [num (-0), product y x], sum [product y x, num 0])

theorem beq_zeroSums :
    let (a, b, c) := zeroSums
    (b == a) = true ∧ (a == c) = true ∧ (a == a) = true ∧ fingerprint a = fingerprint b := by
  obtain ⟨hsymm, htrans, hself, hhash⟩ :=
    beq_laws Hasher.bracketed zeroSums.1 zeroSums.2.1 zeroSums.2.2
  have hab : (zeroSums.1 == zeroSums.2.1) = true := by decide +kernel
  have hbc : (zeroSums.2.1 == zeroSums.2.2) = true := by decide +kernel
  refine ⟨hsymm hab, htrans hab hbc, hself.mpr fun x hx => ?_, hhash hab⟩
  have hzero : x = 0 := by simpa [zeroSums, nodes, termNodes] using hx
  rw [hzero]
  decide +kernel

end Expr

end PseudoBoolean
