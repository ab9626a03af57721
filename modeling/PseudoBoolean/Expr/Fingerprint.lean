import PseudoBoolean.Expr.Basic
import PseudoBoolean.OrderedSet

/-! # Fingerprints of expressions

The data that a hash of an expression is computed from is a list of bytes, and in it
digests of parts. Factors and terms enter through their digests in ascending order, each
term once, so expressions that are equal have the same data, whatever the hash function
is. The fingerprint of an expression is its data where digests are written out: as the
data of the part between two marks that are no bytes, so two digests agree only if their
data do.
-/

namespace PseudoBoolean

/-- The bytes of a text in UTF-8, closed by a byte that no text contains. -/
def textBytes (s : String) : List Nat :=
  (s.toList.flatMap String.utf8EncodeChar).map UInt8.toNat ++ [255]

def wordBytes (n : Nat) : List Nat := (List.range 8).map fun i => n / Nat.pow 256 i % 256

/-- A hash function, and the way its digests are written into the data of a whole. -/
structure Hasher (δ : Type) where
  digest : List Nat → δ
  write : δ → List Nat

namespace Hasher

variable {δ : Type} [Ord δ]

def writePair (h : Hasher δ) (d e : δ) : List Nat :=
  if (compare d e).isLE then h.write d ++ h.write e else h.write e ++ h.write d

/-- Digests in ascending order, each once, after their number. -/
def writeSet [Std.TransOrd δ] (h : Hasher δ) (digests : List δ) : List Nat :=
  let distinct := OrderedSet.ofList digests
  wordBytes distinct.size ++ distinct.elems.flatMap h.write

def bracketed : Hasher (List Nat) where
  digest data := 256 :: data ++ [257]
  write digest := digest

end Hasher

def Variable.fingerprint (v : Variable) : List Nat := textBytes v.label

namespace Expr

/-- The bits of a double, the same for both zeros. -/
def numberBits (x : Float) : Nat := if x == 0 then 0 else x.toBits.toNat

section
variable {δ : Type} [Ord δ] [Std.TransOrd δ]

mutual

/-- The data that the hash of an expression is computed from. -/
def hashData (h : Hasher δ) : Expr Float → List Nat
  | num x => 0 :: wordBytes (numberBits x)
  | var _ v => v.fingerprint
  | placeholder p => 2 :: textBytes p
  | product l r => 3 :: h.writePair (h.digest (hashData h l)) (h.digest (hashData h r))
  | sum terms => 4 :: h.writeSet (termDigests h terms)
  | constraint label e => 5 :: textBytes label ++ hashData h e
  | named name e => 6 :: textBytes name ++ hashData h e
  | penalized label e p => 7 :: textBytes label ++ hashData h e ++ hashData h p

def termDigests (h : Hasher δ) : List (Expr Float) → List δ
  | [] => []
  | e :: rest => h.digest (hashData h e) :: termDigests h rest

end

end

def fingerprint (e : Expr Float) : List Nat := e.hashData .bracketed

end Expr

end PseudoBoolean
