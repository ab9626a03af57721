/-! # Values of doubles

A double is read off its 64 bits: a sign, eleven bits of exponent and fifty-two
bits of fraction.
-/

namespace PseudoBoolean

/-- What a double stands for. A finite one is `mantissa * 2 ^ exponent` with its sign,
where `mantissa < 2 ^ 53`. -/
inductive Binary64 where
  | nan
  | infinite (negative : Bool)
  | finite (negative : Bool) (mantissa : Nat) (exponent : Int)
deriving DecidableEq

namespace Binary64

def leadingBit : Nat := Nat.pow 2 52

def signBit : Nat := Nat.pow 2 63

/-- Reads a double off its bits. Exponent field 0 has no implicit leading bit, and
2047 is kept for the values that are not finite. -/
def ofFloat (x : Float) : Binary64 :=
  let bits : Nat := x.toBits.toNat
  let negative := bits / signBit == 1
  let field : Nat := bits / leadingBit % 2048
  let fraction : Nat := bits % leadingBit
  if field = 2047 then
    if fraction = 0 then .infinite negative else .nan
  else if field = 0 then .finite negative fraction (-1074)
  else .finite negative (leadingBit + fraction) ((field : Int) - 1075)

def toNat? : Binary64 → Option Nat
  | .nan | .infinite _ => none
  | .finite negative mantissa exponent =>
    if negative && mantissa != 0 then none
    else if 0 ≤ exponent then some (mantissa * Nat.pow 2 exponent.toNat)
    else if mantissa % Nat.pow 2 exponent.natAbs = 0 then
      some (mantissa / Nat.pow 2 exponent.natAbs)
    else none

/-- The place of a double in the total order, from its 64 bits: negative ones are before
positive ones and in descending order of the bits without the sign, positive ones in ascending
order. A value that is not a number is therefore first if its sign bit is set, and last
otherwise. -/
def rankKey (bits : UInt64) : Int :=
  let bits : Nat := bits.toNat
  if bits < signBit then (bits : Int) else -((bits - signBit : Nat) : Int) - 1

/-- The total order of doubles, given by their bits. Only equal bits are ranked equal. -/
def rank : UInt64 → UInt64 → Ordering := compareOn rankKey

end Binary64

end PseudoBoolean
