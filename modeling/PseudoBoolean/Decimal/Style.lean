import PseudoBoolean.Decimal.Shortest

/-! # Written numbers

Doubles are written with the digits of their shortest decimal. Messages and printed
expressions write every number positionally and a whole number without a point;
listings of data always show a point, and write very large and very small numbers with
an exponent.
-/

namespace PseudoBoolean

/-- How the digits of a number are laid out. -/
structure NumberStyle where
  /-- Whether a number is written without an exponent, by the place of its point. -/
  positional : Int → Bool
  /-- Whether a whole number that is written positionally ends in a point and a zero. -/
  pointed : Bool

namespace NumberStyle

def plain : NumberStyle := ⟨fun _ => true, false⟩

/-- Positionally from `10 ^ -4` up to below `10 ^ 16`, with at least one digit after the
point; with an exponent elsewhere. -/
def listing : NumberStyle := ⟨fun point => -3 ≤ point && point ≤ 16, true⟩

def writePositional (style : NumberStyle) (d : Decimal) : List Char :=
  if d.point ≤ 0 then
    ['0', '.'] ++ List.replicate d.point.natAbs '0' ++ d.digits
  else
    let whole := d.point.toNat
    if d.digits.length ≤ whole then
      d.digits ++ List.replicate (whole - d.digits.length) '0'
        ++ (if style.pointed then ['.', '0'] else [])
    else d.digits.take whole ++ ['.'] ++ d.digits.drop whole

def writeExponent (d : Decimal) : List Char :=
  let fraction := d.digits.drop 1
  d.digits.take 1 ++ (if fraction.isEmpty then [] else '.' :: fraction)
    ++ ['e'] ++ (toString (d.point - 1)).toList

def writeDecimal (style : NumberStyle) (d : Decimal) : List Char :=
  if style.positional d.point then style.writePositional d else writeExponent d

/-- Writes a double. Only a finite or an infinite one shows its sign. -/
def write (style : NumberStyle) (x : Float) : String :=
  match Binary64.ofFloat x with
  | .nan => "NaN"
  | .infinite negative => if negative then "-inf" else "inf"
  | .finite negative mantissa exponent =>
    let text := style.writeDecimal (Decimal.shortest mantissa exponent)
    String.ofList (if negative then '-' :: text else text)

end NumberStyle

end PseudoBoolean
