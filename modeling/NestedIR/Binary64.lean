import NestedIR.Decimal.Positional

/-! Binary64 numbers are read from bits and written as the shortest decimal that reads back. -/

namespace NestedIR

/-- What the bits of a binary64 number stand for. -/
inductive Binary64 where
  /-- Not a number. -/
  | nan
  /-- An infinity with its sign. -/
  | infinite (negative : Bool)
  /-- The number `mantissa · 2 ^ exponent` with its sign. -/
  | finite (negative : Bool) (mantissa : Nat) (exponent : Int)
deriving DecidableEq

namespace Binary64

/-- The sign bit, eleven exponent bits and 52 fraction bits select the number. -/
def ofBits (bits : UInt64) : Binary64 :=
  let negative := bits.toNat / Nat.pow 2 63 == 1
  let biased : Nat := bits.toNat / Nat.pow 2 52 % Nat.pow 2 11
  let fraction : Nat := bits.toNat % Nat.pow 2 52
  if biased = 2047 then
    if fraction = 0 then infinite negative else nan
  -- The smallest exponent is shared by the numbers without an implicit leading bit.
  else if biased = 0 then finite negative fraction (-1074)
  else finite negative (Nat.pow 2 52 + fraction) (Int.ofNat biased - 1075)

/--
The fewest digits that read back as `mantissa · 2 ^ exponent`, for a positive mantissa.

A decimal reads back when it lies between the midpoints to the neighbouring numbers.
A midpoint itself reads back exactly when the mantissa is even.
Just below a power of two the neighbours are closer together, so the lower midpoint is closer too.
-/
def shortestDecimal (mantissa : Nat) (exponent : Int) : Decimal :=
  -- A quarter of the gap to the next number, written without a fraction in units of `10 ^ -places`.
  let places := (2 - exponent).toNat
  let quarter := Nat.pow 2 (exponent - 2).toNat * Nat.pow 5 places
  let value := 4 * mantissa * quarter
  let gapBelow := if mantissa = Nat.pow 2 52 && exponent != -1074 then quarter else 2 * quarter
  let lower := value - gapBelow
  let upper := value + 2 * quarter
  let inside (candidate : Nat) : Bool :=
    if mantissa % 2 = 0 then lower ≤ candidate && candidate ≤ upper
    else lower < candidate && candidate < upper
  Decimal.shortest inside value (-places)

/-- A sign is written for every negative number, zero included. -/
def signed (negative : Bool) (text : String) : String := if negative then "-" ++ text else text

/-- The positional decimal text of a number. -/
def toText : Binary64 → String
  | nan => "NaN"
  | infinite negative => signed negative "inf"
  | finite negative mantissa exponent =>
    signed negative <|
      if mantissa = 0 then "0.0" else (shortestDecimal mantissa exponent).positional

end Binary64

end NestedIR
