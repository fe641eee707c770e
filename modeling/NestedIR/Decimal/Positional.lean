import NestedIR.Decimal.Shortest

/-! Positional notation writes every digit in its place, with a point and without an exponent. -/

namespace NestedIR.Decimal

/-- A natural number as decimal digits, led by zeros up to a width. -/
def paddedDigits (width number : Nat) : List Char :=
  let digits := Nat.toDigits 10 number
  List.replicate (width - digits.length) '0' ++ digits

/-- The digits around the point, at least one on either side of it. -/
def positional (number : Decimal) : String :=
  match number.exponent with
  | .ofNat zeros =>
    -- A whole number is padded up to the point, and a lone zero follows.
    String.ofList
      (Nat.toDigits 10 number.coefficient ++ List.replicate zeros '0' ++ ['.', '0'])
  | .negSucc before =>
    let places := before + 1
    let whole := number.coefficient / Nat.pow 10 places
    let fraction := number.coefficient % Nat.pow 10 places
    String.ofList (Nat.toDigits 10 whole ++ '.' :: paddedDigits places fraction)

end NestedIR.Decimal
