/-! The shortest decimal inside an interval of numbers that all stand for the same thing. -/

namespace NestedIR

/-- A decimal number `coefficient · 10 ^ exponent`. -/
structure Decimal where
  /-- The digits, read as one natural number. -/
  coefficient : Nat
  /-- The power of ten that the digits count. -/
  exponent : Int
deriving DecidableEq

namespace Decimal

/--
The multiple of a step that lies in an interval and is nearest to a value inside it.

Only the two multiples around the value are candidates.
Where both lie in the interval at the same distance, the upper one is taken.
-/
def nearestMultiple (inside : Nat → Bool) (value step : Nat) : Option Nat :=
  let below := value / step
  let above := below + 1
  if inside (below * step) && inside (above * step) then
    some (if value - below * step < above * step - value then below else above)
  else if inside (below * step) then some below
  else if inside (above * step) then some above
  else none

/--
The coarsest power of ten, at most the given one, that has a multiple in the interval.

The answer is the nearest such multiple together with the power. The value itself is a multiple of
one, so the search always ends with an answer.
-/
def coarsestMultiple (inside : Nat → Bool) (value : Nat) : Nat → Nat × Nat
  | 0 => (value, 0)
  | power + 1 =>
    match nearestMultiple inside value (Nat.pow 10 (power + 1)) with
    | some multiple => (multiple, power + 1)
    | none => coarsestMultiple inside value power

/-- The decimal with the fewest digits in an interval around a value, in units of `10 ^ unit`. -/
def shortest (inside : Nat → Bool) (value : Nat) (unit : Int) : Decimal :=
  -- A power of ten with more digits than the value is coarser than any that can be needed.
  let (multiple, power) := coarsestMultiple inside value (Nat.toDigits 10 value).length
  ⟨multiple, power + unit⟩

end Decimal

end NestedIR
