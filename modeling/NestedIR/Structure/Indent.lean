import NestedIR.Fault

/-! Lines are indented by words of 64 bits, and the build decides what follows the greatest one. -/

namespace NestedIR

/-- What becomes of a sum of machine words that is too large to be one. -/
inductive Overflow where
  /-- It wraps around, as in a build without checks. -/
  | wraps
  /-- It stops the program, as in a build that checks its sums. -/
  | stops
deriving DecidableEq

/--
The indentation of some items that stand one level further in.

The sum is taken for each item, so that without any item none is too large.
-/
def Overflow.inner {α : Type} (overflow : Overflow) (indent : UInt64) :
    List α → Except Fault UInt64
  | [] => .ok (indent + 1)
  | _ :: _ =>
    if overflow = .stops ∧ UInt64.size ≤ indent.toNat + 1 then .error .sumTooLarge
    else .ok (indent + 1)

/-- No indentation is left behind the greatest word alone, in a build that checks its sums. -/
theorem Overflow.inner_eq {α : Type} (overflow : Overflow) (indent : UInt64) (items : List α) :
    overflow.inner indent items =
      if overflow = .stops ∧ UInt64.size ≤ indent.toNat + 1 ∧ items ≠ [] then .error .sumTooLarge
      else .ok (indent + 1) := by
  cases items <;> simp [inner]

/-- The indentation one level further in is the next word, unless the sum is too large. -/
theorem Overflow.inner_cases {α : Type} (overflow : Overflow) (indent : UInt64) (items : List α) :
    overflow.inner indent items = .ok (indent + 1) ∨
      overflow.inner indent items = .error .sumTooLarge := by
  rw [inner_eq]
  split
  · exact .inr rfl
  · exact .inl rfl

/-- Where there is an indentation one level further in, it is the next word. -/
theorem Overflow.eq_of_inner {α : Type} {overflow : Overflow} {indent inner : UInt64}
    {items : List α} (made : overflow.inner indent items = .ok inner) : inner = indent + 1 := by
  rcases overflow.inner_cases indent items with next | tooLarge
  · exact Except.ok.inj (made.symm.trans next)
  · cases made.symm.trans tooLarge

/-- Sums that wrap around are never too large. -/
@[simp] theorem Overflow.inner_wraps {α : Type} (indent : UInt64) (items : List α) :
    Overflow.wraps.inner indent items = .ok (indent + 1) := by
  simp [inner_eq]

/-- Only the number of items matters for the indentation. -/
@[simp] theorem Overflow.inner_map {α β : Type} (overflow : Overflow) (indent : UInt64)
    (place : α → β) (items : List α) :
    overflow.inner indent (items.map place) = overflow.inner indent items := by
  simp [inner_eq]

end NestedIR
