import NestedIR.Dialect.Builtin
import NestedIR.Proofs.Context.Request

/-! The integer types are told by their names, in which the width is written in decimal digits. -/

namespace NestedIR

/-- Decimal digits stand for a number. There must be one at least, and zeros may lead. -/
structure StandsFor (digits : List Char) (number : Nat) : Prop where
  /-- There is a digit. -/
  filled : digits ≠ []
  /-- There is nothing else. -/
  each : ∀ char ∈ digits, char.isDigit = true
  /-- The digits are those of the number. -/
  value : Nat.ofDigitChars 10 digits 0 = number

/-- The names of integer types are the letter i and a width, before which one plus sign may come. -/
inductive IntegerName (name : String) (width : Nat) : Prop where
  /-- The width follows the letter. -/
  | plain {digits : List Char} (written : name.toList = 'i' :: digits)
      (stands : StandsFor digits width)
  /-- The width follows a plus sign. -/
  | signed {digits : List Char} (written : name.toList = 'i' :: '+' :: digits)
      (stands : StandsFor digits width)

/-- Digits that are put behind a number do not make it smaller. -/
theorem le_ofDigitChars (digits : List Char) (number : Nat) :
    number ≤ Nat.ofDigitChars 10 digits number := by
  induction digits generalizing number with
  | nil => exact Nat.le_refl number
  | cons digit rest ih =>
    -- One digit makes the number ten times as large at least, or leaves it zero.
    rw [Nat.ofDigitChars_cons]
    have next : number ≤ 10 * number + (digit.toNat - '0'.toNat) := by omega
    exact Nat.le_trans next (ih _)

/-- One more digit is read exactly when the number still fits in 32 bits. -/
theorem appendDigit?_eq_some_iff {number next : Nat} {digit : Char} :
    appendDigit? number digit = some next ↔
      digit.isDigit = true ∧ 10 * number + (digit.toNat - '0'.toNat) = next ∧
        next < UInt32.size := by
  -- The digit is refused, or the sum is checked against the greatest number of 32 bits.
  simp only [appendDigit?, Option.ite_none_right_eq_some, Bool.and_eq_true, decide_eq_true_iff,
    Option.some.injEq]
  constructor
  · rintro ⟨⟨isDigit, small⟩, rfl⟩
    exact ⟨isDigit, rfl, small⟩
  · rintro ⟨isDigit, rfl, small⟩
    exact ⟨⟨isDigit, small⟩, rfl⟩

/--
Digits behind a number are read exactly when the whole number fits in 32 bits.

A number that is too large before its end stays too large.
-/
theorem foldlM_appendDigit?_eq_some_iff {digits : List Char} {number value : Nat}
    (fits : number < UInt32.size) :
    digits.foldlM appendDigit? number = some value ↔
      (∀ char ∈ digits, char.isDigit = true) ∧
        Nat.ofDigitChars 10 digits number = value ∧ value < UInt32.size := by
  induction digits generalizing number with
  | nil =>
    show some number = some value ↔ _ ∧ number = value ∧ _
    rw [Option.some.injEq]
    refine ⟨fun same => ⟨by simp, same, same ▸ fits⟩, fun all => all.2.1⟩
  | cons digit rest ih =>
    rw [List.foldlM_cons, Nat.ofDigitChars_cons, List.forall_mem_cons]
    constructor
    · intro readAll
      obtain ⟨next, read, readRest⟩ := Option.bind_eq_some_iff.mp readAll
      obtain ⟨isDigit, rfl, small⟩ := appendDigit?_eq_some_iff.mp read
      obtain ⟨digits, whole, bounded⟩ := (ih small).mp readRest
      exact ⟨⟨isDigit, digits⟩, whole, bounded⟩
    · rintro ⟨⟨isDigit, digits⟩, whole, bounded⟩
      -- The number up to this digit is no larger than the whole number.
      have small : 10 * number + (digit.toNat - '0'.toNat) < UInt32.size :=
        Nat.lt_of_le_of_lt (whole ▸ le_ofDigitChars rest _) bounded
      have read := appendDigit?_eq_some_iff.mpr ⟨isDigit, rfl, small⟩
      exact Option.bind_eq_some_iff.mpr ⟨_, read, (ih small).mpr ⟨digits, whole, bounded⟩⟩

/-- Digits are read exactly when their number fits in 32 bits. -/
theorem decimalValue?_eq_some_iff {digits : List Char} {value : Nat} :
    decimalValue? digits = some value ↔ StandsFor digits value ∧ value < UInt32.size := by
  rw [decimalValue?, Option.ite_none_left_eq_some, List.isEmpty_iff,
    foldlM_appendDigit?_eq_some_iff (by decide)]
  constructor
  · rintro ⟨filled, each, whole, bounded⟩
    exact ⟨⟨filled, each, whole⟩, bounded⟩
  · rintro ⟨⟨filled, each, whole⟩, bounded⟩
    exact ⟨filled, each, whole, bounded⟩

/-- What stands for a number does not begin with a plus sign. -/
theorem not_standsFor_plus {digits : List Char} {number : Nat} :
    ¬ StandsFor ('+' :: digits) number :=
  fun stands => absurd (stands.each '+' (by simp)) (by decide)

/-- The width behind the letter is read exactly when it fits in 32 bits. -/
theorem unsignedValue?_eq_some_iff {name : String} {chars : List Char} {width : Nat}
    (split : name.toList = 'i' :: chars) :
    unsignedValue? chars = some width ↔ IntegerName name width ∧ width < UInt32.size := by
  -- A plus sign is never one of the digits, so that the sign alone decides how the name is read.
  unfold unsignedValue?
  split
  · rename_i digits
    rw [decimalValue?_eq_some_iff]
    refine and_congr_left fun _ => ⟨.signed split, fun named => ?_⟩
    cases named with
    | plain written stands =>
      cases split.symm.trans written
      exact absurd stands not_standsFor_plus
    | signed written stands =>
      cases split.symm.trans written
      exact stands
  · rename_i unsigned
    rw [decimalValue?_eq_some_iff]
    refine and_congr_left fun _ => ⟨.plain split, fun named => ?_⟩
    cases named with
    | plain written stands =>
      cases split.symm.trans written
      exact stands
    | @signed digits written stands =>
      cases split.symm.trans written
      exact absurd rfl (unsigned digits)

/-- A name stands for one width at most. -/
theorem IntegerName.unique {name : String} {width other : Nat} (named : IntegerName name width)
    (again : IntegerName name other) : width = other := by
  -- The digits are the same, since a plus sign is not one of them.
  cases named with
  | plain written stands =>
    cases again with
    | plain writtenAgain standsAgain =>
      cases written.symm.trans writtenAgain
      exact stands.value.symm.trans standsAgain.value
    | signed writtenAgain standsAgain =>
      cases written.symm.trans writtenAgain
      exact absurd stands not_standsFor_plus
  | signed written stands =>
    cases again with
    | plain writtenAgain standsAgain =>
      cases written.symm.trans writtenAgain
      exact absurd standsAgain not_standsFor_plus
    | signed writtenAgain standsAgain =>
      cases written.symm.trans writtenAgain
      exact stands.value.symm.trans standsAgain.value

/-- The integer type of a width has its name. -/
theorem integerName_integer (width : Nat) : IntegerName (TypeData.integer width).name width := by
  have written : (TypeData.integer width).name.toList = 'i' :: Nat.toDigits 10 width := by
    rw [TypeData.integer, String.toList_append]
    exact congrArg ('i' :: ·) Nat.toList_repr
  exact .plain written ⟨Nat.toDigits_ne_nil,
    fun _ => Nat.isDigit_of_mem_toDigits (by decide) (by decide), Nat.ofDigitChars_ten_toDigits⟩

/-- A type is read as an integer type of the width that its name stands for, from 1 to 64. -/
theorem TypeData.integerWidth?_eq_some_iff {data : TypeData} {width : Nat} :
    data.integerWidth? = some width ↔ data.dialect = coreDialect ∧ data.params = [] ∧
      IntegerName data.name width ∧ 1 ≤ width ∧ width ≤ 64 := by
  rw [integerWidth?, Option.ite_none_right_eq_some, Bool.and_eq_true, decide_eq_true_iff,
    List.isEmpty_iff, and_assoc]
  refine and_congr_right fun _ => and_congr_right fun _ => ?_
  split
  · -- Every width up to 64 fits in 32 bits.
    rename_i chars written
    rw [Option.filter_eq_some_iff, unsignedValue?_eq_some_iff written, Bool.and_eq_true,
      decide_eq_true_iff, decide_eq_true_iff, and_assoc]
    exact and_congr_right fun _ =>
      ⟨And.right, fun bounds => ⟨Nat.lt_of_le_of_lt bounds.2 (by decide), bounds⟩⟩
  · -- Every name of an integer type begins with the letter.
    rename_i other
    refine ⟨nofun, fun named => ?_⟩
    obtain ⟨named, -⟩ := named
    cases named with
    | plain written => exact absurd written (other _)
    | signed written => exact absurd written (other _)

/-- A type whose name stands for another width than 1 to 64 is not read as any. -/
theorem TypeData.integerWidth?_eq_none {data : TypeData} {width : Nat}
    (named : IntegerName data.name width) (outside : ¬ (1 ≤ width ∧ width ≤ 64)) :
    data.integerWidth? = none := by
  -- The name stands for no other width that could be read instead.
  rw [Option.eq_none_iff_forall_ne_some]
  intro other typed
  obtain ⟨-, -, again, bounds⟩ := integerWidth?_eq_some_iff.mp typed
  exact outside (again.unique named ▸ bounds)

/-- The integer type of a width is read as one of that width where this is from 1 to 64. -/
theorem TypeData.integerWidth?_integer (width : Nat) :
    (integer width).integerWidth? = if 1 ≤ width ∧ width ≤ 64 then some width else none := by
  have named := integerName_integer width
  split
  · rename_i bounds
    exact integerWidth?_eq_some_iff.mpr ⟨rfl, rfl, named, bounds⟩
  · rename_i outside
    exact integerWidth?_eq_none named outside

namespace Context

/--
The width of a type is read off its name, exactly when it is an integer type.

It must be known, belong to the core dialect and have no parameters, and its name must be the letter
i and the decimal digits of a width from 1 to 64, before which one plus sign and any zeros may come.
Digits that stand for more than 64 are not read as any width, no matter how many there are. The
integer type of a width is read back wherever it is asked for, recorded before or not.
-/
theorem integerWidth?_iff (ctx : Context) :
    (∀ type width, ctx.types.integerWidth? type = some width ↔
        ∃ data, ctx.types.get? type = some data ∧ data.dialect = "core" ∧ data.params = [] ∧
          IntegerName data.name width ∧ 1 ≤ width ∧ width ≤ 64) ∧
      (∀ type data width, ctx.types.get? type = some data → IntegerName data.name width →
        64 < width → ctx.types.integerWidth? type = none) ∧
      ∀ width, (ctx.internType (.integer width)).2.types.integerWidth?
          (ctx.internType (.integer width)).1 =
        if 1 ≤ width ∧ width ≤ 64 then some width else none := by
  refine ⟨fun type width => ?_, fun type data width known named large => ?_, fun width => ?_⟩
  -- A type is read by its data alone, if it is known.
  · simp only [TypeTable.integerWidth?, Option.bind_eq_some_iff,
      TypeData.integerWidth?_eq_some_iff, coreDialect]
  · rw [TypeTable.integerWidth?, known]
    exact TypeData.integerWidth?_eq_none named (by omega)
  -- An interned type is found under the number that it was given.
  · have recorded : (ctx.internType (.integer width)).2.types.get?
        (ctx.internType (.integer width)).1 = some (.integer width) :=
      TypeTable.get?_intern ctx.types (.integer width)
    rw [TypeTable.integerWidth?, recorded]
    exact TypeData.integerWidth?_integer width

/-- Two types whose names stand for 64 and for a number that leaves 64 in its low 32 bits. -/
def widthsOf64 : List TypeData := [⟨"core", "i+0064", []⟩, ⟨"core", "i4294967360", []⟩]

/-- The width is 64 where that is the whole number, and there is none where it is too large. -/
theorem integerWidth?_iff_widthsOf64 :
    ∃ ctx, build (widthsOf64.map .internType) = .ok ctx ∧
      ctx.types.integerWidth? ⟨0⟩ = some 64 ∧
      ctx.types.get? ⟨1⟩ = some ⟨"core", "i4294967360", []⟩ ∧
      IntegerName "i4294967360" 4294967360 ∧ 64 < 4294967360 ∧
      ctx.types.integerWidth? ⟨1⟩ = none := by
  -- The number in the second name would be 64 too if it wrapped around in 32 bits.
  have digits : StandsFor ['4', '2', '9', '4', '9', '6', '7', '3', '6', '0'] 4294967360 :=
    ⟨by decide, List.all_eq_true.mp rfl, rfl⟩
  have fewDigits : StandsFor ['0', '0', '6', '4'] 64 :=
    ⟨by decide, List.all_eq_true.mp rfl, rfl⟩
  have large : IntegerName "i4294967360" 4294967360 := .plain (by simp) digits
  have small : IntegerName "i+0064" 64 := .signed (by simp) fewDigits
  obtain ⟨ctx, built, first, second⟩ : ∃ ctx, build (widthsOf64.map .internType) = .ok ctx ∧
      ctx.types.get? ⟨0⟩ = some ⟨"core", "i+0064", []⟩ ∧
      ctx.types.get? ⟨1⟩ = some ⟨"core", "i4294967360", []⟩ :=
    ⟨_, rfl, by decide +kernel, by decide +kernel⟩
  -- The first width is read, and the second one is refused for its size alone.
  obtain ⟨reads, refuses, -⟩ := integerWidth?_iff ctx
  exact ⟨ctx, built, (reads ⟨0⟩ 64).mpr ⟨_, first, rfl, rfl, small, by decide, by decide⟩, second,
    large, by decide, refuses ⟨1⟩ _ _ second large (by decide)⟩

end Context

end NestedIR
