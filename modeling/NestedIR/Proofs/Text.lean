import Mathlib.Data.List.Basic
import NestedIR.Attribute.Render

/-! Numbers, quoted text and symbol references are written without control characters. -/

namespace NestedIR

namespace Text

/-- None of the characters is a control character. -/
def Clean (chars : List Char) : Prop := ∀ char ∈ chars, isControl char = false

instance : DecidablePred Clean := fun chars => List.decidableBAll _ chars

variable {char : Char} {front back chars : List Char}

/-- An item that is not set between lists is in one of the lists. -/
theorem mem_intercalate_iff {α : Type} {item : α} {between : List α} (absent : item ∉ between)
    (parts : List (List α)) : item ∈ between.intercalate parts ↔ ∃ part ∈ parts, item ∈ part := by
  -- An item in a concatenation is in a part or between two parts, where it is not.
  induction parts with
  | nil => simp
  | cons first rest ih =>
    cases rest with
    | nil => simp
    | cons second rest =>
      rw [List.intercalate_cons_cons]
      simp only [List.mem_append, ih, absent, List.exists_mem_cons_iff, or_false]

/-- A control character is not among characters that are clean. -/
theorem Clean.not_mem (clean : Clean chars) (control : isControl char = true) : char ∉ chars := by
  intro listed
  rw [clean char listed] at control
  cases control

/-- No control character is among characters that are clean. -/
theorem mem_clean_iff (control : isControl char = true) (clean : Clean chars) :
    char ∈ chars ↔ False :=
  iff_false_intro (clean.not_mem control)

/-- Characters are clean when both parts of them are. -/
@[simp] theorem clean_append : Clean (front ++ back) ↔ Clean front ∧ Clean back :=
  List.forall_mem_append

/-- Characters are clean when the first one is and the rest are. -/
@[simp] theorem clean_cons : Clean (char :: chars) ↔ isControl char = false ∧ Clean chars :=
  List.forall_mem_cons

/-- Repeating a clean character leaves it clean. -/
theorem clean_replicate (count : Nat) (visible : isControl char = false) :
    Clean (List.replicate count char) := by
  intro other listed
  rw [(List.mem_replicate.mp listed).2, visible]

/-- A character between two visible ones of ASCII is no control character. -/
theorem isControl_of_between {first last : Char} (visible : 0x20 ≤ first.val.toNat)
    (ascii : last.val.toNat < 0x7F) (between : first.val ≤ char.val ∧ char.val ≤ last.val) :
    isControl char = false := by
  simp only [UInt32.le_iff_toNat_le] at between
  simp only [isControl, Char.toNat, Bool.or_eq_false_iff, Bool.and_eq_false_iff,
    decide_eq_false_iff_not]
  omega

/-- A decimal digit is no control character. -/
theorem isControl_of_isDigit (digit : char.isDigit = true) : isControl char = false :=
  @isControl_of_between char '0' '9' (by decide) (by decide)
    ((Bool.and_eq_true_iff.mp digit).imp of_decide_eq_true of_decide_eq_true)

/-- A decimal number is written in digits alone. -/
theorem clean_toDigits (number : Nat) : Clean (Nat.toDigits 10 number) := fun _ listed =>
  isControl_of_isDigit (Nat.isDigit_of_mem_toDigits (by decide) (by decide) listed)

/-- A natural number is written without control characters. -/
theorem clean_natural (number : Nat) : Clean (toString number).toList := by
  rw [show (toString number).toList = Nat.toDigits 10 number from Nat.toList_repr]
  exact clean_toDigits number

/-- An integer is written without control characters. -/
theorem clean_integer (number : Int) : Clean (toString number).toList := by
  cases number with
  | ofNat number => exact clean_natural number
  -- The sign of a negative number is no control character.
  | negSucc number =>
    show Clean ("-" ++ toString (number + 1)).toList
    rw [String.toList_append, clean_append]
    exact ⟨by decide, clean_natural (number + 1)⟩

/-- A hexadecimal digit is no control character. -/
theorem isControl_digitChar : ∀ digit < 16, isControl (Nat.digitChar digit) = false := by
  decide

/-- Between quotes, no control character is left as it is. -/
theorem clean_escapeChar (char : Char) : Clean (escapeChar char) := by
  unfold escapeChar
  split; · decide
  split; · decide
  split; · decide
  split; · decide
  split; · decide
  split
  · -- The number of a control character has two hexadecimal digits.
    rename_i control
    have small : char.toNat < 0xA0 := by
      simp only [isControl, Bool.or_eq_true, Bool.and_eq_true, decide_eq_true_eq] at control
      omega
    simp only [hexByte, clean_cons]
    exact ⟨by decide, by decide, isControl_digitChar _ (by omega),
      isControl_digitChar _ (by omega), nofun⟩
  · rename_i visible
    simpa [Clean] using visible

/-- Quoted text has no control characters, whatever the text is. -/
theorem clean_quoted (text : String) : Clean (quoted text).toList := by
  -- Each character is escaped on its own, and all that is written for it is visible.
  have body : Clean (escape text).toList := by
    rw [escape, String.toList_ofList]
    intro char listed
    obtain ⟨source, -, written⟩ := List.mem_flatMap.mp listed
    exact clean_escapeChar source char written
  rw [quoted, String.toList_append, String.toList_append, clean_append, clean_append]
  exact ⟨⟨by decide, body⟩, by decide⟩

/-- Every range of letters and numbers beyond ASCII starts behind the control characters. -/
theorem first_le_of_mem_alphanumericRanges :
    ∀ range ∈ alphanumericRanges, 0xA0 ≤ range.1 := by
  decide +kernel

/-- A letter or a number is no control character. -/
theorem isControl_of_isAlphanumeric (alphanumeric : isAlphanumeric char = true) :
    isControl char = false := by
  unfold isAlphanumeric at alphanumeric
  split at alphanumeric
  -- The first 128 characters have two ranges of letters and one of digits.
  · rcases Bool.or_eq_true_iff.mp alphanumeric with letter | digit
    · rcases Bool.or_eq_true_iff.mp letter with upper | lower
      · exact @isControl_of_between char 'A' 'Z' (by decide) (by decide) (of_decide_eq_true upper)
      · exact @isControl_of_between char 'a' 'z' (by decide) (by decide)
          ((Bool.and_eq_true_iff.mp lower).imp of_decide_eq_true of_decide_eq_true)
    · exact isControl_of_isDigit digit
  -- The ranges of the table begin behind the last control character.
  · obtain ⟨range, listed, inside⟩ := List.any_eq_true.mp alphanumeric
    have first := first_le_of_mem_alphanumericRanges range listed
    simp only [Bool.and_eq_true, decide_eq_true_eq] at inside
    simp only [isControl, Bool.or_eq_false_iff, Bool.and_eq_false_iff, decide_eq_false_iff_not]
    omega

/-- A control character in texts that are set apart by commas is in one of the texts. -/
theorem mem_commaSeparated_iff (control : isControl char = true) (texts : List String) :
    char ∈ (commaSeparated texts).toList ↔ ∃ text ∈ texts, char ∈ text.toList := by
  -- Neither a comma nor a space is a control character.
  have comma : Clean (", " : String).toList := by decide
  rw [commaSeparated, String.toList_intercalate, mem_intercalate_iff (comma.not_mem control)]
  simp only [List.mem_map, exists_exists_and_eq_and]

/-- A symbol reference has no control characters, as it is quoted where its name has some. -/
theorem clean_renderSymbol (name : String) : Clean (renderSymbol name).toList := by
  rw [renderSymbol]
  split
  -- A name that is not quoted has only letters, numbers and underscores.
  · rename_i plain
    rw [String.toList_append, clean_append]
    refine ⟨by decide, fun char listed => ?_⟩
    have allowed := List.all_eq_true.mp (Bool.and_eq_true_iff.mp plain).2 char listed
    rcases Bool.or_eq_true_iff.mp allowed with alphanumeric | underscore
    · exact isControl_of_isAlphanumeric alphanumeric
    · rw [of_decide_eq_true underscore]
      decide
  -- Any other name is escaped.
  · rw [String.toList_append, clean_append]
    exact ⟨by decide, clean_quoted name⟩

end Text

/-- A decimal is written in digits around a point. -/
theorem Decimal.clean_positional (number : Decimal) : Text.Clean number.positional.toList := by
  unfold positional
  -- Zeros stand for missing digits in front of the point or behind it.
  have zero : Text.isControl '0' = false := by decide
  split
  · rw [String.toList_ofList, Text.clean_append, Text.clean_append]
    exact ⟨⟨Text.clean_toDigits _, Text.clean_replicate _ zero⟩, by decide⟩
  · rw [String.toList_ofList, Text.clean_append, Text.clean_cons, paddedDigits, Text.clean_append]
    exact ⟨Text.clean_toDigits _, by decide, Text.clean_replicate _ zero, Text.clean_toDigits _⟩

/-- A binary64 number is written without control characters. -/
theorem Binary64.clean_toText (number : Binary64) : Text.Clean number.toText.toList := by
  -- A sign is no control character.
  have signed (negative : Bool) {text : String} (clean : Text.Clean text.toList) :
      Text.Clean (signed negative text).toList := by
    cases negative
    · exact clean
    · show Text.Clean ("-" ++ text).toList
      rw [String.toList_append, Text.clean_append]
      exact ⟨by decide, clean⟩
  -- Numbers without an end are fixed texts, and all others are digits with a point.
  cases number with
  | nan => exact (by decide : Text.Clean "NaN".toList)
  | infinite negative => exact signed negative (by decide)
  | finite negative mantissa exponent =>
    refine signed negative ?_
    split
    · decide
    · exact Decimal.clean_positional _

end NestedIR
