import NestedIR.Proofs.Text.Unescaping

/-! Integers and symbol references end where a separator follows, and can be told apart there. -/

namespace NestedIR.Text

/-- What may follow an attribute: the end, a comma, or the end of a list. -/
def Stops (rest : List Char) : Prop := ∀ char ∈ rest.head?, char = ',' ∨ char = ']'

/-- None of the characters may follow an attribute. -/
def Solid (chars : List Char) : Prop := ∀ char ∈ chars, char ≠ ',' ∧ char ≠ ']'

/-- Solid characters end where something else follows. -/
theorem append_inj_of_stops {front front' rest rest' : List Char} (solid : Solid front)
    (solid' : Solid front') (stops : Stops rest) (stops' : Stops rest')
    (same : front ++ rest = front' ++ rest') : front = front' ∧ rest = rest' := by
  -- The two solid parts are read side by side, and neither can end before the other.
  induction front generalizing front' with
  | nil =>
    cases front' with
    | nil => exact ⟨rfl, same⟩
    | cons first others =>
      -- The first character of a solid part would be one that stops the other part.
      have stop := stops first (by rw [show rest = first :: others ++ rest' from same]; rfl)
      have inside := solid' first (by simp)
      exact absurd stop (by simp [inside])
  | cons first others ih =>
    cases front' with
    | nil =>
      have stop := stops' first (by rw [show rest' = first :: others ++ rest from same.symm]; rfl)
      have inside := solid first (by simp)
      exact absurd stop (by simp [inside])
    | cons first' others' =>
      obtain ⟨rfl, tails⟩ := List.cons.inj same
      obtain ⟨rfl, rests⟩ := ih (fun char listed => solid char (by simp [listed]))
        (fun char listed => solid' char (by simp [listed])) tails
      exact ⟨rfl, rests⟩

/-- An integer is written in decimal digits, behind a sign if it is negative. -/
theorem toList_integer (number : Int) : (toString number).toList =
    (if number < 0 then ['-'] else []) ++ Nat.toDigits 10 number.natAbs := by
  -- The digits of a natural number are all that is written for it.
  have natural (number : Nat) : (toString number).toList = Nat.toDigits 10 number := Nat.toList_repr
  cases number with
  | ofNat number => exact natural number
  | negSucc number =>
    show ("-" ++ toString (number + 1)).toList = _
    rw [String.toList_append, natural, if_pos (Int.negSucc_lt_zero number)]
    rfl

/-- What stands in a decimal number is a digit. -/
theorem isDigit_of_mem_digits {number : Nat} {char : Char}
    (listed : char ∈ Nat.toDigits 10 number) : char.isDigit = true :=
  Nat.isDigit_of_mem_toDigits (by decide) (by decide) listed

/-- Neither digits nor a sign may follow an attribute. -/
theorem solid_integer (number : Int) : Solid (toString number).toList := by
  intro char listed
  -- There is a sign in front, or none, and behind it there are only digits.
  rw [toList_integer, List.mem_append] at listed
  rcases listed with sign | digit
  · split at sign
    · cases List.mem_singleton.mp sign
      decide
    · cases sign
  · have isDigit := isDigit_of_mem_digits digit
    constructor <;> rintro rfl <;> exact absurd isDigit (by decide)

/-- There is a sign exactly in front of a negative integer. -/
theorem minus_mem_integer_iff (number : Int) : '-' ∈ (toString number).toList ↔ number < 0 := by
  have noDigit : '-' ∉ Nat.toDigits 10 number.natAbs := fun listed =>
    absurd (isDigit_of_mem_digits listed) (by decide)
  rw [toList_integer, List.mem_append]
  split <;> simp_all

/-- Integers that are written alike are the same. -/
theorem integer_inj {number number' : Int}
    (same : (toString number).toList = (toString number').toList) : number = number' := by
  have signs : number < 0 ↔ number' < 0 := by
    rw [← minus_mem_integer_iff, ← minus_mem_integer_iff, same]
  rw [toList_integer, toList_integer, if_congr signs rfl rfl] at same
  -- Behind the same sign, the digits tell the absolute value.
  have digits := congrArg (Nat.ofDigitChars 10 · 0) (List.append_cancel_left same)
  simp only [Nat.ofDigitChars_ten_toDigits] at digits
  omega

/-- Integers that are written alike, whatever follows them, are the same. -/
theorem integer_append_inj {number number' : Int} {rest rest' : List Char} (stops : Stops rest)
    (stops' : Stops rest')
    (same : (toString number).toList ++ rest = (toString number').toList ++ rest') :
    number = number' ∧ rest = rest' := by
  obtain ⟨texts, rests⟩ :=
    append_inj_of_stops (solid_integer number) (solid_integer number') stops stops' same
  exact ⟨integer_inj texts, rests⟩

/-- A symbol reference is quoted unless its name is made of letters, numbers and underscores. -/
theorem renderSymbol_cases (name : String) :
    (renderSymbol name).toList = '@' :: name.toList ∧ name.toList ≠ [] ∧
        (∀ char ∈ name.toList, (isAlphanumeric char || char = '_') = true) ∨
      (renderSymbol name).toList = '@' :: (quoted name).toList := by
  -- Only a name that is filled and plain is written as it is.
  rw [renderSymbol]
  split
  · rename_i plain
    obtain ⟨filled, each⟩ := Bool.and_eq_true_iff.mp plain
    exact .inl ⟨by simp, by simpa using filled, List.all_eq_true.mp each⟩
  · exact .inr (by simp)

/-- Letters, numbers and underscores may not follow an attribute. -/
theorem solid_of_plain {chars : List Char}
    (plain : ∀ char ∈ chars, (isAlphanumeric char || char = '_') = true) : Solid chars := by
  intro char listed
  have isPlain := plain char listed
  constructor <;> rintro rfl <;> exact absurd isPlain (by decide)

/-- A name that is not quoted does not begin with a quote. -/
theorem plain_ne_quoted {name name' : String} {rest rest' : List Char} (filled : name.toList ≠ [])
    (plain : ∀ char ∈ name.toList, (isAlphanumeric char || char = '_') = true) :
    name.toList ++ rest ≠ (quoted name').toList ++ rest' := by
  obtain ⟨first, others, split⟩ := List.exists_cons_of_ne_nil filled
  have isPlain := plain first (by simp [split])
  rw [split]
  intro same
  -- The quote would be a letter, a number or an underscore.
  have quote : first = '\"' := by simpa [quoted] using congrArg List.head? same
  rw [quote] at isPlain
  exact absurd isPlain (by decide)

/-- Symbol references that are written alike, whatever follows them, have one name. -/
theorem renderSymbol_append_inj {name name' : String} {rest rest' : List Char}
    (stops : Stops rest) (stops' : Stops rest')
    (same : (renderSymbol name).toList ++ rest = (renderSymbol name').toList ++ rest') :
    name = name' ∧ rest = rest' := by
  -- Two names are written in the same manner, or the marks in front of them differ.
  rcases renderSymbol_cases name with ⟨written, filled, plain⟩ | written <;>
    rcases renderSymbol_cases name' with ⟨written', filled', plain'⟩ | written' <;>
    rw [written, written', List.cons_append, List.cons_append, List.cons.injEq] at same
  · obtain ⟨names, rests⟩ := append_inj_of_stops (solid_of_plain plain) (solid_of_plain plain')
      stops stops' same.2
    exact ⟨String.toList_inj.mp names, rests⟩
  · exact absurd same.2 (plain_ne_quoted filled plain)
  · exact absurd same.2.symm (plain_ne_quoted filled' plain')
  · exact quoted_append_inj same.2

/-- Texts that are set apart by commas are the first one and each other one behind a comma. -/
theorem toList_commaSeparated (first : String) (others : List String) :
    (commaSeparated (first :: others)).toList =
      first.toList ++ others.flatMap fun text => ',' :: ' ' :: text.toList := by
  rw [commaSeparated, String.toList_intercalate]
  induction others generalizing first with
  | nil => simp
  | cons second others ih =>
    rw [List.map_cons, List.map_cons, List.intercalate_cons_cons, ← List.map_cons, ih]
    simp

end NestedIR.Text
