import NestedIR.Proofs.Text

/-! Quoted text is read back from left to right, up to the first quote that is not escaped. -/

namespace NestedIR.Text

/-- The value of a hexadecimal digit of either case. -/
def hexValue? (char : Char) : Option Nat :=
  if '0' ≤ char ∧ char ≤ '9' then some (char.toNat - '0'.toNat)
  else if 'a' ≤ char ∧ char ≤ 'f' then some (10 + char.toNat - 'a'.toNat)
  else if 'A' ≤ char ∧ char ≤ 'F' then some (10 + char.toNat - 'A'.toNat)
  else none

/-- Text with its escapes undone from left to right, if each backslash begins an escape. -/
def unescape : List Char → Option (List Char)
  | [] => some []
  | '\\' :: '\\' :: rest => (unescape rest).map ('\\' :: ·)
  | '\\' :: '\"' :: rest => (unescape rest).map ('\"' :: ·)
  | '\\' :: 'n' :: rest => (unescape rest).map ('\n' :: ·)
  | '\\' :: 't' :: rest => (unescape rest).map ('\t' :: ·)
  | '\\' :: 'r' :: rest => (unescape rest).map ('\r' :: ·)
  | '\\' :: 'x' :: high :: low :: rest => do
    let high ← hexValue? high
    let low ← hexValue? low
    (unescape rest).map (Char.ofNat (16 * high + low) :: ·)
  | '\\' :: _ => none
  | char :: rest => (unescape rest).map (char :: ·)

/-- What stands in front of the first quote that is not escaped, and what stands behind it. -/
def closeQuote : List Char → Option (List Char × List Char)
  | [] => none
  | '\"' :: rest => some ([], rest)
  | '\\' :: char :: rest => (closeQuote rest).map fun split => ('\\' :: char :: split.1, split.2)
  | char :: rest => (closeQuote rest).map fun split => (char :: split.1, split.2)

variable {char : Char}

/-- A digit that is written is read back. -/
theorem hexValue?_digitChar : ∀ digit < 16, hexValue? (Nat.digitChar digit) = some digit := by
  decide

/-- Two digits that are written are read back as the character that they number. -/
theorem unescape_hexByte (small : char.toNat < 256) (rest : List Char) :
    unescape ('\\' :: 'x' :: hexByte char.toNat ++ rest) = (unescape rest).map (char :: ·) := by
  -- The two digits are the quotient and the remainder by 16, and a small number has no others.
  have number : 16 * (char.toNat / 16) + char.toNat % 16 = char.toNat := by omega
  have high := hexValue?_digitChar (char.toNat / 16) (by omega)
  have low := hexValue?_digitChar (char.toNat % 16) (by omega)
  simp only [hexByte, List.cons_append, List.nil_append, unescape, high, low, Option.bind_eq_bind,
    Option.bind_some, number, Char.ofNat_toNat]

/-- A character that is neither a backslash nor a quote is read as it is. -/
theorem unescape_cons (plain : char ≠ '\\') (rest : List Char) :
    unescape (char :: rest) = (unescape rest).map (char :: ·) := by
  rw [unescape]
  all_goals simp_all

/-- A control character has a number of two hexadecimal digits. -/
theorem toNat_lt_of_isControl (control : isControl char = true) : char.toNat < 256 := by
  simp only [isControl, Bool.or_eq_true, Bool.and_eq_true, decide_eq_true_eq] at control
  omega

/-- A character that is written is read back in front of what follows. -/
theorem unescape_escapeChar (char : Char) (rest : List Char) :
    unescape (escapeChar char ++ rest) = (unescape rest).map (char :: ·) := by
  unfold escapeChar
  split
  · subst char
    rfl
  rename_i plain
  split
  · subst char
    rfl
  split
  · subst char
    rfl
  split
  · subst char
    rfl
  split
  · subst char
    rfl
  split
  · -- Control characters are numbered by two digits.
    rename_i control
    exact unescape_hexByte (toNat_lt_of_isControl control) rest
  · exact unescape_cons plain rest

/-- Text that is written between quotes is read back. -/
theorem unescape_escape (text : String) : unescape (escape text).toList = some text.toList := by
  -- Each character is read back in front of what follows it.
  rw [escape, String.toList_ofList]
  induction text.toList with
  | nil => rfl
  | cons char rest ih => rw [List.flatMap_cons, unescape_escapeChar, ih, Option.map_some]

/-- A character that is neither a backslash nor a quote does not close a text. -/
theorem closeQuote_cons (plain : char ≠ '\\') (unquoted : char ≠ '\"') (rest : List Char) :
    closeQuote (char :: rest) =
      (closeQuote rest).map fun split => (char :: split.1, split.2) := by
  rw [closeQuote]
  all_goals simp_all

/-- Neither digit of a byte is a backslash or a quote. -/
theorem digitChar_ne : ∀ digit < 16, Nat.digitChar digit ≠ '\\' ∧ Nat.digitChar digit ≠ '\"' := by
  decide

/-- A character that is written does not close a text. -/
theorem closeQuote_escapeChar (char : Char) (rest : List Char) :
    closeQuote (escapeChar char ++ rest) =
      (closeQuote rest).map fun split => (escapeChar char ++ split.1, split.2) := by
  unfold escapeChar
  split
  · rfl
  rename_i plain
  split
  · rfl
  rename_i unquoted
  split
  · rfl
  split
  · rfl
  split
  · rfl
  split
  · -- The backslash takes the letter with it, and digits stand for themselves.
    rename_i control
    have small := toNat_lt_of_isControl control
    obtain ⟨plainHigh, unquotedHigh⟩ := digitChar_ne (char.toNat / 16) (by omega)
    obtain ⟨plainLow, unquotedLow⟩ := digitChar_ne (char.toNat % 16) (by omega)
    show (closeQuote (Nat.digitChar (char.toNat / 16) :: Nat.digitChar (char.toNat % 16) ::
      rest)).map _ = _
    rw [closeQuote_cons plainHigh unquotedHigh, closeQuote_cons plainLow unquotedLow]
    simp only [Option.map_map]
    rfl
  · exact closeQuote_cons plain unquoted rest

/-- Text that is written between quotes does not close itself, whatever follows. -/
theorem closeQuote_escape (text : String) (rest : List Char) :
    closeQuote ((escape text).toList ++ rest) =
      (closeQuote rest).map fun split => ((escape text).toList ++ split.1, split.2) := by
  rw [escape, String.toList_ofList]
  -- Each character is passed over together with what it is escaped by.
  induction text.toList with
  | nil => simp
  | cons char others ih =>
    rw [List.flatMap_cons, List.append_assoc, closeQuote_escapeChar, ih, Option.map_map]
    simp [Function.comp_def]

/-- Quoted texts that agree, whatever follows them, are of one text and followed by the same. -/
theorem quoted_append_inj {text text' : String} {rest rest' : List Char}
    (same : (quoted text).toList ++ rest = (quoted text').toList ++ rest') :
    text = text' ∧ rest = rest' := by
  have opened (text : String) (rest : List Char) :
      (quoted text).toList ++ rest = '\"' :: ((escape text).toList ++ '\"' :: rest) := by
    simp [quoted]
  rw [opened, opened, List.cons.injEq] at same
  -- Both close at the same place, and what is in front of it is read back.
  have closed := congrArg closeQuote same.2
  simp only [closeQuote_escape, closeQuote, Option.map_some, Option.some.injEq, Prod.mk.injEq,
    List.append_nil] at closed
  obtain ⟨bodies, rests⟩ := closed
  have texts := congrArg unescape bodies
  rw [unescape_escape, unescape_escape, Option.some.injEq, String.toList_inj] at texts
  exact ⟨texts, rests⟩

end NestedIR.Text
