/-! Quoted text writes quotes, backslashes and control characters as escapes. -/

namespace NestedIR.Text

/-- A character of the two control blocks. -/
def isControl (char : Char) : Bool :=
  char.toNat < 0x20 || (0x7F ≤ char.toNat && char.toNat < 0xA0)

/-- A byte as two lowercase hexadecimal digits. -/
def hexByte (byte : Nat) : List Char := [Nat.digitChar (byte / 16), Nat.digitChar (byte % 16)]

/-- How one character is written between quotes. -/
def escapeChar (char : Char) : List Char :=
  if char = '\\' then ['\\', '\\']
  else if char = '\"' then ['\\', '\"']
  else if char = '\n' then ['\\', 'n']
  else if char = '\t' then ['\\', 't']
  else if char = '\r' then ['\\', 'r']
  -- Every control character is below 256, so two digits name it.
  else if isControl char then '\\' :: 'x' :: hexByte char.toNat
  else [char]

/-- Text as it is written between quotes. -/
def escape (text : String) : String := String.ofList (text.toList.flatMap escapeChar)

/-- Text between quotes. -/
def quoted (text : String) : String := "\"" ++ escape text ++ "\""

end NestedIR.Text
