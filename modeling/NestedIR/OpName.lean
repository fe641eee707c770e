/-! Operation names are bare, or qualified by the dialect that owns them. -/

namespace NestedIR

/-- The name of an operation, with its dialect when it has one. -/
structure OpName where
  /-- The dialect that owns the operation. -/
  dialect : Option String
  /-- The name inside the dialect. -/
  name : String
deriving DecidableEq

namespace OpName

/-- A name that belongs to no dialect. -/
def bare (name : String) : OpName := ⟨none, name⟩

/-- A name inside a dialect. -/
def qualified (dialect name : String) : OpName := ⟨some dialect, name⟩

/-- The written form joins dialect and name by a dot. -/
def toText (name : OpName) : String :=
  match name.dialect with
  | some dialect => dialect ++ "." ++ name.name
  | none => name.name

instance : ToString OpName where
  toString := toText

/--
The first dot separates the dialect from the name.

A dot that leads or ends the text separates nothing, so the whole text is then a bare name.
-/
def parse (text : String) : OpName :=
  let dialect := text.toList.takeWhile (· ≠ '.')
  -- The rest begins with the separating dot whenever there is one.
  let name := (text.toList.dropWhile (· ≠ '.')).drop 1
  if dialect.isEmpty || name.isEmpty then bare text
  else qualified (String.ofList dialect) (String.ofList name)

end OpName

end NestedIR
