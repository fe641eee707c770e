/-! The dialect table lists the known dialects and how each prints its payloads. -/

namespace NestedIR

/-- A reader of payload bytes, which may refuse them. -/
abbrev PayloadPrinter := List UInt8 → Option String

/-- A registered dialect. -/
structure Dialect where
  /-- The name of the dialect, which is the namespace of its operations. -/
  name : String
  /-- How the dialect prints its payloads, if it can. -/
  printer : Option PayloadPrinter

/-- The registered dialects in the order of their registration. -/
structure DialectTable where
  /-- The registered dialects. -/
  entries : List Dialect := []

namespace DialectTable

/-- The dialect registered under a name. -/
def get? (dialects : DialectTable) (name : String) : Option Dialect :=
  dialects.entries.find? (·.name = name)

/-- Whether a dialect is registered under a name. -/
def contains (dialects : DialectTable) (name : String) : Bool := (dialects.get? name).isSome

/-- Registers a dialect without a printer. One that is registered already stays as it is. -/
def insert (dialects : DialectTable) (name : String) : DialectTable :=
  if dialects.contains name then dialects else ⟨dialects.entries ++ [⟨name, none⟩]⟩

/-- Registers a dialect if it is new, and sets how it prints its payloads. -/
def setPrinter (dialects : DialectTable) (name : String) (printer : Option PayloadPrinter) :
    DialectTable where
  entries := (dialects.insert name).entries.map fun dialect =>
    if dialect.name = name then { dialect with printer } else dialect

/-- A registration is seen under its own name, unless the name was taken. -/
theorem get?_insert (dialects : DialectTable) (name other : String) :
    (dialects.insert name).get? other =
      if other = name then (dialects.get? name).or (some ⟨name, none⟩)
      else dialects.get? other := by
  -- A taken name changes nothing, and a free one is found at the end.
  by_cases same : other = name
  · subst same
    cases found : dialects.get? other with
    | some dialect => simp [insert, contains, found]
    | none =>
      have absent : dialects.entries.find? (·.name = other) = none := found
      simp [insert, contains, get?, List.find?_append, absent]
  · by_cases known : dialects.contains name = true
    · simp [insert, known, same]
    · simp [insert, known, same, get?, List.find?_append, Ne.symm same]

end DialectTable

end NestedIR
