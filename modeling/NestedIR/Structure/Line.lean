/-! The lines of a structural dump, as data and as text. -/

namespace NestedIR

/-- One line of a structural dump, with its indentation. -/
inductive Line where
  /-- The summary of an operation. -/
  | op (indent : UInt64) (label : String) (operands results attributes regions successors : Nat)
  /-- The start of the attributes of an operation. -/
  | attributesHeader (indent : UInt64) (count : Nat)
  /-- One attribute. -/
  | entry (indent : UInt64) (key value : String)
  /-- The start of the regions of an operation. -/
  | regionsHeader (indent : UInt64) (count : Nat)
  /-- The summary of a region. -/
  | region (indent : UInt64) (blocks : Nat)
  /-- The summary of a block. -/
  | block (indent : UInt64) (arguments successors operations : Nat)
deriving DecidableEq

namespace Line

/-- The word that says how far a line is indented. -/
def depth : Line → UInt64
  | op indent .. => indent
  | attributesHeader indent _ => indent
  | entry indent .. => indent
  | regionsHeader indent _ => indent
  | region indent _ => indent
  | block indent .. => indent

/-- The number of levels by which a line is indented. -/
def indent (line : Line) : Nat := line.depth.toNat

/-- What a line says, without its indentation. -/
def body : Line → String
  | op _ label operands results attributes regions successors =>
    s!"op: '{label}' with {operands} operands, {results} results, "
      ++ s!"{attributes} attributes, {regions} regions, {successors} successors"
  | attributesHeader _ count => s!"{count} attributes:"
  | entry _ key value => "- \x7b" ++ key ++ " : " ++ value ++ "\x7d"
  | regionsHeader _ count => s!"{count} nested regions:"
  | region _ blocks => s!"Region with {blocks} blocks:"
  | block _ arguments successors operations =>
    s!"Block with {arguments} arguments, {successors} successors, {operations} operations"

/-- One level of indentation. -/
def indentUnit : String := "    "

/-- A line as it is written, without its end. -/
def toText (line : Line) : String :=
  String.join (List.replicate line.indent indentUnit) ++ line.body

end Line

end NestedIR
