import NestedIR.Context.Containment
import NestedIR.Description
import NestedIR.Structure.Indent
import NestedIR.Structure.Line

/-! A dump is produced line by line from a stack of what remains to be dumped. -/

namespace NestedIR

/-- Something that remains to be dumped. -/
inductive Pending where
  /-- An entity with everything in it, whose first line has an indentation. -/
  | entity (entity : Entity) (indent : UInt64)
  /-- A line that is known already. -/
  | line (line : Line)

/-- The lines about the attributes of an operation, which stand further in than their header. -/
def Description.attributeLines (description : Description) (indent inner : UInt64) : List Line :=
  if description.attributes.isEmpty then []
  else
    .attributesHeader indent description.attributes.length ::
      description.attributes.map fun (key, value) => .entry inner key value

namespace Context

/-- The summary of an operation and the lines that come between it and the regions. -/
def opLines (ctx : Context) (op : OpId) (indent : UInt64) (overflow : Overflow) :
    Except Fault (Line × List Line) := do
  let data ← ctx.op op
  let description := data.describe ctx op
  let inner ← overflow.inner indent description.attributes
  let summary := Line.op indent description.label data.operands.length data.results.length
    description.attributes.length data.regions.length data.successors.length
  let header := if data.regions.isEmpty then [] else [.regionsHeader indent data.regions.length]
  return (summary, description.attributeLines indent inner ++ header)

/-- The summary of an entity and the lines that come between it and what it contains. -/
def ownLines (ctx : Context) (indent : UInt64) (overflow : Overflow) :
    Entity → Except Fault (Line × List Line)
  | .op op => ctx.opLines op indent overflow
  | .region region => do
    let data ← ctx.region region
    return (.region indent data.blocks.length, [])
  | .block block => do
    let data ← ctx.block block
    let successors ← ctx.successors block
    return (.block indent data.arguments.length successors.length data.ops.length, [])

/-- The next line of something that remains to be dumped, and what remains after it. -/
def expand (ctx : Context) (overflow : Overflow) : Pending → Except Fault (Line × List Pending)
  | .line line => return (line, [])
  | .entity entity indent => do
    let members ← ctx.members entity
    let inner ← overflow.inner indent members
    let (summary, details) ← ctx.ownLines indent overflow entity
    return (summary, details.map .line ++ members.map fun member => .entity member inner)

/--
The next line of a stack, and the stack after it.

Only the top of the stack is looked at, so lines come out before anything below them is known.
-/
def nextLine (ctx : Context) (overflow : Overflow) :
    List Pending → Except Fault (Option (Line × List Pending))
  | [] => return none
  | top :: rest => do
    let (line, more) ← ctx.expand overflow top
    return some (line, more ++ rest)

/-- The first lines of a stack, up to a limit. A limit of zero looks at nothing. -/
def takeLines (ctx : Context) (overflow : Overflow) :
    Nat → List Pending → Except Fault (List Line)
  | 0, _ => return []
  | limit + 1, stack => do
    match ← ctx.nextLine overflow stack with
    | none => return []
    | some (line, stack) => return line :: (← ctx.takeLines overflow limit stack)

/--
Writes lines while their text fits into a number of bytes, and gives up on the first that does not.

The limit bounds how many lines are looked at.
-/
def writeLines (ctx : Context) (overflow : Overflow) :
    Nat → Nat → List Pending → Except Fault (Option String)
  | 0, _, _ => return none
  | limit + 1, room, stack => do
    match ← ctx.nextLine overflow stack with
    | none => return some ""
    | some (line, stack) =>
      let text := line.toText ++ "\n"
      if room < text.utf8ByteSize then return none
      return (← ctx.writeLines overflow limit (room - text.utf8ByteSize) stack).map (text ++ ·)

end Context

end NestedIR
