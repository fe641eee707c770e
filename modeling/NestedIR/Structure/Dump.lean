import NestedIR.Structure.Stream

/-! A structural dump lists an operation and everything in it, one indented line after the other. -/

namespace NestedIR

/-- A number stands for the indentation that is left of it in a machine word. -/
scoped instance indentOfNat : Coe Nat UInt64 := ⟨UInt64.ofNat⟩

namespace Context

/-- The number of lines in the dump of an entity, down to a depth. -/
def lineCountWithin (ctx : Context) (overflow : Overflow) :
    Nat → UInt64 → Entity → Except Fault Nat
  | 0, _, entity => .error (.containmentCycle entity)
  | depth + 1, indent, entity => do
    let members ← ctx.members entity
    let inner ← overflow.inner indent members
    let (_, details) ← ctx.ownLines indent overflow entity
    let below ← members.mapM (ctx.lineCountWithin overflow depth inner)
    return 1 + details.length + below.sum

/-- The number of lines in the dump of an operation, with its summary at an indentation. -/
def lineCount (ctx : Context) (op : OpId) (indent : UInt64) (overflow : Overflow := .wraps) :
    Except Fault Nat :=
  ctx.lineCountWithin overflow ctx.depthBound indent (.op op)

/-- The first lines of the dump of an operation, up to a limit. -/
def firstLines (ctx : Context) (limit : Nat) (op : OpId) (indent : UInt64)
    (overflow : Overflow := .wraps) : Except Fault (List Line) :=
  ctx.takeLines overflow limit [.entity (.op op) indent]

/-- All lines of the dump of an operation, with its summary at an indentation. -/
def dumpLines (ctx : Context) (op : OpId) (indent : UInt64) (overflow : Overflow := .wraps) :
    Except Fault (List Line) := do
  ctx.firstLines (← ctx.lineCount op indent overflow) op indent overflow

/-- The dump of an operation as text, with its summary at an indentation. -/
def dumpText (ctx : Context) (op : OpId) (indent : UInt64) (overflow : Overflow := .wraps) :
    Except Fault String := do
  return String.join ((← ctx.dumpLines op indent overflow).map fun line => line.toText ++ "\n")

/-- The dump of an operation as text. -/
def dump (ctx : Context) (op : OpId) (overflow : Overflow := .wraps) : Except Fault String :=
  ctx.dumpText op 0 overflow

/-- The dump of an operation as text, unless it takes more than the given number of bytes. -/
def dumpWithin (ctx : Context) (room : Nat) (op : OpId) (indent : UInt64)
    (overflow : Overflow := .wraps) : Except Fault (Option String) :=
  -- Every line takes a byte at least, so one more step than there are bytes decides the answer.
  ctx.writeLines overflow (room + 1) room [.entity (.op op) indent]

end Context

end NestedIR
