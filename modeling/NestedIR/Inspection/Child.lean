import NestedIR.Context.Containment
import NestedIR.Symbol

/-! Children are the operations directly inside the first region of an operation. -/

namespace NestedIR

/-- What is reported about one child. -/
structure Child where
  /-- The child. -/
  op : OpId
  /-- The name of the child. -/
  name : String
  /-- The namespace of the child. -/
  namespaceText : String
  /-- The kind of symbol definition that the child is, with its symbol. -/
  symbol : Option (OpKind × Option String)

/-- The two lines about a child, without an end on the second one. -/
def Child.toText (child : Child) : String :=
  let symbolLine :=
    match child.symbol with
    | some (kind, symbol) => s!"{kind.fullName}_op: " ++ symbol.getD ""
    | none => s!"non symbol_op:{child.name}"
  s!"{child.name}, namespace: {child.namespaceText}\n" ++ symbolLine

namespace Context

/-- What is reported about an operation as a child. -/
def describeChild (ctx : Context) (op : OpId) : Except Fault Child := do
  let data ← ctx.op op
  return ⟨op, data.name.toText, data.namespaceText ctx.dialects, data.symbolInfo?⟩

/-- The children of an operation in order. Without regions it has none. -/
def children (ctx : Context) (root : OpId) : Except Fault (List Child) := do
  match (← ctx.op root).regions with
  | [] => return []
  | body :: _ =>
    let listed ← (← ctx.region body).blocks.mapM fun block => do
      (← ctx.block block).ops.mapM ctx.describeChild
    return listed.flatten

end Context

end NestedIR
