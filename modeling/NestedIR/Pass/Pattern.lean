import NestedIR.Pass.Sweep

/-! Patterns are local rewrites of one operation in its block. -/

namespace NestedIR

/-- A local rewrite, which applies when it changes or erases the operation. -/
structure Pattern where
  /-- The name of the rewrite. -/
  name : String
  /-- Tries the rewrite on an operation of a block. -/
  rewrite : BlockId → OpId → Attempt

/-- Tries patterns in order, up to the first that applies. -/
def Pattern.applyFirst (block : BlockId) (op : OpId) : List Pattern → Attempt
  | [] => fun ctx => return (false, ctx)
  | pattern :: rest => fun ctx => do
    let (applied, ctx) ← pattern.rewrite block op ctx
    if applied then return (true, ctx) else applyFirst block op rest ctx

end NestedIR
