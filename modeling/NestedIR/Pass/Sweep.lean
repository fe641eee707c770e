import NestedIR.Context.Edit

/-! Sweeps go through a program while they change it, and count the changes. -/

namespace NestedIR

/-- A change to a program that may turn out not to apply, and says whether it did. -/
abbrev Attempt := Context → Except Fault (Bool × Context)

/-- A change to a program that counts what it changed. -/
abbrev Sweep := Context → Except Fault (Nat × Context)

/-- An attempt counts as one change if it applies. -/
def Attempt.counted (attempt : Attempt) : Sweep := fun ctx => do
  let (applied, ctx) ← attempt ctx
  return (applied.toNat, ctx)

namespace Sweep

/-- Changes nothing. -/
def idle : Sweep := fun ctx => return (0, ctx)

/-- One sweep after another. -/
def andThen (first second : Sweep) : Sweep := fun ctx => do
  let (count, ctx) ← first ctx
  let (more, ctx) ← second ctx
  return (count + more, ctx)

/-- One sweep for each item, in order. -/
def each {α : Type} (step : α → Sweep) : List α → Sweep
  | [] => idle
  | item :: rest => (step item).andThen (each step rest)

/-- One sweep for each block in the regions of an operation, as they are listed when reached. -/
def eachBlock (step : BlockId → Sweep) (op : OpId) : Sweep := fun ctx => do
  let data ← ctx.op op
  each (fun region ctx => do each step (← ctx.region region).blocks ctx) data.regions ctx

/-- One sweep for each operation that a block lists when it is reached, in order. -/
def eachOp (step : OpId → Sweep) (block : BlockId) : Sweep := fun ctx => do
  each step (← ctx.block block).ops ctx

/-- One sweep for each operation that a block lists when it is reached, the last one first. -/
def eachOpBackward (step : OpId → Sweep) (block : BlockId) : Sweep := fun ctx => do
  each step (← ctx.block block).ops.reverse ctx

end Sweep

end NestedIR
