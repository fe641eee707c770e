import NestedIR.Context.Basic

/-! Containment leads from operations to regions, on to blocks, and back to operations. -/

namespace NestedIR.Context

/-- What an entity lists, in order. -/
def members (ctx : Context) : Entity → Except Fault (List Entity)
  | .op op => return (← ctx.op op).regions.map .region
  | .region region => return (← ctx.region region).blocks.map .block
  | .block block => return (← ctx.block block).ops.map .op

/--
A bound on how deep containment reaches while nothing on the way down repeats.

Such a way down is no longer than the number of entities. One more step leaves room for an entity
that does not exist.
-/
def depthBound (ctx : Context) : Nat :=
  ctx.ops.size + ctx.regions.size + ctx.blocks.size + 1

/-- An entity and everything below it, down to a depth, each entity in front of what it contains. -/
def preorderWithin (ctx : Context) : Nat → Entity → Except Fault (List Entity)
  | 0, entity => .error (.containmentCycle entity)
  | depth + 1, entity => do
    let below ← (← ctx.members entity).mapM (ctx.preorderWithin depth)
    return entity :: below.flatten

/-- An entity and everything below it, each entity in front of what it contains. -/
def preorder (ctx : Context) (entity : Entity) : Except Fault (List Entity) :=
  ctx.preorderWithin ctx.depthBound entity

end NestedIR.Context
