import NestedIR.Context.Basic

/-! New operations, blocks and regions take the next number and become owners of what they list. -/

namespace NestedIR.Context

/-- The values that are defined next. -/
def freshValues (ctx : Context) (count : Nat) : List ValueId :=
  (List.range' ctx.values.size count).map ValueId.mk

/-- Defines one value for each type. -/
def defineValues (ctx : Context) (definition : Nat → Definition) (types : List TypeId) : Context :=
  { ctx with
    values := ctx.values ++ types.mapIdx fun index type => Value.mk (definition index) type }

/-- Gives a region without an owner to an operation. -/
def claimRegion (claimant : OpId) (ctx : Context) (region : RegionId) : Except Fault Context := do
  match (← ctx.region region).parentOp with
  | some owner => throw (.regionTaken region owner claimant)
  | none => return ctx.modifyRegion region ({ · with parentOp := some claimant })

/-- Gives a block without an owner to a region. -/
def claimBlock (claimant : RegionId) (ctx : Context) (block : BlockId) : Except Fault Context := do
  match (← ctx.block block).parentRegion with
  | some owner => throw (.blockTaken block owner claimant)
  | none => return ctx.modifyBlock block ({ · with parentRegion := some claimant })

/-- Gives an operation without an owner to a block. -/
def claimOp (claimant : BlockId) (ctx : Context) (op : OpId) : Except Fault Context := do
  match (← ctx.op op).parentBlock with
  | some owner => throw (.opTaken op owner claimant)
  | none => return ctx.modifyOp op ({ · with parentBlock := some claimant })

/--
Makes an operation, defines its results and records its operands as uses.

The new operation is in no block, and every region it lists must have been free.
A region listed twice is no longer free the second time.
-/
def addOp (ctx : Context) (spec : OpSpec) : Except Fault (OpId × Context) := do
  if spec.parentBlock.isSome then throw .bornAttached
  let op : OpId := ⟨ctx.ops.size⟩
  let results := ctx.freshValues spec.resultTypes.length
  let ctx := { ctx with ops := ctx.ops.push { toOpSpec := spec, results } }
  let ctx ← spec.regions.foldlM (claimRegion op) ctx
  let ctx := { ctx with uses := ctx.uses.recordAll op spec.operands }
  return (op, ctx.defineValues (.result op) spec.resultTypes)

/--
Makes a block and defines its arguments.

Every operation it lists must have been in no block.
The region it names as its owner is taken as given.
-/
def addBlock (ctx : Context) (spec : BlockSpec) : Except Fault (BlockId × Context) := do
  let block : BlockId := ⟨ctx.blocks.size⟩
  let arguments := ctx.freshValues spec.argumentTypes.length
  let ctx := { ctx with blocks := ctx.blocks.push { toBlockSpec := spec, arguments } }
  let ctx ← spec.ops.foldlM (claimOp block) ctx
  return (block, ctx.defineValues (.argument block) spec.argumentTypes)

/--
Makes a region.

Every block it lists must have been in no region.
The operation it names as its owner is taken as given.
-/
def addRegion (ctx : Context) (data : Region) : Except Fault (RegionId × Context) := do
  let region : RegionId := ⟨ctx.regions.size⟩
  let ctx := { ctx with regions := ctx.regions.push data }
  let ctx ← data.blocks.foldlM (claimBlock region) ctx
  return (region, ctx)

/-- Finds a type, or records it when it is new. -/
def internType (ctx : Context) (data : TypeData) : TypeId × Context :=
  let (type, types) := ctx.types.intern data
  (type, { ctx with types })

end NestedIR.Context
