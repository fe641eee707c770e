import NestedIR.Context.Data
import NestedIR.Fault

/-! Programs are read and changed one entity at a time. -/

namespace NestedIR.Context

/-- The data of an operation. -/
def op (ctx : Context) (op : OpId) : Except Fault Operation :=
  match ctx.ops[op.index]? with
  | some data => .ok data
  | none => .error (.unknownOp op)

/-- The data of a value. -/
def value (ctx : Context) (value : ValueId) : Except Fault Value :=
  match ctx.values[value.index]? with
  | some data => .ok data
  | none => .error (.unknownValue value)

/-- The data of a block. -/
def block (ctx : Context) (block : BlockId) : Except Fault Block :=
  match ctx.blocks[block.index]? with
  | some data => .ok data
  | none => .error (.unknownBlock block)

/-- The data of a region. -/
def region (ctx : Context) (region : RegionId) : Except Fault Region :=
  match ctx.regions[region.index]? with
  | some data => .ok data
  | none => .error (.unknownRegion region)

/-- The data of a type. -/
def type (ctx : Context) (type : TypeId) : Except Fault TypeData :=
  match ctx.types.get? type with
  | some data => .ok data
  | none => .error (.unknownType type)

/-- The values that an operation defines. One that was never made defines none. -/
def results (ctx : Context) (op : OpId) : List ValueId :=
  match ctx.ops[op.index]? with
  | some data => data.results
  | none => []

/-- The value that an operation defines at a position. -/
def result (ctx : Context) (op : OpId) (index : Nat) : Except Fault ValueId :=
  match (ctx.results op)[index]? with
  | some value => .ok value
  | none => .error (.missingResult op index)

/-- The values that a block is entered with. One that was never made has none. -/
def arguments (ctx : Context) (block : BlockId) : List ValueId :=
  match ctx.blocks[block.index]? with
  | some data => data.arguments
  | none => []

/-- The value that a block is entered with at a position. -/
def argument (ctx : Context) (block : BlockId) (index : Nat) : Except Fault ValueId :=
  match (ctx.arguments block)[index]? with
  | some value => .ok value
  | none => .error (.missingArgument block index)

/-- The blocks to which control passes at the end of a block, as its last operation says. -/
def successors (ctx : Context) (block : BlockId) : Except Fault (List BlockId) := do
  match (← ctx.block block).ops.getLast? with
  | some last => return (← ctx.op last).successors
  | none => return []

/-- The operand slots that hold a value. -/
def usesOf (ctx : Context) (value : ValueId) : List Use := ctx.uses.get value

/-- Whether any operand slot holds a value. -/
def isUsed (ctx : Context) (value : ValueId) : Bool := !(ctx.usesOf value).isEmpty

/-- Changes the data of an operation, if it was ever made. -/
def modifyOp (ctx : Context) (op : OpId) (change : Operation → Operation) : Context :=
  { ctx with ops := ctx.ops.modify op.index change }

/-- Changes the data of a block, if it was ever made. -/
def modifyBlock (ctx : Context) (block : BlockId) (change : Block → Block) : Context :=
  { ctx with blocks := ctx.blocks.modify block.index change }

/-- Changes the data of a region, if it was ever made. -/
def modifyRegion (ctx : Context) (region : RegionId) (change : Region → Region) : Context :=
  { ctx with regions := ctx.regions.modify region.index change }

/-- A change to an operation is seen at that operation and nowhere else. -/
theorem op_modifyOp (ctx : Context) (target op : OpId) (change : Operation → Operation) :
    (ctx.modifyOp target change).op op =
      if op = target then (ctx.op op).map change else ctx.op op := by
  -- Places in the table are told apart by their numbers.
  obtain ⟨changed⟩ := target
  obtain ⟨place⟩ := op
  simp only [Context.op, modifyOp, Array.getElem?_modify, OpId.mk.injEq, eq_comm (a := changed)]
  by_cases same : place = changed
  · cases ctx.ops[place]? <;> simp [same, Except.map]
  · simp [same]

/-- A change to a block is seen at that block and nowhere else. -/
theorem block_modifyBlock (ctx : Context) (target block : BlockId) (change : Block → Block) :
    (ctx.modifyBlock target change).block block =
      if block = target then (ctx.block block).map change else ctx.block block := by
  -- Places in the table are told apart by their numbers.
  obtain ⟨changed⟩ := target
  obtain ⟨place⟩ := block
  simp only [Context.block, modifyBlock, Array.getElem?_modify, BlockId.mk.injEq,
    eq_comm (a := changed)]
  by_cases same : place = changed
  · cases ctx.blocks[place]? <;> simp [same, Except.map]
  · simp [same]

/-- A change to a region is seen at that region and nowhere else. -/
theorem region_modifyRegion (ctx : Context) (target region : RegionId) (change : Region → Region) :
    (ctx.modifyRegion target change).region region =
      if region = target then (ctx.region region).map change else ctx.region region := by
  -- Places in the table are told apart by their numbers.
  obtain ⟨changed⟩ := target
  obtain ⟨place⟩ := region
  simp only [Context.region, modifyRegion, Array.getElem?_modify, RegionId.mk.injEq,
    eq_comm (a := changed)]
  by_cases same : place = changed
  · cases ctx.regions[place]? <;> simp [same, Except.map]
  · simp [same]

end NestedIR.Context
