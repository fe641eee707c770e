import NestedIR.Attribute.Dictionary
import NestedIR.Context.UseChains
import NestedIR.Dialect.Table
import NestedIR.OpName
import NestedIR.TypeTable

/-! A program is kept as tables of operations, values, blocks and regions. -/

namespace NestedIR

/-- What is said about an operation when it is made. -/
structure OpSpec where
  /-- The name, which alone decides the kind of operation. -/
  name : OpName
  /-- The values that the operation reads. -/
  operands : List ValueId := []
  /-- The types of the values that the operation defines. -/
  resultTypes : List TypeId := []
  /-- The constants attached to the operation. -/
  attributes : AttributeDict := ∅
  /-- The regions that the operation owns. -/
  regions : List RegionId := []
  /-- The blocks to which control may pass. -/
  successors : List BlockId := []
  /-- The symbol that the operation defines. -/
  symbol : Option String := none
  /-- The block that owns the operation. -/
  parentBlock : Option BlockId := none

/-- An operation. -/
structure Operation extends OpSpec where
  /-- The values that the operation defines. -/
  results : List ValueId

/-- A value. -/
structure Value where
  /-- Where the value is defined. -/
  definition : Definition
  /-- The type of the value. -/
  type : TypeId

/-- What is said about a block when it is made. -/
structure BlockSpec where
  /-- The types of the values that the block is entered with. -/
  argumentTypes : List TypeId := []
  /-- The operations in the order of their execution. -/
  ops : List OpId := []
  /-- The region that owns the block. -/
  parentRegion : Option RegionId := none

/-- A block. -/
structure Block extends BlockSpec where
  /-- The values that the block is entered with. -/
  arguments : List ValueId

/-- A region. -/
structure Region where
  /-- The blocks in order, the entry first. -/
  blocks : List BlockId := []
  /-- The operation that owns the region. -/
  parentOp : Option OpId := none

/--
A program together with the types and dialects it refers to.

What was ever made keeps its place and its data, also after it left the program.
-/
structure Context where
  /-- Every operation ever made. -/
  ops : Array Operation := #[]
  /-- Every value ever defined. -/
  values : Array Value := #[]
  /-- Every block ever made. -/
  blocks : Array Block := #[]
  /-- Every region ever made. -/
  regions : Array Region := #[]
  /-- The operand slots that hold each value. -/
  uses : UseChains := {}
  /-- The recorded types. -/
  types : TypeTable := {}
  /-- The registered dialects. -/
  dialects : DialectTable := {}

end NestedIR
