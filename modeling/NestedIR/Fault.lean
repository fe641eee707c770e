import NestedIR.Entity

/-! Faults are the ways in which a request on a program cannot be carried out at all. -/

namespace NestedIR

/-- Why a request was refused. -/
inductive Fault where
  /-- No such operation was ever made. -/
  | unknownOp (op : OpId)
  /-- No such value was ever defined. -/
  | unknownValue (value : ValueId)
  /-- No such block was ever made. -/
  | unknownBlock (block : BlockId)
  /-- No such region was ever made. -/
  | unknownRegion (region : RegionId)
  /-- No such type was ever recorded. -/
  | unknownType (type : TypeId)
  /-- The operation has fewer results than asked for. -/
  | missingResult (op : OpId) (index : Nat)
  /-- The block has fewer arguments than asked for. -/
  | missingArgument (block : BlockId) (index : Nat)
  /-- A new operation may not claim to be in a block already. -/
  | bornAttached
  /-- A new operation lists a region that an operation owns. -/
  | regionTaken (region : RegionId) (owner claimant : OpId)
  /-- A new region lists a block that a region owns. -/
  | blockTaken (block : BlockId) (owner claimant : RegionId)
  /-- A new block lists an operation that a block owns. -/
  | opTaken (op : OpId) (owner claimant : BlockId)
  /-- An operation in a block cannot be appended to one. -/
  | appendAttached (op : OpId) (owner : BlockId)
  /-- An operation in a block cannot be inserted into one. -/
  | insertAttached (op : OpId) (owner : BlockId)
  /-- The operation to insert in front of is not in the block. -/
  | insertionPointMissing (before : OpId) (block : BlockId)
  /-- An operation in a block cannot leave the program. -/
  | discardAttached (op : OpId) (owner : BlockId)
  /-- An operation cannot leave the program while one of its results is used. -/
  | discardUsed (value : ValueId) (uses : Nat)
  /-- Following containment down from something led back to what was passed already. -/
  | containmentCycle (entity : Entity)
  /-- A sum of machine words is too large to be one. -/
  | sumTooLarge
deriving DecidableEq

/-- What a reader of the refusal is told. -/
def Fault.message : Fault → String
  | unknownOp op => s!"{op} does not exist"
  | unknownValue value => s!"{value} does not exist"
  | unknownBlock block => s!"{block} does not exist"
  | unknownRegion region => s!"{region} does not exist"
  | unknownType type => s!"{type} does not exist"
  | missingResult op index => s!"{op} has no result {index}"
  | missingArgument block index => s!"{block} has no argument {index}"
  | bornAttached =>
    "create_op: operation must not have parent_block set; "
      ++ "use push_op to attach to a block after creation"
  | regionTaken region owner claimant =>
    s!"create_op: region {region} already belongs to operation {owner}; "
      ++ s!"cannot reassign to {claimant}"
  | blockTaken block owner claimant =>
    s!"create_region: block {block} already belongs to region {owner}; "
      ++ s!"cannot reassign to {claimant}"
  | opTaken op owner claimant =>
    s!"create_block: operation {op} already belongs to block {owner}; "
      ++ s!"cannot reassign to {claimant}"
  | appendAttached op owner =>
    s!"push_op: operation {op} already belongs to block {owner}; "
      ++ "remove it from the old block first"
  | insertAttached op owner =>
    s!"insert_op_before: operation {op} already belongs to block {owner}; "
      ++ "remove it from the old block first"
  | insertionPointMissing before block => s!"insert_op_before: {before} not found in {block}"
  | discardAttached op owner =>
    s!"remove_op: operation {op} is still attached to block {owner}; "
      ++ "call remove_op_from_block first"
  | discardUsed value uses =>
    s!"remove_op: result value {value} still has {uses} use(s); "
      ++ "replace all uses before removing the operation"
  | containmentCycle entity => s!"{entity} is inside a containment cycle"
  | sumTooLarge => "attempt to add with overflow"

end NestedIR
