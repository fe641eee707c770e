/-! Operations, values, blocks, regions and types are named in the order in which they appear. -/

namespace NestedIR

/-- An operation, named by its position among all operations ever made. -/
structure OpId where
  /-- The number of operations made before this one. -/
  index : Nat
deriving DecidableEq

/-- A value, named by its position among all operation results and block arguments. -/
structure ValueId where
  /-- The number of values defined before this one. -/
  index : Nat
deriving DecidableEq

/-- A block, named by its position among all blocks ever made. -/
structure BlockId where
  /-- The number of blocks made before this one. -/
  index : Nat
deriving DecidableEq

/-- A region, named by its position among all regions ever made. -/
structure RegionId where
  /-- The number of regions made before this one. -/
  index : Nat
deriving DecidableEq

/-- A type, named by its position in the type table. -/
structure TypeId where
  /-- The number of distinct types recorded before this one. -/
  index : Nat
deriving DecidableEq

instance : ToString OpId where
  toString op := s!"op{op.index}"

instance : ToString ValueId where
  toString value := s!"v{value.index}"

instance : ToString BlockId where
  toString block := s!"block{block.index}"

instance : ToString RegionId where
  toString region := s!"region{region.index}"

instance : ToString TypeId where
  toString type := s!"ty{type.index}"

/-- Something that contains or is contained. -/
inductive Entity where
  /-- An operation, which contains regions. -/
  | op (op : OpId)
  /-- A region, which contains blocks. -/
  | region (region : RegionId)
  /-- A block, which contains operations. -/
  | block (block : BlockId)
deriving DecidableEq

instance : ToString Entity where
  toString
    | .op op => toString op
    | .region region => toString region
    | .block block => toString block

/-- The one place that defines a value. -/
inductive Definition where
  /-- The result of an operation at a position. -/
  | result (op : OpId) (index : Nat)
  /-- The argument of a block at a position. -/
  | argument (block : BlockId) (index : Nat)
deriving DecidableEq

instance : ToString Definition where
  toString
    | .result op index => s!"{op}#{index}"
    | .argument block index => s!"{block}#{index}"

end NestedIR
