import NestedIR.Pass.Basic

/-! Verification finds where recorded owners and branch targets disagree with containment. -/

namespace NestedIR

/-- One broken structural rule. -/
inductive Violation where
  /-- A region records another owner than the operation that lists it. -/
  | regionParent (op : OpId) (region : RegionId) (recorded : Option OpId)
  /-- A block records another owner than the region that lists it. -/
  | blockParent (region : RegionId) (block : BlockId) (recorded : Option RegionId)
  /-- An operation records another owner than the block that lists it. -/
  | opParent (block : BlockId) (op : OpId) (recorded : Option BlockId)
  /-- Control may leave a block before its last operation. -/
  | successorsBeforeEnd (block : BlockId) (op : OpId)
  /-- Control may pass to a block of another region. -/
  | successorOutsideRegion (op : OpId) (target : BlockId) (region : RegionId)
deriving DecidableEq

/-- How a recorded owner is written. -/
def recordedText {α : Type} [ToString α] : Option α → String
  | some owner => s!"Some({owner})"
  | none => "None"

/-- What a reader is told about a broken rule. -/
def Violation.message : Violation → String
  | regionParent op region recorded =>
    s!"{region} is listed under {op} but records parent {recordedText recorded}"
  | blockParent region block recorded =>
    s!"{block} is listed under {region} but records parent {recordedText recorded}"
  | opParent block op recorded =>
    s!"{op} is listed under {block} but records parent {recordedText recorded}"
  | successorsBeforeEnd block op =>
    s!"{op} has successors but is not the last operation of {block}"
  | successorOutsideRegion op target region =>
    s!"{op} branches to {target}, which is not in {region}"

namespace Verification

/-- A violation if a rule is broken. -/
def require (rule : Bool) (violation : Violation) : List Violation :=
  if rule then [] else [violation]

/-- The rules for an operation at its place in a block of a region. -/
def checkPlace (region : RegionId) (blocks : List BlockId) (block : BlockId) (isLast : Bool)
    (op : OpId) (data : Operation) : List Violation :=
  require (data.parentBlock = some block) (.opParent block op data.parentBlock)
    ++ require (data.successors.isEmpty || isLast) (.successorsBeforeEnd block op)
    ++ data.successors.flatMap fun target =>
      require (target ∈ blocks) (.successorOutsideRegion op target region)

/-- Checks the operations of a block, each before what it contains. -/
def checkOps (ctx : Context) (below : OpId → Except Fault (List Violation)) (region : RegionId)
    (blocks : List BlockId) (block : BlockId) : List OpId → Except Fault (List Violation)
  | [] => return []
  | op :: rest => do
    let place := checkPlace region blocks block rest.isEmpty op (← ctx.op op)
    let contents ← below op
    return place ++ contents ++ (← checkOps ctx below region blocks block rest)

/-- Checks a block of a region. -/
def checkBlock (ctx : Context) (below : OpId → Except Fault (List Violation)) (region : RegionId)
    (blocks : List BlockId) (block : BlockId) : Except Fault (List Violation) := do
  let data ← ctx.block block
  let recorded := data.parentRegion
  let owner := require (recorded = some region) (.blockParent region block recorded)
  return owner ++ (← checkOps ctx below region blocks block data.ops)

/-- Checks a region of an operation. -/
def checkRegion (ctx : Context) (below : OpId → Except Fault (List Violation)) (op : OpId)
    (region : RegionId) : Except Fault (List Violation) := do
  let data ← ctx.region region
  let owner := require (data.parentOp = some op) (.regionParent op region data.parentOp)
  let contents ← data.blocks.mapM (checkBlock ctx below region data.blocks)
  return owner ++ contents.flatten

/-- Checks everything that an operation contains, down to a depth. -/
def checkBelow (ctx : Context) : Nat → OpId → Except Fault (List Violation)
  | 0, op => .error (.containmentCycle (.op op))
  | depth + 1, op => do
    let contents ← (← ctx.op op).regions.mapM (checkRegion ctx (checkBelow ctx depth) op)
    return contents.flatten

/-- Every broken rule below an operation, outer ones before inner ones. -/
def violations (ctx : Context) (root : OpId) : Except Fault (List Violation) :=
  checkBelow ctx ctx.depthBound root

/-- Verification succeeds when no rule is broken. -/
def outcome (violations : List Violation) : Outcome :=
  if violations.isEmpty then .ok ()
  else
    let listed := "; ".intercalate (violations.map Violation.message)
    .error ⟨s!"{violations.length} structure violation(s): {listed}"⟩

/-- Fails when a rule is broken, and changes nothing. -/
def pass {σ : Type} : Pass σ :=
  .ofContext "verify-structure" fun root ctx => return (outcome (← violations ctx root), ctx)

end Verification

end NestedIR
