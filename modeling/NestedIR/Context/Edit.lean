import NestedIR.Context.Basic

/-! Operations move in and out of blocks, leave the program, and trade one operand for another. -/

namespace NestedIR

/-- The list with an item put in front of the first occurrence of another, if there is one. -/
def insertBefore {α : Type} [DecidableEq α] (before item : α) : List α → Option (List α)
  | [] => none
  | head :: rest =>
    if head = before then some (item :: head :: rest)
    else (insertBefore before item rest).map (head :: ·)

/-- An insertion succeeds exactly where the list has the item to insert in front of. -/
theorem insertBefore_eq_some_iff {α : Type} [DecidableEq α] {before item : α} {list out : List α} :
    insertBefore before item list = some out ↔
      ∃ front back, before ∉ front ∧ list = front ++ before :: back ∧
        out = front ++ item :: before :: back := by
  -- The search passes over everything in front of the first occurrence.
  induction list generalizing out with
  | nil => simp [insertBefore]
  | cons head rest ih =>
    by_cases found : head = before
    · subst found
      simp only [insertBefore, if_true, Option.some.injEq]
      constructor
      · exact fun same => ⟨[], rest, by simp, rfl, same.symm⟩
      · rintro ⟨front, back, absent, same, rfl⟩
        cases front with
        | nil => simpa using same
        | cons first front => simp_all
    · simp only [insertBefore, if_neg found, Option.map_eq_some_iff, ih]
      constructor
      · rintro ⟨_, ⟨front, back, absent, rfl, rfl⟩, rfl⟩
        exact ⟨head :: front, back, by simp [absent, Ne.symm found], rfl, rfl⟩
      · rintro ⟨front, back, absent, same, rfl⟩
        cases front with
        | nil => simp_all
        | cons first front =>
          simp only [List.cons_append, List.cons.injEq] at same
          obtain ⟨rfl, rfl⟩ := same
          exact ⟨_, ⟨front, back, fun member => absent (by simp [member]), rfl, rfl⟩, rfl⟩

/-- A direct change to the data of an operation, which leaves all other data alone. -/
inductive OpEdit where
  /-- Renames the operation. -/
  | setName (name : OpName)
  /-- Changes the symbol that the operation defines. -/
  | setSymbol (symbol : Option String)
  /-- Changes the block that the operation names as its owner, not the lists of the blocks. -/
  | setParentBlock (block : Option BlockId)
  /-- Changes the listed regions, not the owners that the regions name. -/
  | setRegions (regions : List RegionId)
  /-- Changes the blocks to which control may pass. -/
  | setSuccessors (successors : List BlockId)
  /-- Puts an attribute under a key. -/
  | setAttribute (key : String) (value : Attribute)
  /-- Takes the attribute under a key away. -/
  | eraseAttribute (key : String)

/-- The data of an operation after a direct change. -/
def OpEdit.apply (data : Operation) : OpEdit → Operation
  | .setName name => { data with name }
  | .setSymbol symbol => { data with symbol }
  | .setParentBlock block => { data with parentBlock := block }
  | .setRegions regions => { data with regions }
  | .setSuccessors successors => { data with successors }
  | .setAttribute key value => { data with attributes := data.attributes.insert key value }
  | .eraseAttribute key => { data with attributes := data.attributes.erase key }

namespace Context

/-- Changes the data of an operation directly. -/
def editOp (ctx : Context) (op : OpId) (edit : OpEdit) : Except Fault Context := do
  let _ ← ctx.op op
  return ctx.modifyOp op edit.apply

/-- Appends a free operation to a block. -/
def appendOp (ctx : Context) (block : BlockId) (op : OpId) : Except Fault Context := do
  if let some owner := (← ctx.op op).parentBlock then throw (.appendAttached op owner)
  let _ ← ctx.block block
  return (ctx.modifyBlock block fun data => { data with ops := data.ops ++ [op] }).modifyOp op
    ({ · with parentBlock := some block })

/-- Puts a free operation in front of another one in a block. -/
def insertOp (ctx : Context) (block : BlockId) (before op : OpId) : Except Fault Context := do
  if let some owner := (← ctx.op op).parentBlock then throw (.insertAttached op owner)
  let some ops := insertBefore before op (← ctx.block block).ops
    | throw (.insertionPointMissing before block)
  return (ctx.modifyBlock block ({ · with ops })).modifyOp op ({ · with parentBlock := some block })

/-- Takes an operation out of a block, and frees it if it names that block as its owner. -/
def detachOp (ctx : Context) (block : BlockId) (op : OpId) : Except Fault Context := do
  let _ ← ctx.block block
  let data ← ctx.op op
  let ctx := ctx.modifyBlock block fun data => { data with ops := data.ops.filter (· ≠ op) }
  if data.parentBlock = some block then return ctx.modifyOp op ({ · with parentBlock := none })
  else return ctx

/--
Takes a free operation out of the program, so that its operands no longer count as uses.

None of its results may be used.
-/
def discardOp (ctx : Context) (op : OpId) : Except Fault Context := do
  let data ← ctx.op op
  if let some owner := data.parentBlock then throw (.discardAttached op owner)
  if let some value := data.results.find? ctx.isUsed then
    throw (.discardUsed value (ctx.usesOf value).length)
  return { ctx with uses := ctx.uses.forgetAll op data.operands }

/-- Takes an operation out of a block and then out of the program. -/
def eraseOp (ctx : Context) (block : BlockId) (op : OpId) : Except Fault Context := do
  (← ctx.detachOp block op).discardOp op

/-- Puts a value into an operand slot. -/
def setOperand (value : ValueId) (ctx : Context) (slot : Use) : Context :=
  ctx.modifyOp slot.user fun data => { data with operands := data.operands.set slot.index value }

/--
Puts one value into every operand slot that holds another.

The slots join the uses of the new value at the end, in their old order.
-/
def redirectUses (ctx : Context) (old new : ValueId) : Context :=
  if old = new then ctx
  else
    let slots := ctx.usesOf old
    let uses := (ctx.uses.set old []).set new (ctx.usesOf new ++ slots)
    { slots.foldl (setOperand new) ctx with uses }

end Context

end NestedIR
