import NestedIR.Proofs.Pass.Rewriting

/-! Erased operations are gone from all lists and chains, and everything else keeps its order. -/

namespace NestedIR

/--
A program without some operations, which are in no block and count as no uses any more.

All other operations keep their data, and lists and chains keep what is left in the old order.
-/
structure Erases (gone : List OpId) (ctx ctx' : Context) : Prop where
  /-- An operation that is gone is free, and every other one stays as it is. -/
  op_eq : ∀ op, ctx'.op op = (ctx.op op).map fun data =>
    if op ∈ gone then { data with parentBlock := none } else data
  /-- A block lists what it listed before, but for the operations that are gone. -/
  block_eq : ∀ block, ctx'.block block = (ctx.block block).map fun data =>
    { data with ops := data.ops.filter (· ∉ gone) }
  /-- A chain lists the uses that it listed before, but for those by operations that are gone. -/
  usesOf_eq : ∀ value, ctx'.usesOf value = (ctx.usesOf value).filter fun use => use.user ∉ gone
  /-- Regions stay. -/
  regions_eq : ctx'.regions = ctx.regions
  /-- Values stay. -/
  values_eq : ctx'.values = ctx.values
  /-- Types stay. -/
  types_eq : ctx'.types = ctx.types
  /-- Dialects stay. -/
  dialects_eq : ctx'.dialects = ctx.dialects

namespace Erases

variable {gone more : List OpId} {ctx mid ctx' : Context}

/-- Without an operation to erase, nothing changes. -/
theorem refl (ctx : Context) : Erases [] ctx ctx where
  op_eq op := by simp
  block_eq block := by simp
  usesOf_eq value := by simp
  regions_eq := rfl
  values_eq := rfl
  types_eq := rfl
  dialects_eq := rfl

/-- What is erased in two parts is erased together. -/
theorem trans (first : Erases gone ctx mid) (second : Erases more mid ctx') :
    Erases (gone ++ more) ctx ctx' where
  op_eq op := by
    -- An operation that is gone twice is free as well.
    rw [second.op_eq, first.op_eq]
    cases ctx.op op with
    | error fault => rfl
    | ok data => by_cases early : op ∈ gone <;> by_cases late : op ∈ more <;>
        simp [Except.map, early, late]
  block_eq block := by
    rw [second.block_eq, first.block_eq]
    cases ctx.block block with
    | error fault => rfl
    | ok data => simp [Except.map, List.filter_filter, Bool.and_comm]
  usesOf_eq value := by
    rw [second.usesOf_eq, first.usesOf_eq, List.filter_filter]
    simp [Bool.and_comm]
  regions_eq := second.regions_eq.trans first.regions_eq
  values_eq := second.values_eq.trans first.values_eq
  types_eq := second.types_eq.trans first.types_eq
  dialects_eq := second.dialects_eq.trans first.dialects_eq

/-- Where owners and chains agree with lists and operands, one operation is erased everywhere. -/
theorem withErased (owned : ctx.OpsOwned) (consistent : Consistent ctx) {block : BlockId}
    {op : OpId} {data : Operation} (found : ctx.op op = .ok data)
    (owner : data.parentBlock = some block ∨ data.parentBlock = none) :
    Erases [op] ctx (ctx.withErased block op data.operands) where
  op_eq other := by
    rw [Context.op_withErased]
    by_cases same : other = op
    · subst same
      rw [found]
      rcases owner with attached | free
      · simp [Except.map, attached]
      · simp [Except.map, free]
    · simp [same]
  block_eq other := by
    -- Only the block that owns an operation lists it.
    show (ctx.displace block op).block other = _
    rw [Context.block_displace]
    cases known : ctx.block other with
    | error fault => rfl
    | ok target =>
      by_cases here : other = block
      · simp [Except.map, here]
      · have absent : op ∉ target.ops := by
          intro listed
          obtain ⟨data', foundToo, records⟩ := owned.recorded known listed
          cases found.symm.trans foundToo
          rw [records] at owner
          exact here (by simpa using owner)
        have kept : target.ops.filter (· ∉ [op]) = target.ops := by
          refine List.filter_eq_self.mpr fun member listed => ?_
          have differs : member ≠ op := fun same => absent (same ▸ listed)
          simpa using differs
        simp only [Except.map, here, if_false, kept]
  usesOf_eq value := by
    -- A chain lists an operation only at slots that hold the value.
    show (ctx.uses.forgetAll op data.operands).get value = _
    rw [UseChains.get_forgetAll]
    refine List.filter_congr fun use listed => ?_
    obtain ⟨discarded, exact⟩ := consistent.uses
    have held := ((exact.mem_iff value use).mp listed).1
    obtain ⟨user, foundUser, here⟩ := Context.operand?_eq_some_iff.mp held
    by_cases same : use.user = op
    · rw [same] at foundUser
      cases found.symm.trans foundUser
      simp [same, here]
    · simp [same]
  regions_eq := rfl
  values_eq := rfl
  types_eq := rfl
  dialects_eq := rfl

/-- What is known after an erasure was known before, and only its owner may be another. -/
theorem op_before (erases : Erases gone ctx ctx') {op : OpId} {data : Operation}
    (found : ctx'.op op = .ok data) : ∃ old, ctx.op op = .ok old ∧
      data = if op ∈ gone then { old with parentBlock := none } else old := by
  obtain ⟨old, foundOld, same⟩ := map_eq_ok.mp ((erases.op_eq op).symm.trans found)
  exact ⟨old, foundOld, same.symm⟩

/-- An operation that is known before an erasure is known after it, with the same regions. -/
theorem op_after (erases : Erases gone ctx ctx') {op : OpId} {data : Operation}
    (found : ctx.op op = .ok data) : ∃ new, ctx'.op op = .ok new ∧ new.regions = data.regions := by
  refine ⟨_, by rw [erases.op_eq, found]; rfl, ?_⟩
  split <;> rfl

/-- Every operation encloses the same blocks as before an erasure. -/
theorem encloses_iff (erases : Erases gone ctx ctx') {op : OpId} {block : BlockId} :
    ctx'.Encloses op block ↔ ctx.Encloses op block := by
  -- Neither the regions of operations nor the blocks of regions change.
  have toRegion (region : RegionId) :
      ctx'.Contains (.op op) (.region region) ↔ ctx.Contains (.op op) (.region region) := by
    constructor
    · intro after
      obtain ⟨data, _, found, listed, same⟩ := Context.contains_op.mp after
      cases same
      obtain ⟨old, foundOld, rfl⟩ := erases.op_before found
      refine Context.contains_op.mpr ⟨old, region, foundOld, ?_, rfl⟩
      split at listed <;> exact listed
    · intro before
      obtain ⟨data, _, found, listed, same⟩ := Context.contains_op.mp before
      cases same
      obtain ⟨new, foundNew, sameRegions⟩ := erases.op_after found
      exact Context.contains_op.mpr ⟨new, region, foundNew, sameRegions ▸ listed, rfl⟩
  have toBlock (region : RegionId) : ctx'.Contains (.region region) (.block block) ↔
      ctx.Contains (.region region) (.block block) := by
    simp only [Context.contains_region, Context.region_congr erases.regions_eq]
  exact exists_congr fun region => and_congr (toRegion region) (toBlock region)

/-- A block lists after an erasure what it listed before and is not gone. -/
theorem contains_block_iff (erases : Erases gone ctx ctx') {block : BlockId} {op : OpId} :
    ctx'.Contains (.block block) (.op op) ↔ ctx.Contains (.block block) (.op op) ∧ op ∉ gone := by
  constructor
  -- The list is the old one without what is gone.
  · intro after
    obtain ⟨data, _, found, listed, same⟩ := Context.contains_block.mp after
    cases same
    rw [erases.block_eq] at found
    obtain ⟨old, foundOld, rfl⟩ := map_eq_ok.mp found
    obtain ⟨inOld, stays⟩ := List.mem_filter.mp listed
    exact ⟨Context.contains_block.mpr ⟨old, op, foundOld, inOld, rfl⟩, of_decide_eq_true stays⟩
  · intro both
    obtain ⟨data, _, found, listed, same⟩ := Context.contains_block.mp both.1
    cases same
    have stays : op ∈ data.ops.filter (· ∉ gone) :=
      List.mem_filter.mpr ⟨listed, decide_eq_true both.2⟩
    exact Context.contains_block.mpr ⟨_, op, by rw [erases.block_eq, found]; rfl, stays, rfl⟩

/-- What an operation nests after an erasure it nested before, and is not gone. -/
theorem nests_iff (erases : Erases gone ctx ctx') {outer inner : OpId} :
    ctx'.Nests outer inner ↔ ctx.Nests outer inner ∧ inner ∉ gone := by
  constructor
  -- The block stays, and what it lists is known before and after.
  · intro after
    obtain ⟨block, encloses, contains⟩ := after
    obtain ⟨before, stays⟩ := erases.contains_block_iff.mp contains
    exact ⟨⟨block, erases.encloses_iff.mp encloses, before⟩, stays⟩
  · intro both
    obtain ⟨⟨block, encloses, contains⟩, stays⟩ := both
    exact ⟨block, erases.encloses_iff.mpr encloses, erases.contains_block_iff.mpr ⟨contains, stays⟩⟩

end Erases

end NestedIR
