import NestedIR.Proofs.Context.Nesting

/-! Sweeps leave alone all structure but the lists of blocks, which lose what is rewritten. -/

namespace NestedIR

open Relation

namespace Context

/-- Operations read known values only, unless it is allowed that a value is not known. -/
def ReadsKnown (allowed : Fault → Prop) (ctx : Context) : Prop :=
  ∀ op data value, ctx.op op = .ok data → value ∈ data.operands →
    (∃ known, ctx.value value = .ok known) ∨ allowed (.unknownValue value)

/-- An operation is somewhere inside another one, or not known yet. -/
def Within (ctx : Context) (op inner : OpId) : Prop :=
  TransGen ctx.Contains (.op op) (.op inner) ∨ ctx.ops.size ≤ inner.index

/-- An operation reads known values only, unless it is allowed that a value is not known. -/
def ReadsAt (allowed : Fault → Prop) (ctx : Context) (op : OpId) : Prop :=
  ∀ data value, ctx.op op = .ok data → value ∈ data.operands →
    (∃ known, ctx.value value = .ok known) ∨ allowed (.unknownValue value)

/-- What is inside an operation reads known values only, unless others are allowed. -/
def ReadsBelow (allowed : Fault → Prop) (ctx : Context) (root : OpId) : Prop :=
  ∀ op, ctx.Within root op → ctx.ReadsAt allowed op

/-- What is within an operation inside another is within that one. -/
theorem Within.trans {ctx : Context} {outer op inner : OpId} (inside : ctx.Within op inner)
    (path : TransGen ctx.Contains (.op outer) (.op op)) : ctx.Within outer inner :=
  inside.imp_left path.trans

/-- Nothing known that fits into a depth is within itself. -/
theorem Fits.not_within {ctx : Context} {depth : Nat} {op : OpId} (fits : ctx.Fits depth (.op op)) :
    ¬ ctx.Within op op := by
  -- Being inside itself takes endless depth, and a new operation is not known.
  intro inside
  rcases inside with around | new
  · exact fits.not_transGen around
  · obtain ⟨data, found⟩ := fits.exists_op
    exact absurd (index_lt_of_op found) (Nat.not_lt.mpr new)

end Context

/--
What changes when some operations are rewritten.

A rewritten operation may leave its block, which frees it, and operations without regions may come
in next to others. Everything else keeps its place and its data, except that known values may take
the place of operands.
-/
structure Evolves (touched : OpId → Prop) (ctx ctx' : Context) : Prop where
  /-- Blocks neither come nor go. -/
  blocks_size : ctx'.blocks.size = ctx.blocks.size
  /-- Regions stay. -/
  regions_eq : ctx'.regions = ctx.regions
  /-- A known value stays as it is. -/
  value_known : ∀ {value data}, ctx.value value = .ok data → ctx'.value value = .ok data
  /-- A known operation stays as it is but for operands, unless it is rewritten and freed. -/
  op_known : ∀ {op data}, ctx.op op = .ok data → ∃ operands owner,
    ctx'.op op = .ok { data with operands, parentBlock := owner } ∧
      (owner = data.parentBlock ∨ touched op ∧ owner = none) ∧
      ∀ value ∈ operands, value ∈ data.operands ∨ ∃ known, ctx'.value value = .ok known
  /-- A new operation contains nothing and reads known values only. -/
  op_new : ∀ {op data}, ctx'.op op = .ok data → ctx.ops.size ≤ op.index →
    data.regions = [] ∧ ∀ value ∈ data.operands, ∃ known, ctx'.value value = .ok known
  /-- A block gains only new operations next to others, and loses only freed ones. -/
  block_known : ∀ {block data}, ctx.block block = .ok data → ∃ ops,
    ctx'.block block = .ok { data with ops } ∧
      (∀ op ∈ ops, op ∈ data.ops ∨
        data.ops ≠ [] ∧ ctx.ops.size ≤ op.index ∧ op.index < ctx'.ops.size) ∧
      ∀ op ∈ data.ops, op ∈ ops ∨
        touched op ∧ ∃ freed, ctx'.op op = .ok freed ∧ freed.parentBlock = none

namespace Evolves

variable {touched other : OpId → Prop} {ctx mid ctx' : Context}

/-- A program evolves into itself. -/
theorem refl (touched : OpId → Prop) (ctx : Context) : Evolves touched ctx ctx where
  blocks_size := rfl
  regions_eq := rfl
  value_known found := found
  op_known {_ data} found :=
    ⟨data.operands, data.parentBlock, found, .inl rfl, fun _ listed => .inl listed⟩
  op_new found new := absurd (Context.index_lt_of_op found) (Nat.not_lt.mpr new)
  block_known {_ data} found :=
    ⟨data.ops, found, fun _ listed => .inl listed, fun _ listed => .inl listed⟩

/-- No operation goes away. -/
theorem size_le (evolves : Evolves touched ctx ctx') : ctx.ops.size ≤ ctx'.ops.size := by
  -- Otherwise the first number that is not known any more was known before.
  refine Nat.not_lt.mp fun fewer => ?_
  obtain ⟨data, found⟩ := @Context.exists_op_of_lt ctx ⟨ctx'.ops.size⟩ fewer
  obtain ⟨operands, owner, found', -⟩ := evolves.op_known found
  exact Context.op_ne_next found' rfl

/-- One change after another is a change. -/
theorem trans (first : Evolves touched ctx mid) (second : Evolves touched mid ctx') :
    Evolves touched ctx ctx' where
  blocks_size := second.blocks_size.trans first.blocks_size
  regions_eq := second.regions_eq.trans first.regions_eq
  value_known found := second.value_known (first.value_known found)
  op_known {op data} found := by
    obtain ⟨operands, owner, foundMid, owned, read⟩ := first.op_known found
    obtain ⟨operands', owner', found', owned', read'⟩ := second.op_known foundMid
    refine ⟨operands', owner', found', ?_, fun value listed => ?_⟩
    · -- Once freed, an operation stays free.
      rcases owned' with rfl | freed
      · exact owned
      · exact .inr freed
    · rcases read' value listed with old | known
      · refine (read value old).imp_right fun known => ?_
        obtain ⟨data, found⟩ := known
        exact ⟨data, second.value_known found⟩
      · exact .inr known
  op_new {op data} found new := by
    -- What is new altogether is new in the first part or in the second.
    by_cases known : op.index < mid.ops.size
    · obtain ⟨old, foundMid⟩ := Context.exists_op_of_lt known
      obtain ⟨operands, owner, foundLast, -, read⟩ := second.op_known foundMid
      rw [found] at foundLast
      cases foundLast
      obtain ⟨empty, reads⟩ := first.op_new foundMid new
      refine ⟨empty, fun value listed => ?_⟩
      rcases read value listed with old | known
      · obtain ⟨data, foundValue⟩ := reads value old
        exact ⟨data, second.value_known foundValue⟩
      · exact known
    · exact second.op_new found (Nat.not_lt.mp known)
  block_known {block data} found := by
    obtain ⟨ops, foundMid, gained, lost⟩ := first.block_known found
    obtain ⟨ops', found', gained', lost'⟩ := second.block_known foundMid
    have smaller := first.size_le
    have larger := second.size_le
    refine ⟨ops', found', fun op listed => ?_, fun op listed => ?_⟩
    · rcases gained' op listed with old | ⟨some_, new, bound⟩
      · rcases gained op old with older | ⟨some_, new, bound⟩
        · exact .inl older
        · exact .inr ⟨some_, new, by omega⟩
      · -- A list in the middle is not empty only if the list before was not.
        refine .inr ⟨fun empty => some_ (List.eq_nil_iff_forall_not_mem.mpr fun op member => ?_),
          by omega, bound⟩
        rcases gained op member with old | ⟨some_, -⟩
        · simp [empty] at old
        · exact some_ empty
    · rcases lost op listed with kept | ⟨wasTouched, freed, foundFreed, free⟩
      · exact lost' op kept
      -- It was freed in the first part, and the second leaves it free.
      · refine .inr ⟨wasTouched, ?_⟩
        obtain ⟨operands, owner, foundLast, owned, -⟩ := second.op_known foundFreed
        refine ⟨_, foundLast, ?_⟩
        rcases owned with same | ⟨-, none⟩
        · exact same.trans free
        · exact none

/-- More operations may be rewritten than are. -/
theorem mono (evolves : Evolves touched ctx ctx') (more : ∀ op, touched op → other op) :
    Evolves other ctx ctx' where
  blocks_size := evolves.blocks_size
  regions_eq := evolves.regions_eq
  value_known := evolves.value_known
  -- What was allowed to one of the operations is allowed to it among more of them.
  op_known {op data} found := by
    obtain ⟨operands, owner, found', owned, read⟩ := evolves.op_known found
    exact ⟨operands, owner, found', owned.imp_right fun freed => ⟨more op freed.1, freed.2⟩, read⟩
  op_new := evolves.op_new
  block_known {block data} found := by
    obtain ⟨ops, found', gained, lost⟩ := evolves.block_known found
    exact ⟨ops, found', gained, fun op listed =>
      (lost op listed).imp_right fun freed => ⟨more op freed.1, freed.2⟩⟩

/-- What a program contains after a change it contained before, unless it is a new operation. -/
theorem contains (evolves : Evolves touched ctx ctx') {outer inner : Entity}
    (after : ctx'.Contains outer inner) :
    ctx.Contains outer inner ∨ ∃ op, inner = .op op ∧ ctx.ops.size ≤ op.index := by
  -- Lists of regions and blocks stay, so only the list of a block can have grown.
  cases outer with
  | op op =>
    obtain ⟨data, region, found, listed, rfl⟩ := Context.contains_op.mp after
    by_cases known : op.index < ctx.ops.size
    · obtain ⟨old, foundOld⟩ := Context.exists_op_of_lt known
      obtain ⟨operands, owner, foundLast, -⟩ := evolves.op_known foundOld
      rw [found] at foundLast
      cases foundLast
      exact .inl (Context.contains_op.mpr ⟨old, region, foundOld, listed, rfl⟩)
    · rw [(evolves.op_new found (Nat.not_lt.mp known)).1] at listed
      cases listed
  | region region =>
    obtain ⟨data, block, found, listed, rfl⟩ := Context.contains_region.mp after
    rw [Context.region_congr evolves.regions_eq] at found
    exact .inl (Context.contains_region.mpr ⟨data, block, found, listed, rfl⟩)
  | block block =>
    obtain ⟨data, op, found, listed, rfl⟩ := Context.contains_block.mp after
    have known := Context.index_lt_of_block found
    rw [evolves.blocks_size] at known
    obtain ⟨old, foundOld⟩ := Context.exists_block_of_lt known
    obtain ⟨ops, foundLast, gained, -⟩ := evolves.block_known foundOld
    rw [found] at foundLast
    cases foundLast
    rcases gained op listed with kept | ⟨-, new, -⟩
    · exact .inl (Context.contains_block.mpr ⟨old, op, foundOld, kept, rfl⟩)
    · exact .inr ⟨op, rfl, new⟩

/-- Everything inside an entity after a change was inside it before, but for new operations. -/
theorem transGen_contains (evolves : Evolves touched ctx ctx') {outer inner : Entity}
    (after : TransGen ctx'.Contains outer inner) :
    TransGen ctx.Contains outer inner ∨ ∃ op, inner = .op op ∧ ctx.ops.size ≤ op.index := by
  -- A new operation contains nothing, so that no way down goes on from it.
  induction after with
  | single step => exact (evolves.contains step).imp_left .single
  | tail _ step ih =>
    rcases ih with path | ⟨op, rfl, new⟩
    · exact (evolves.contains step).imp_left path.tail
    · obtain ⟨data, region, found, listed, rfl⟩ := Context.contains_op.mp step
      rw [(evolves.op_new found new).1] at listed
      cases listed

/-- An operation still encloses the same blocks after a change. -/
theorem encloses (evolves : Evolves touched ctx ctx') {op : OpId} {block : BlockId}
    (before : ctx.Encloses op block) : ctx'.Encloses op block := by
  -- Neither the regions of the operation nor the blocks of a region change.
  obtain ⟨region, toRegion, toBlock⟩ := before
  obtain ⟨data, _, found, inRegions, same⟩ := Context.contains_op.mp toRegion
  cases same
  obtain ⟨listed, _, known, inBlocks, same⟩ := Context.contains_region.mp toBlock
  cases same
  obtain ⟨operands, owner, found', -⟩ := evolves.op_known found
  rw [← Context.region_congr evolves.regions_eq] at known
  exact ⟨region, Context.contains_op.mpr ⟨_, region, found', inRegions, rfl⟩,
    Context.contains_region.mpr ⟨listed, block, known, inBlocks, rfl⟩⟩

/-- What fits into a depth still does so after a change. -/
theorem fits (evolves : Evolves touched ctx ctx') {depth : Nat} {entity : Entity}
    (fits : ctx.Fits depth entity) : ctx'.Fits depth entity := by
  -- What an entity lists fits into one step less, and a new operation lists nothing.
  induction depth generalizing entity with
  | zero => cases fits
  | succ depth ih =>
    obtain ⟨listed, members, below⟩ := fits
    cases entity with
    | op op =>
      obtain ⟨data, found, made⟩ := bind_eq_ok.mp members
      cases made
      obtain ⟨operands, owner, found', -⟩ := evolves.op_known found
      -- An operation contains the same regions as before.
      exact ⟨_, bind_eq_ok.mpr ⟨_, found', rfl⟩, fun member isListed => ih (below member isListed)⟩
    | region region =>
      refine ⟨listed, ?_, fun member isListed => ih (below member isListed)⟩
      -- No region is changed.
      rw [← members, Context.members, Context.members, Context.region_congr evolves.regions_eq]
    | block block =>
      obtain ⟨data, found, made⟩ := bind_eq_ok.mp members
      cases made
      -- The list of a block has only gained operations that are new.
      obtain ⟨ops, found', gained, -⟩ := evolves.block_known found
      refine ⟨_, bind_eq_ok.mpr ⟨_, found', rfl⟩, fun member isListed => ?_⟩
      obtain ⟨op, inOps, rfl⟩ := List.mem_map.mp isListed
      rcases gained op inOps with old | ⟨some_, new, bound⟩
      · exact ih (below _ (List.mem_map_of_mem old))
      · -- A new operation stands next to one that needs some depth, which is enough for it.
        obtain ⟨beside, besideListed⟩ := List.exists_mem_of_ne_nil _ some_
        have room := below _ (List.mem_map_of_mem besideListed)
        obtain ⟨less, rfl⟩ : ∃ less, depth = less + 1 := by
          cases depth with
          | zero => cases room
          | succ less => exact ⟨less, rfl⟩
        obtain ⟨data, known⟩ := Context.exists_op_of_lt bound
        refine ⟨_, bind_eq_ok.mpr ⟨_, known, rfl⟩, fun region inRegions => ?_⟩
        rw [(evolves.op_new known new).1] at inRegions
        cases inRegions

/-- The bound on depth only grows. -/
theorem depthBound_le (evolves : Evolves touched ctx ctx') : ctx.depthBound ≤ ctx'.depthBound := by
  -- Only the table of operations grows.
  have ops := evolves.size_le
  simp only [Context.depthBound, evolves.blocks_size, evolves.regions_eq]
  omega

/-- An operation may read a value that is not known after a change only if it might before. -/
theorem readsAt {allowed : Fault → Prop} {op : OpId} (evolves : Evolves touched ctx ctx')
    (reads : ctx.ReadsAt allowed op) : ctx'.ReadsAt allowed op := by
  -- An operand is an old one, or a known value has taken its place.
  intro data value found listed
  by_cases known : op.index < ctx.ops.size
  · obtain ⟨old, foundOld⟩ := Context.exists_op_of_lt known
    obtain ⟨operands, owner, found', -, read⟩ := evolves.op_known foundOld
    rw [found] at found'
    cases found'
    rcases read value listed with isOld | known
    · rcases reads old value foundOld isOld with known | allows
      · obtain ⟨data, foundValue⟩ := known
        exact .inl ⟨data, evolves.value_known foundValue⟩
      · exact .inr allows
    · exact .inl known
  · exact .inl ((evolves.op_new found (Nat.not_lt.mp known)).2 value listed)

/-- Values that are not known may be read after a change only if they were before. -/
theorem reads {allowed : Fault → Prop} (evolves : Evolves touched ctx ctx')
    (reads : ctx.ReadsKnown allowed) : ctx'.ReadsKnown allowed :=
  fun op => evolves.readsAt (reads op)

/-- What is within an operation after a change was within it before. -/
theorem within (evolves : Evolves touched ctx ctx') {op inner : OpId}
    (inside : ctx'.Within op inner) : ctx.Within op inner := by
  -- Ways down to known operations were there before, and new ones are within anything.
  rcases inside with path | new
  · rcases evolves.transGen_contains path with old | ⟨fresh, same, new⟩
    · exact .inl old
    · cases same
      exact .inr new
  · exact .inr (Nat.le_trans evolves.size_le new)

end Evolves

end NestedIR
