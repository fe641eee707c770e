import NestedIR.Proofs.Context.Depth

/-! Operations nest directly in the blocks of others, and all containment comes of that. -/

namespace NestedIR.Context

open Relation

variable {ctx : Context}

/-- An operation encloses the blocks of its regions. -/
def Encloses (ctx : Context) (op : OpId) (block : BlockId) : Prop :=
  ∃ region, ctx.Contains (.op op) (.region region) ∧
    ctx.Contains (.region region) (.block block)

/-- An operation holds another one in a block of one of its regions. -/
def Holds (ctx : Context) (outer : OpId) (block : BlockId) (inner : OpId) : Prop :=
  ctx.Encloses outer block ∧ ctx.Contains (.block block) (.op inner)

/-- An operation nests another one directly when it holds it in some block. -/
def Nests (ctx : Context) (outer inner : OpId) : Prop := ∃ block, ctx.Holds outer block inner

/-- Holding is read off three lists, which are all known. -/
theorem holds_iff {outer inner : OpId} {block : BlockId} :
    ctx.Holds outer block inner ↔ ∃ data region listed target,
      ctx.op outer = .ok data ∧ region ∈ data.regions ∧ ctx.region region = .ok listed ∧
        block ∈ listed.blocks ∧ ctx.block block = .ok target ∧ inner ∈ target.ops := by
  -- Each step of containment is one list.
  constructor
  · intro holds
    obtain ⟨⟨region, toRegion, toBlock⟩, toOp⟩ := holds
    obtain ⟨data, _, found, inRegions, same⟩ := contains_op.mp toRegion
    cases same
    obtain ⟨listed, _, known, inBlocks, same⟩ := contains_region.mp toBlock
    cases same
    obtain ⟨target, _, knownBlock, inOps, same⟩ := contains_block.mp toOp
    cases same
    exact ⟨data, region, listed, target, found, inRegions, known, inBlocks, knownBlock, inOps⟩
  · intro lists
    obtain ⟨data, region, listed, target, found, inRegions, known, inBlocks, knownBlock, inOps⟩ :=
      lists
    exact ⟨⟨region, contains_op.mpr ⟨data, region, found, inRegions, rfl⟩,
      contains_region.mpr ⟨listed, block, known, inBlocks, rfl⟩⟩,
      contains_block.mpr ⟨target, inner, knownBlock, inOps, rfl⟩⟩

/-- What an operation encloses is inside it. -/
theorem Encloses.transGen {op : OpId} {block : BlockId} (encloses : ctx.Encloses op block) :
    TransGen ctx.Contains (.op op) (.block block) := by
  obtain ⟨region, toRegion, toBlock⟩ := encloses
  exact .tail (.single toRegion) toBlock

/-- What an operation holds is inside it. -/
theorem Holds.transGen {outer inner : OpId} {block : BlockId}
    (holds : ctx.Holds outer block inner) :
    TransGen ctx.Contains (.op outer) (.op inner) :=
  holds.1.transGen.tail holds.2

/-- What an operation holds fits into one step less of depth. -/
theorem Fits.of_holds {depth : Nat} {outer inner : OpId} {block : BlockId}
    (fits : ctx.Fits (depth + 1) (.op outer)) (holds : ctx.Holds outer block inner) :
    ctx.Fits depth (.op inner) := by
  -- The way down takes three steps, of which one is enough here.
  obtain ⟨⟨region, toRegion, toBlock⟩, toOp⟩ := holds
  exact ((fits.of_contains toRegion).inner toBlock).inner toOp

/-- Where the depth is enough, the blocks that an operation encloses are known. -/
theorem Fits.exists_enclosed {depth : Nat} {op : OpId} {block : BlockId}
    (fits : ctx.Fits depth (.op op)) (encloses : ctx.Encloses op block) :
    ∃ data, ctx.block block = .ok data := by
  obtain ⟨region, toRegion, toBlock⟩ := encloses
  exact ((fits.inner toRegion).inner toBlock).exists_block

/-- What lies on a way down from an operation, and the last operation on the way. -/
def Leads (ctx : Context) (outer : OpId) : Entity → Prop
  | .op inner => TransGen ctx.Nests outer inner
  | .region region => ∃ last, ReflTransGen ctx.Nests outer last ∧
    ctx.Contains (.op last) (.region region)
  | .block block => ∃ last, ReflTransGen ctx.Nests outer last ∧ ctx.Encloses last block

/-- Every way down from an operation leads from one nested operation to the next. -/
theorem leads_of_transGen {outer : OpId} {entity : Entity}
    (path : TransGen ctx.Contains (.op outer) entity) : ctx.Leads outer entity := by
  -- A step from an operation, a region or a block is the next part of one nesting.
  have step {start stop : Entity} (before : start = .op outer ∨ ctx.Leads outer start)
      (contains : ctx.Contains start stop) : ctx.Leads outer stop := by
    cases start with
    | op last =>
      obtain ⟨data, region, -, -, rfl⟩ := contains_op.mp contains
      refine ⟨last, ?_, contains⟩
      rcases before with same | nested
      · cases same
        exact .refl
      · exact TransGen.to_reflTransGen nested
    | region region =>
      obtain ⟨last, nested, toRegion⟩ := before.resolve_left (by simp)
      obtain ⟨data, block, -, -, rfl⟩ := contains_region.mp contains
      exact ⟨last, nested, region, toRegion, contains⟩
    | block block =>
      obtain ⟨last, nested, encloses⟩ := before.resolve_left (by simp)
      obtain ⟨data, inner, -, -, rfl⟩ := contains_block.mp contains
      exact TransGen.tail' nested ⟨block, encloses, contains⟩
  induction path with
  | single contains => exact step (.inl rfl) contains
  | tail _ contains ih => exact step (.inr ih) contains

/-- What is inside an operation is nested in it, directly or through others. -/
theorem transGen_nests_iff {outer inner : OpId} :
    TransGen ctx.Nests outer inner ↔ TransGen ctx.Contains (.op outer) (.op inner) := by
  -- One nesting is three steps of containment.
  constructor
  · intro nested
    refine TransGen.lift' Entity.op (fun start stop nests => ?_) _ _ nested
    obtain ⟨block, holds⟩ := nests
    exact holds.transGen
  · exact leads_of_transGen

/-- What can be reached from an operation by nesting can be reached by containment. -/
theorem reflTransGen_of_nests {outer inner : OpId} (nested : ReflTransGen ctx.Nests outer inner) :
    ReflTransGen ctx.Contains (.op outer) (.op inner) := by
  rcases reflTransGen_iff_eq_or_transGen.mp nested with rfl | path
  · exact .refl
  · exact (transGen_nests_iff.mp path).to_reflTransGen

end NestedIR.Context
