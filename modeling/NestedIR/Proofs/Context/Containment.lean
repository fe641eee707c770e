import Mathlib.Logic.Relation
import NestedIR.Context.Containment
import NestedIR.Proofs.Context.Ownership

/-! Containment stays free of cycles until an operation is put into a block that is inside it. -/

namespace NestedIR

open Relation

section Paths

variable {α : Type} {steps steps' : α → α → Prop}

/-- A path does not use new steps that all leave from where no step leads. -/
theorem transGen_of_unreached {new : α}
    (grown : ∀ start stop, steps' start stop → steps start stop ∨ start = new)
    (unreached : ∀ start, ¬ steps' start new) {start stop : α} (differs : start ≠ new)
    (path : TransGen steps' start stop) : TransGen steps start stop := by
  -- Behind its start, a path is always at something that a step leads to.
  induction path with
  | single step => exact .single ((grown _ _ step).resolve_right differs)
  | @tail mid stop before step ih =>
    refine ih.tail ((grown _ _ step).resolve_right fun same => ?_)
    subst same
    cases before with
    | single into => exact unreached _ into
    | tail _ into => exact unreached _ into

/-- A path with one more step allowed does without it, or leads to it and goes on from it. -/
theorem transGen_or_of_step {tip goal : α}
    (grown : ∀ start stop, steps' start stop → steps start stop ∨ start = tip ∧ stop = goal)
    {start stop : α} (path : TransGen steps' start stop) :
    TransGen steps start stop ∨
      ReflTransGen steps start tip ∧ ReflTransGen steps goal stop := by
  -- Only the last use of the new step matters for where the path goes on.
  induction path with
  | single step =>
    rcases grown _ _ step with old | ⟨rfl, rfl⟩
    · exact .inl (.single old)
    · exact .inr ⟨.refl, .refl⟩
  | tail _ step ih =>
    rcases grown _ _ step with old | ⟨rfl, rfl⟩
    · rcases ih with path | ⟨before, after⟩
      · exact .inl (path.tail old)
      · exact .inr ⟨before, after.tail old⟩
    · rcases ih with path | ⟨before, -⟩
      · exact .inr ⟨path.to_reflTransGen, .refl⟩
      · exact .inr ⟨before, .refl⟩

end Paths

namespace Context

variable {ctx ctx' : Context}

/-- An entity contains what it lists. -/
def Contains (ctx : Context) (outer inner : Entity) : Prop :=
  ∃ listed, ctx.members outer = .ok listed ∧ inner ∈ listed

/-- No operation is inside itself. -/
def Acyclic (ctx : Context) : Prop := ∀ op, ¬ TransGen ctx.Contains (.op op) (.op op)

/-- An operation contains the regions that it lists. -/
theorem contains_op {op : OpId} {inner : Entity} :
    ctx.Contains (.op op) inner ↔
      ∃ data region, ctx.op op = .ok data ∧ region ∈ data.regions ∧ inner = .region region := by
  -- Members of an operation are its regions, wrapped as entities.
  simp only [Contains, members, bind_eq_ok, Pure.pure, Except.pure, Except.ok.injEq]
  constructor
  · intro contains
    obtain ⟨listed, ⟨data, found, rfl⟩, member⟩ := contains
    obtain ⟨region, isListed, rfl⟩ := List.mem_map.mp member
    exact ⟨data, region, found, isListed, rfl⟩
  · intro listing
    obtain ⟨data, region, found, isListed, rfl⟩ := listing
    exact ⟨_, ⟨data, found, rfl⟩, List.mem_map_of_mem isListed⟩

/-- A region contains the blocks that it lists. -/
theorem contains_region {region : RegionId} {inner : Entity} :
    ctx.Contains (.region region) inner ↔
      ∃ data block, ctx.region region = .ok data ∧ block ∈ data.blocks ∧
        inner = .block block := by
  -- Members of a region are its blocks, wrapped as entities.
  simp only [Contains, members, bind_eq_ok, Pure.pure, Except.pure, Except.ok.injEq]
  constructor
  · intro contains
    obtain ⟨listed, ⟨data, found, rfl⟩, member⟩ := contains
    obtain ⟨block, isListed, rfl⟩ := List.mem_map.mp member
    exact ⟨data, block, found, isListed, rfl⟩
  · intro listing
    obtain ⟨data, block, found, isListed, rfl⟩ := listing
    exact ⟨_, ⟨data, found, rfl⟩, List.mem_map_of_mem isListed⟩

/-- A block contains the operations that it lists. -/
theorem contains_block {block : BlockId} {inner : Entity} :
    ctx.Contains (.block block) inner ↔
      ∃ data op, ctx.block block = .ok data ∧ op ∈ data.ops ∧ inner = .op op := by
  -- Members of a block are its operations, wrapped as entities.
  simp only [Contains, members, bind_eq_ok, Pure.pure, Except.pure, Except.ok.injEq]
  constructor
  · intro contains
    obtain ⟨listed, ⟨data, found, rfl⟩, member⟩ := contains
    obtain ⟨op, isListed, rfl⟩ := List.mem_map.mp member
    exact ⟨data, op, found, isListed, rfl⟩
  · intro listing
    obtain ⟨data, op, found, isListed, rfl⟩ := listing
    exact ⟨_, ⟨data, found, rfl⟩, List.mem_map_of_mem isListed⟩

/-- Without a cycle through operations there is no cycle at all. -/
theorem Acyclic.not_transGen (acyclic : ctx.Acyclic) (entity : Entity) :
    ¬ TransGen ctx.Contains entity entity := by
  -- Every way round leads through an operation, from which it goes round as well.
  have turned {entity next : Entity} (step : ctx.Contains entity next)
      (back : ReflTransGen ctx.Contains next entity) : TransGen ctx.Contains next next :=
    TransGen.tail' back step
  have fromBlock (block : BlockId) :
      ¬ TransGen ctx.Contains (.block block) (.block block) := by
    intro around
    obtain ⟨next, step, back⟩ := TransGen.head'_iff.mp around
    obtain ⟨data, op, -, -, rfl⟩ := contains_block.mp step
    exact acyclic op (turned step back)
  cases entity with
  | op op => exact acyclic op
  | block block => exact fromBlock block
  | region region =>
    intro around
    obtain ⟨next, step, back⟩ := TransGen.head'_iff.mp around
    obtain ⟨data, block, -, -, rfl⟩ := contains_region.mp step
    exact fromBlock block (turned step back)

/-- What contains nothing new is acyclic if the other program is. -/
theorem Acyclic.mono (acyclic : ctx.Acyclic)
    (fewer : ∀ outer inner, ctx'.Contains outer inner → ctx.Contains outer inner) :
    ctx'.Acyclic :=
  fun op around => acyclic op (TransGen.mono fewer _ _ around)

/-- A new entity that nothing contains yet closes no cycle. -/
theorem Acyclic.of_unreached (acyclic : ctx.Acyclic) {new : Entity}
    (grown : ∀ outer inner, ctx'.Contains outer inner → ctx.Contains outer inner ∨ outer = new)
    (unreached : ∀ outer, ¬ ctx'.Contains outer new) : ctx'.Acyclic := by
  intro op around
  refine acyclic op (transGen_of_unreached grown unreached (fun same => ?_) around)
  -- The last step of the way round would lead to the new entity.
  obtain ⟨last, -, into⟩ := TransGen.tail'_iff.mp around
  exact unreached last (same ▸ into)

/-- Entities that list what they listed before contain what they contained before. -/
theorem contains_of_views (apart : Entity → Prop)
    (ops : ∀ op data, ctx'.op op = .ok data →
      apart (.op op) ∨ ∃ old, ctx.op op = .ok old ∧ data.regions = old.regions)
    (regions : ∀ region data, ctx'.region region = .ok data →
      apart (.region region) ∨ ∃ old, ctx.region region = .ok old ∧ data.blocks = old.blocks)
    (blocks : ∀ block data, ctx'.block block = .ok data →
      apart (.block block) ∨ ∃ old, ctx.block block = .ok old ∧ ∀ op ∈ data.ops, op ∈ old.ops)
    (outer inner : Entity) (contains : ctx'.Contains outer inner) :
    ctx.Contains outer inner ∨ apart outer := by
  -- Each kind of entity is looked up in its own table.
  cases outer with
  | op op =>
    obtain ⟨data, region, found, listed, rfl⟩ := contains_op.mp contains
    rcases ops op data found with isApart | ⟨old, foundOld, same⟩
    · exact .inr isApart
    · exact .inl (contains_op.mpr ⟨old, region, foundOld, same ▸ listed, rfl⟩)
  | region region =>
    obtain ⟨data, block, found, listed, rfl⟩ := contains_region.mp contains
    rcases regions region data found with isApart | ⟨old, foundOld, same⟩
    · exact .inr isApart
    · exact .inl (contains_region.mpr ⟨old, block, foundOld, same ▸ listed, rfl⟩)
  | block block =>
    obtain ⟨data, op, found, listed, rfl⟩ := contains_block.mp contains
    rcases blocks block data found with isApart | ⟨old, foundOld, among⟩
    · exact .inr isApart
    · exact .inl (contains_block.mpr ⟨old, op, foundOld, among op listed, rfl⟩)

/-- Placing an operation lets its block contain it, and changes nothing else about containment. -/
theorem contains_place {block : BlockId} {op : OpId} {target : Block} {front back : List OpId}
    (known : ctx.block block = .ok target) (split : target.ops = front ++ back)
    (outer inner : Entity) :
    (ctx.place block op (front ++ op :: back)).Contains outer inner ↔
      ctx.Contains outer inner ∨ outer = .block block ∧ inner = .op op := by
  -- Operations and regions list the same as before, so only the block needs care.
  cases outer with
  | op other =>
    simp only [contains_op, op_place, map_eq_ok, reduceCtorEq, false_and, or_false]
    constructor
    · intro contains
      -- The operation lists the regions that it has listed before.
      obtain ⟨data, region, ⟨old, found, rfl⟩, listed, rfl⟩ := contains
      refine ⟨old, region, found, ?_, rfl⟩
      split at listed <;> exact listed
    · intro contains
      obtain ⟨data, region, found, listed, rfl⟩ := contains
      refine ⟨_, region, ⟨data, found, rfl⟩, ?_, rfl⟩
      split <;> exact listed
  | region region =>
    simp only [contains_region, reduceCtorEq, false_and, or_false]
    rfl
  | block other =>
    simp only [contains_block, block_place, map_eq_ok, Entity.block.injEq]
    constructor
    · intro contains
      -- The list of the block has gained the operation, and any other member was in it before.
      obtain ⟨data, member, ⟨old, found, rfl⟩, listed, rfl⟩ := contains
      by_cases here : other = block
      · subst here
        rw [found] at known
        cases known
        simp only [if_true, List.mem_append, List.mem_cons] at listed
        by_cases same : member = op
        · exact .inr ⟨rfl, by rw [same]⟩
        · refine .inl ⟨target, member, found, ?_, rfl⟩
          rw [split]
          simpa [same] using listed
      · rw [if_neg here] at listed
        exact .inl ⟨old, member, found, listed, rfl⟩
    · intro contains
      obtain ⟨data, member, found, listed, rfl⟩ | ⟨rfl, rfl⟩ := contains
      -- No member of any list has been lost.
      · refine ⟨_, member, ⟨data, found, rfl⟩, ?_, rfl⟩
        split
        · rename_i here
          rw [here, known] at found
          cases found
          rw [split] at listed
          simp only [List.mem_append, List.mem_cons] at listed ⊢
          rcases listed with before | after
          · exact .inl before
          · exact .inr (.inr after)
        · exact listed
      · exact ⟨_, op, ⟨target, known, rfl⟩, by simp, rfl⟩

end Context

/-- A request closes a cycle when it puts an operation into a block that is inside the operation. -/
def Request.Closes (request : Request) (ctx : Context) : Prop :=
  ∃ block op, request.attachment? = some (block, op) ∧
    TransGen ctx.Contains (.op op) (.block block)

namespace Context

variable {ctx ctx' : Context}

namespace Acyclic

/-- A new operation closes no cycle, because blocks list known operations only. -/
theorem addOp (acyclic : ctx.Acyclic) (owned : OpsOwned ctx) {spec : OpSpec} {op : OpId}
    (added : ctx.addOp spec = .ok (op, ctx')) : ctx'.Acyclic := by
  -- The new operation contains something, but blocks cannot list it yet.
  obtain ⟨rfl, -, -, -, after, tables⟩ := addOp_eq_ok added
  have ops : ctx'.ops = ctx.ops.push (ctx.newOp spec) := by rw [tables]
  have blocks : ctx'.blocks = ctx.blocks := by rw [tables]
  refine acyclic.of_unreached (contains_of_views (· = .op ⟨ctx.ops.size⟩) ?_ ?_ ?_) ?_
  · intro op data found
    rcases (op_eq_ok_of_push ops).mp found with old | ⟨rfl, -⟩
    · exact .inr ⟨data, old, rfl⟩
    · exact .inl rfl
  · intro region data found
    refine .inr (known_before_map Region.blocks after (fun region data => ?_) region data found)
    split <;> rfl
  · intro block data found
    rw [block_congr blocks] at found
    exact .inr ⟨data, found, fun op listed => listed⟩
  · intro outer into
    cases outer with
    | op _ => simp [contains_op] at into
    | region _ => simp [contains_region] at into
    | block block =>
      obtain ⟨data, op, found, listed, same⟩ := contains_block.mp into
      rw [block_congr blocks] at found
      obtain ⟨known, foundKnown, -⟩ := owned.recorded found listed
      cases same
      exact op_ne_next foundKnown rfl

/-- A new block closes no cycle, because regions list known blocks only. -/
theorem addBlock (acyclic : ctx.Acyclic) (owned : BlocksOwned ctx) {spec : BlockSpec}
    {block : BlockId} (added : ctx.addBlock spec = .ok (block, ctx')) : ctx'.Acyclic := by
  -- The new block contains something, but regions cannot list it yet.
  obtain ⟨rfl, -, -, after, tables⟩ := addBlock_eq_ok added
  have blocks : ctx'.blocks = ctx.blocks.push (ctx.newBlock spec) := by rw [tables]
  have regions : ctx'.regions = ctx.regions := by rw [tables]
  refine acyclic.of_unreached (contains_of_views (· = .block ⟨ctx.blocks.size⟩) ?_ ?_ ?_) ?_
  · intro op data found
    refine .inr (known_before_map (fun data => data.regions) after ?_ op data found)
    intro op data
    split <;> rfl
  · intro region data found
    rw [region_congr regions] at found
    exact .inr ⟨data, found, rfl⟩
  · intro block data found
    rcases (block_eq_ok_of_push blocks).mp found with old | ⟨rfl, -⟩
    · exact .inr ⟨data, old, fun op listed => listed⟩
    · exact .inl rfl
  · intro outer into
    cases outer with
    | op _ => simp [contains_op] at into
    | block _ => simp [contains_block] at into
    | region region =>
      obtain ⟨data, block, found, listed, same⟩ := contains_region.mp into
      rw [region_congr regions] at found
      obtain ⟨known, foundKnown, -⟩ := owned.recorded found listed
      cases same
      exact block_ne_next foundKnown rfl

/-- A new region closes no cycle, because operations list known regions only. -/
theorem addRegion (acyclic : ctx.Acyclic) (owned : RegionsOwned ctx) {data : Region}
    {region : RegionId} (added : ctx.addRegion data = .ok (region, ctx')) : ctx'.Acyclic := by
  -- The new region contains something, but operations cannot list it yet.
  obtain ⟨rfl, -, -, after, tables⟩ := addRegion_eq_ok added
  -- No operation is new, and of the regions only the last one is.
  have ops : ctx'.ops = ctx.ops := by rw [tables]
  have regions : ctx'.regions = ctx.regions.push data := by rw [tables]
  refine acyclic.of_unreached (contains_of_views (· = .region ⟨ctx.regions.size⟩) ?_ ?_ ?_) ?_
  -- The views of operations, regions and blocks are followed one by one.
  · intro op data found
    rw [op_congr ops] at found
    exact .inr ⟨data, found, rfl⟩
  · intro region data found
    rcases (region_eq_ok_of_push regions).mp found with old | ⟨rfl, -⟩
    · exact .inr ⟨data, old, rfl⟩
    · exact .inl rfl
  · intro block found known
    have kept (block : BlockId) (old : Block) :
        (if block ∈ data.blocks then { old with parentRegion := some ⟨ctx.regions.size⟩ }
          else old).ops = old.ops := by
      split <;> rfl
    obtain ⟨old, foundOld, same⟩ := known_before_map (fun data => data.ops) after kept _ _ known
    exact .inr ⟨old, foundOld, fun op listed => same ▸ listed⟩
  -- Only an operation lists regions, and it records regions that are known already.
  · intro outer into
    cases outer with
    | region _ => simp [contains_region] at into
    | block _ => simp [contains_block] at into
    | op op =>
      obtain ⟨data, region, found, listed, same⟩ := contains_op.mp into
      rw [op_congr ops] at found
      obtain ⟨known, foundKnown, -⟩ := owned.recorded found listed
      cases same
      exact region_ne_next foundKnown rfl

/-- Putting an operation into a block closes a cycle exactly when the block is inside it. -/
theorem place_iff (acyclic : ctx.Acyclic) {block : BlockId} {op : OpId} {target : Block}
    {front back : List OpId} (known : ctx.block block = .ok target)
    (split : target.ops = front ++ back) :
    (ctx.place block op (front ++ op :: back)).Acyclic ↔
      ¬ TransGen ctx.Contains (.op op) (.block block) := by
  have contains := @contains_place ctx block op target front back known split
  constructor
  · -- A way down to the block is still there, and now leads on to the operation.
    intro kept down
    have stays := fun outer inner old => (contains outer inner).mpr (.inl old)
    have last := (contains (.block block) (.op op)).mpr (.inr ⟨rfl, rfl⟩)
    exact kept op (TransGen.tail (TransGen.mono stays _ _ down) last)
  · -- A way round that uses the new step leads from the operation down to the block.
    intro apart other around
    have grown := fun outer inner => (contains outer inner).mp
    rcases transGen_or_of_step grown around with old | ⟨toBlock, fromOp⟩
    · exact acyclic other old
    · rcases reflTransGen_iff_eq_or_transGen.mp (fromOp.trans toBlock) with same | down
      · cases same
      · exact apart down

/-- Taking an operation out of a block closes no cycle. -/
theorem displace (acyclic : ctx.Acyclic) (block : BlockId) (op : OpId) :
    (ctx.displace block op).Acyclic := by
  -- The list of one block becomes shorter, and no other list changes.
  refine acyclic.mono fun outer inner contains => ?_
  refine (contains_of_views (fun _ => False) ?_ ?_ ?_ outer inner contains).resolve_right id
  · intro other data found
    exact .inr (known_before_map (fun data => data.regions) (op_displace block op)
      (fun _ _ => rfl) other data found)
  · exact fun region data found => .inr ⟨data, found, rfl⟩
  · intro other data found
    rw [block_displace, map_eq_ok] at found
    obtain ⟨old, foundOld, rfl⟩ := found
    refine .inr ⟨old, foundOld, fun member listed => ?_⟩
    split at listed
    · exact (List.mem_filter.mp listed).1
    · exact listed

/-- Of all requests but direct edits, exactly those that close a cycle end with one. -/
theorem iff_not_closes (acyclic : ctx.Acyclic) (ops : OpsOwned ctx) (regions : RegionsOwned ctx)
    (blocks : BlocksOwned ctx) {request : Request} (plain : request.isEdit = false)
    (change : Change ctx request ctx') : ctx'.Acyclic ↔ ¬ request.Closes ctx := by
  -- Only putting an operation into a block can close a cycle at all.
  have harmless (unattached : request.attachment? = none) (kept : ctx'.Acyclic) :
      ctx'.Acyclic ↔ ¬ request.Closes ctx := by
    refine ⟨fun _ closes => ?_, fun _ => kept⟩
    obtain ⟨block, op, asked, -⟩ := closes
    rw [unattached] at asked
    cases asked
  cases change with
  -- What is new contains only what no owner has listed before.
  | madeOp spec op asked added => exact harmless (asked ▸ rfl) (acyclic.addOp ops added)
  | madeBlock spec block asked added => exact harmless (asked ▸ rfl) (acyclic.addBlock blocks added)
  | madeRegion data region asked added =>
    exact harmless (asked ▸ rfl) (acyclic.addRegion regions added)
  | attached block op data target front back asked found free known split placed =>
    -- The request names the block and the operation that are brought together.
    rw [placed, acyclic.place_iff known split, Request.Closes, asked]
    simp only [Option.some.injEq, Prod.mk.injEq]
    refine not_congr ⟨fun down => ⟨block, op, ⟨rfl, rfl⟩, down⟩, fun closes => ?_⟩
    obtain ⟨block', op', ⟨rfl, rfl⟩, down⟩ := closes
    exact down
  | detached block op data target asked found known displaced =>
    -- What is taken out or rewritten leaves no more containment than there was.
    exact harmless (asked ▸ rfl) (displaced ▸ acyclic.displace block op)
  | rewritten change asked opsAfter kept results values blocksAfter regionsAfter =>
    refine harmless asked (acyclic.mono fun outer inner contains => ?_)
    refine (contains_of_views (fun _ => False) ?_ ?_ ?_ outer inner contains).resolve_right id
    · intro op data found
      refine .inr (known_before_map (fun data => data.regions) opsAfter ?_ op data found)
      intro op data
      obtain ⟨operands, same⟩ := kept plain op data
      rw [same]
    · intro region data found
      rw [region_congr regionsAfter] at found
      exact .inr ⟨data, found, rfl⟩
    · intro block data found
      rw [block_congr blocksAfter] at found
      exact .inr ⟨data, found, fun op listed => listed⟩

end Acyclic

end Context

end NestedIR
