import Mathlib.Data.List.Nodup
import NestedIR.Proofs.Context.Effect
import NestedIR.Proofs.Pass.Verification

/-! What an entity lists records that entity as its owner, and no other entity lists it. -/

namespace NestedIR

section Owned

variable {ο κ α β : Type} {holders holders' : ο → Except Fault α} {list : α → List κ}
  {members members' : κ → Except Fault β} {owner : β → Option ο}

/-- Every listed member is known and records its holder, and no list repeats a member. -/
structure Owned (holders : ο → Except Fault α) (list : α → List κ)
    (members : κ → Except Fault β) (owner : β → Option ο) : Prop where
  /-- A listed member records the holder that lists it. -/
  recorded : ∀ {holder data member}, holders holder = .ok data → member ∈ list data →
    ∃ owned, members member = .ok owned ∧ owner owned = some holder
  /-- No list repeats a member. -/
  nodup : ∀ {holder data}, holders holder = .ok data → (list data).Nodup

namespace Owned

/-- Nothing is lost while no list changes and no recorded owner does. -/
theorem mono (owned : Owned holders list members owner)
    (listed : ∀ holder data, holders' holder = .ok data →
      ∃ old, holders holder = .ok old ∧ list data = list old)
    (recorded : ∀ member old, members member = .ok old →
      ∃ data, members' member = .ok data ∧ owner data = owner old) :
    Owned holders' list members' owner where
  recorded {holder data member} found member_mem := by
    -- A listed member is looked up in the old program and its owner carried over.
    obtain ⟨old, foundOld, same⟩ := listed holder data found
    obtain ⟨before, foundBefore, owns⟩ := owned.recorded foundOld (same ▸ member_mem)
    obtain ⟨after, foundAfter, sameOwner⟩ := recorded member before foundBefore
    exact ⟨after, foundAfter, sameOwner.trans owns⟩
  nodup {holder data} found := by
    obtain ⟨old, foundOld, same⟩ := listed holder data found
    exact same ▸ owned.nodup foundOld

/-- A new holder may list distinct members that were free and record it from then on. -/
theorem claim [DecidableEq κ] (owned : Owned holders list members owner) {new : ο} {made : α}
    {own : β → β} (owns : ∀ data, owner (own data) = some new)
    (pushed : ∀ holder data, holders' holder = .ok data →
      holders holder = .ok data ∨ holder = new ∧ data = made)
    (distinct : (list made).Nodup)
    (free : ∀ member ∈ list made, ∃ data, members member = .ok data ∧ owner data = none)
    (after : ∀ member, members' member =
      (members member).map fun data => if member ∈ list made then own data else data) :
    Owned holders' list members' owner where
  recorded {holder data member} found listed := by
    rcases pushed holder data found with known | ⟨rfl, rfl⟩
    · -- What was listed before had an owner, so it is not among the free members.
      obtain ⟨before, foundBefore, recorded⟩ := owned.recorded known listed
      have apart : member ∉ list made := by
        intro claimed
        obtain ⟨data, foundFree, isFree⟩ := free member claimed
        rw [foundBefore] at foundFree
        cases foundFree
        rw [recorded] at isFree
        cases isFree
      exact ⟨before, by rw [after, foundBefore]; simp [Except.map, apart], recorded⟩
    · obtain ⟨before, foundBefore, -⟩ := free member listed
      exact ⟨own before, by rw [after, foundBefore]; simp [Except.map, listed], owns before⟩
  nodup {holder data} found := by
    rcases pushed holder data found with known | ⟨rfl, rfl⟩
    · exact owned.nodup known
    · exact distinct

/-- A listed member is listed once among the members of all holders together. -/
theorem count_eq_one [DecidableEq κ] (owned : Owned holders list members owner) (name : Nat → ο)
    {table : Array α} (apart : ∀ place other, name place = name other → place = other)
    (filled : ∀ place data, holders (name place) = .ok data ↔ table[place]? = some data)
    {place : Nat} {data : α} {member : κ} (found : holders (name place) = .ok data)
    (listed : member ∈ list data) : (table.toList.flatMap list).count member = 1 := by
  have known {index : Nat} (inside : index < table.toList.length) :
      holders (name index) = .ok table.toList[index] :=
    (filled index _).mpr (by simp_all)
  refine List.count_eq_one_of_mem (List.nodup_flatMap.mpr ⟨?_, ?_⟩) ?_
  · intro data stored
    obtain ⟨index, inside, rfl⟩ := List.mem_iff_getElem.mp stored
    exact owned.nodup (known inside)
  · -- Two holders of one member would both be its recorded owner.
    refine List.pairwise_iff_getElem.mpr fun first second inside insideToo order => ?_
    intro shared inFirst inSecond
    obtain ⟨data, foundFirst, ownsFirst⟩ := owned.recorded (known inside) inFirst
    obtain ⟨same, foundSecond, ownsSecond⟩ := owned.recorded (known insideToo) inSecond
    rw [foundFirst] at foundSecond
    cases foundSecond
    rw [ownsFirst] at ownsSecond
    have := apart first second (Option.some.inj ownsSecond)
    omega
  · have stored := (filled place data).mp found
    exact List.mem_flatMap.mpr ⟨data, by simpa using Array.mem_of_getElem? stored, listed⟩

end Owned

end Owned

namespace Context

variable {ctx ctx' : Context} {request : Request}

/-- The blocks that a region lists record that region. -/
def BlocksOwned (ctx : Context) : Prop :=
  Owned ctx.region Region.blocks ctx.block fun data => data.parentRegion

/-- The regions that an operation lists record that operation. -/
def RegionsOwned (ctx : Context) : Prop :=
  Owned ctx.op (fun data => data.regions) ctx.region Region.parentOp

/-- The operations that a block lists are those that record that block. -/
structure OpsOwned (ctx : Context) : Prop extends
    Owned ctx.block (fun data => data.ops) ctx.op fun data => data.parentBlock where
  /-- An operation is listed by the block that it records. -/
  listed : ∀ {op data block}, ctx.op op = .ok data → data.parentBlock = some block →
    ∃ target, ctx.block block = .ok target ∧ op ∈ target.ops

/-- The blocks of regions stay owned through every request, direct edits included. -/
theorem BlocksOwned.step (owned : BlocksOwned ctx) (change : Change ctx request ctx') :
    BlocksOwned ctx' := by
  -- Only a new region lists blocks, and all other requests keep recorded owners.
  cases change with
  -- Making an operation or a block adds no list of blocks.
  | madeOp spec op asked added =>
    obtain ⟨-, -, -, -, after, tables⟩ := addOp_eq_ok added
    have blocks : ctx'.blocks = ctx.blocks := by rw [tables]
    refine owned.mono (known_before_map _ after ?_) fun block old found => ?_
    · intro region data
      split <;> rfl
    · exact ⟨old, by rw [block_congr blocks, found], rfl⟩
  | madeBlock spec block asked added =>
    obtain ⟨rfl, -, -, -, tables⟩ := addBlock_eq_ok added
    have blocks : ctx'.blocks = ctx.blocks.push (ctx.newBlock spec) := by rw [tables]
    have regions : ctx'.regions = ctx.regions := by rw [tables]
    refine owned.mono (fun region data found => ?_) fun other old found => ?_
    · exact ⟨data, by rw [← region_congr regions, found], rfl⟩
    · exact ⟨old, (block_eq_ok_of_push blocks).mpr (.inl found), rfl⟩
  | madeRegion data region asked added =>
    obtain ⟨rfl, distinct, free, after, tables⟩ := addRegion_eq_ok added
    have regions : ctx'.regions = ctx.regions.push data := by rw [tables]
    -- A new region claims the blocks that it lists, which were free.
    exact owned.claim (fun _ => rfl)
      (fun other old found => (region_eq_ok_of_push regions).mp found) distinct free after
  | attached block op data target front back asked found free known split placed =>
    subst placed
    refine owned.mono (fun region data found => ⟨data, found, rfl⟩)
      -- Attaching and detaching change the lists of operations, and not the owners of blocks.
      (known_after_map _ (fun other => block_place block other op _) fun other data => ?_)
    split <;> rfl
  | detached block op data target asked found known displaced =>
    subst displaced
    refine owned.mono (fun region data found => ⟨data, found, rfl⟩)
      (known_after_map _ (fun other => block_displace block other op) fun other data => ?_)
    split <;> rfl
  | rewritten change asked ops kept results values blocks regions =>
    refine owned.mono (fun region data found => ?_) fun block old found => ?_
    · exact ⟨data, by rw [← region_congr regions, found], rfl⟩
    · exact ⟨old, by rw [block_congr blocks, found], rfl⟩

/-- The regions of operations stay owned through every request but a direct edit. -/
theorem RegionsOwned.step (owned : RegionsOwned ctx) (change : Change ctx request ctx')
    (plain : request.isEdit = false) : RegionsOwned ctx' := by
  -- Only a new operation lists regions, and all other requests keep recorded owners.
  cases change with
  | madeOp spec op asked added =>
    obtain ⟨rfl, -, distinct, free, after, tables⟩ := addOp_eq_ok added
    have ops : ctx'.ops = ctx.ops.push (ctx.newOp spec) := by rw [tables]
    -- A new operation claims the regions that it lists, which were free.
    exact owned.claim (fun _ => rfl) (fun other old found => (op_eq_ok_of_push ops).mp found)
      distinct free after
  | madeBlock spec block asked added =>
    obtain ⟨-, -, -, after, tables⟩ := addBlock_eq_ok added
    have regions : ctx'.regions = ctx.regions := by rw [tables]
    -- Making a block or a region adds no list of regions.
    refine owned.mono (known_before_map _ after ?_) fun region old found => ?_
    · intro op data
      split <;> rfl
    · exact ⟨old, by rw [region_congr regions, found], rfl⟩
  | madeRegion data region asked added =>
    obtain ⟨rfl, -, -, -, tables⟩ := addRegion_eq_ok added
    have ops : ctx'.ops = ctx.ops := by rw [tables]
    have regions : ctx'.regions = ctx.regions.push data := by rw [tables]
    refine owned.mono (fun op data found => ?_) fun other old found => ?_
    · exact ⟨data, by rw [← op_congr ops, found], rfl⟩
    · exact ⟨old, (region_eq_ok_of_push regions).mpr (.inl found), rfl⟩
  | attached block op data target front back asked found free known split placed =>
    subst placed
    -- Attaching and detaching change the block that an operation records, and not its regions.
    refine owned.mono (known_before_map _ (fun other => op_place block op other _) ?_)
      fun region old found => ⟨old, found, rfl⟩
    intro other data
    split <;> rfl
  | detached block op data target asked found known displaced =>
    subst displaced
    exact owned.mono
      (known_before_map _ (fun other => op_displace block op other) fun _ _ => rfl)
      fun region old found => ⟨old, found, rfl⟩
  | rewritten change asked ops kept results values blocks regions =>
    -- A rewrite that is no edit changes operands only.
    refine owned.mono (known_before_map _ ops fun op data => ?_) fun region old found => ?_
    · obtain ⟨operands, same⟩ := kept plain op data
      rw [same]
    · exact ⟨old, by rw [region_congr regions, found], rfl⟩

namespace OpsOwned

/-- A free operation is in no list. -/
theorem not_mem_of_free (owned : OpsOwned ctx) {op : OpId} {data : Operation} {block : BlockId}
    {target : Block} (found : ctx.op op = .ok data) (free : data.parentBlock = none)
    (known : ctx.block block = .ok target) : op ∉ target.ops := by
  -- A list that had the operation would be its recorded owner.
  intro member
  obtain ⟨same, foundSame, records⟩ := owned.recorded known member
  rw [found] at foundSame
  cases foundSame
  rw [free] at records
  cases records

/-- Owners and lists still agree after a free operation is put between others of a block. -/
theorem place (owned : OpsOwned ctx) {block : BlockId} {op : OpId} {data : Operation}
    {target : Block} {front back : List OpId} (found : ctx.op op = .ok data)
    (free : data.parentBlock = none) (known : ctx.block block = .ok target)
    (split : target.ops = front ++ back) : OpsOwned (ctx.place block op (front ++ op :: back)) := by
  -- The operation was in no list, so every member of a list is another one than it.
  have absent {other : BlockId} {old : Block} (knownOld : ctx.block other = .ok old) :
      op ∉ old.ops := owned.not_mem_of_free found free knownOld
  have kept {member : OpId} {old : Operation} (differs : member ≠ op)
      (foundOld : ctx.op member = .ok old) :
      (ctx.place block op (front ++ op :: back)).op member = .ok old := by
    rw [op_place, foundOld]
    simp [Except.map, differs]
  refine ⟨⟨?_, ?_⟩, ?_⟩
  -- Every listed member records its block, which for the operation is the one that it was put into.
  · intro holder after member foundAfter listed
    rw [block_place, map_eq_ok] at foundAfter
    obtain ⟨old, knownOld, rfl⟩ := foundAfter
    by_cases here : holder = block
    · subst here
      rw [knownOld] at known
      cases known
      by_cases same : member = op
      · subst same
        refine ⟨{ data with parentBlock := some holder }, ?_, rfl⟩
        rw [op_place, found]
        simp [Except.map]
      · have listedOld : member ∈ target.ops := by
          rw [split]
          simpa [same] using listed
        obtain ⟨before, foundBefore, records⟩ := owned.recorded knownOld listedOld
        exact ⟨before, kept same foundBefore, records⟩
    · simp only [here, if_false] at listed
      obtain ⟨before, foundBefore, records⟩ := owned.recorded knownOld listed
      exact ⟨before, kept (fun same => absent knownOld (same ▸ listed)) foundBefore, records⟩
  -- No list has the operation twice, as it was in none.
  · intro holder after foundAfter
    rw [block_place, map_eq_ok] at foundAfter
    obtain ⟨old, knownOld, rfl⟩ := foundAfter
    by_cases here : holder = block
    · subst here
      have distinct := owned.nodup known
      rw [split] at distinct
      have outside := absent known
      rw [split] at outside
      simpa [List.nodup_middle] using ⟨by simpa using outside, distinct⟩
    · simpa [here] using owned.nodup knownOld
  -- Every recorded block lists what records it.
  · intro member after holder foundAfter records
    rw [op_place, map_eq_ok] at foundAfter
    obtain ⟨old, foundOld, rfl⟩ := foundAfter
    by_cases same : member = op
    · subst same
      simp only [if_true, Option.some.injEq] at records
      subst records
      refine ⟨{ target with ops := front ++ member :: back }, ?_, by simp⟩
      rw [block_place, known]
      simp [Except.map]
    · simp only [same, if_false] at records
      obtain ⟨before, knownBefore, listed⟩ := owned.listed foundOld records
      by_cases here : holder = block
      · subst here
        rw [knownBefore] at known
        cases known
        refine ⟨{ target with ops := front ++ op :: back }, ?_, ?_⟩
        · rw [block_place, knownBefore]
          simp [Except.map]
        · rw [split] at listed
          simpa [same] using listed
      · refine ⟨before, ?_, listed⟩
        rw [block_place, knownBefore]
        simp [Except.map, here]

/-- Owners and lists still agree after an operation is taken out of a block. -/
theorem displace (owned : OpsOwned ctx) (block : BlockId) (op : OpId) :
    OpsOwned (ctx.displace block op) := by
  refine ⟨⟨?_, ?_⟩, ?_⟩
  · intro holder after member foundAfter listed
    rw [block_displace, map_eq_ok] at foundAfter
    obtain ⟨old, knownOld, rfl⟩ := foundAfter
    -- A remaining member is another operation, or another block lists it.
    have remains : member ∈ old.ops ∧ (member = op → holder ≠ block) := by
      by_cases here : holder = block
      · simpa [here, and_comm] using listed
      · simpa [here] using listed
    obtain ⟨before, foundBefore, records⟩ := owned.recorded knownOld remains.1
    refine ⟨before, ?_, records⟩
    have kept : ¬ (member = op ∧ before.parentBlock = some block) := by
      intro freed
      rw [records] at freed
      exact remains.2 freed.1 (Option.some.inj freed.2)
    rw [op_displace, foundBefore]
    simp only [Except.map, if_neg kept]
  -- A list without an operation is still without repetition.
  · intro holder after foundAfter
    rw [block_displace, map_eq_ok] at foundAfter
    obtain ⟨old, knownOld, rfl⟩ := foundAfter
    have distinct := owned.nodup knownOld
    split
    · exact distinct.filter _
    · exact distinct
  · intro member after holder foundAfter records
    rw [op_displace, map_eq_ok] at foundAfter
    obtain ⟨old, foundOld, rfl⟩ := foundAfter
    -- What still records a block recorded it before, and is not the one taken out of it.
    have recorded : old.parentBlock = some holder ∧ (member = op → holder ≠ block) := by
      by_cases same : member = op
      · by_cases owner : old.parentBlock = some block
        · simp [same, owner] at records
        · simp only [same, owner, and_false, if_false] at records
          refine ⟨records, fun _ here => owner ?_⟩
          rw [records, here]
      · exact ⟨by simpa [same] using records, fun again => absurd again same⟩
    obtain ⟨before, knownBefore, listed⟩ := owned.listed foundOld recorded.1
    have found := @block_displace ctx block holder op
    rw [knownBefore] at found
    refine ⟨_, found, ?_⟩
    by_cases here : holder = block
    · have other : member ≠ op := fun same => recorded.2 same here
      simpa [here, other] using listed
    · simpa [here] using listed

/-- The operations of blocks stay owned through every request but a direct edit. -/
theorem step (owned : OpsOwned ctx) (change : Change ctx request ctx')
    (plain : request.isEdit = false) : OpsOwned ctx' := by
  cases change with
  -- A new operation is listed nowhere and records nothing.
  | madeOp spec op asked added =>
    obtain ⟨rfl, unattached, -, -, -, tables⟩ := addOp_eq_ok added
    have ops : ctx'.ops = ctx.ops.push (ctx.newOp spec) := by rw [tables]
    have blocks : ctx'.blocks = ctx.blocks := by rw [tables]
    refine ⟨owned.mono (fun block data found => ?_) fun op old found => ?_, ?_⟩
    · exact ⟨data, by rw [← block_congr blocks, found], rfl⟩
    · exact ⟨old, (op_eq_ok_of_push ops).mpr (.inl found), rfl⟩
    · intro op data block found records
      rcases (op_eq_ok_of_push ops).mp found with known | ⟨rfl, rfl⟩
      · rw [block_congr blocks]
        exact owned.listed known records
      · -- A new operation is in no block.
        cases unattached.symm.trans records
  | madeBlock spec block asked added =>
    -- A new block lists operations that were free, and these record it now.
    obtain ⟨rfl, distinct, free, after, tables⟩ := addBlock_eq_ok added
    have blocks : ctx'.blocks = ctx.blocks.push (ctx.newBlock spec) := by rw [tables]
    refine ⟨owned.claim (fun _ => rfl)
      (fun other old found => (block_eq_ok_of_push blocks).mp found) distinct free after, ?_⟩
    intro op data block found records
    rw [after, map_eq_ok] at found
    obtain ⟨old, foundOld, rfl⟩ := found
    by_cases claimed : op ∈ spec.ops
    · simp only [claimed, if_true, Option.some.injEq] at records
      subst records
      exact ⟨ctx.newBlock spec, (block_eq_ok_of_push blocks).mpr (.inr ⟨rfl, rfl⟩), claimed⟩
    · simp only [claimed, if_false] at records
      obtain ⟨target, known, listed⟩ := owned.listed foundOld records
      exact ⟨target, (block_eq_ok_of_push blocks).mpr (.inl known), listed⟩
  | madeRegion data region asked added =>
    -- A new region changes what blocks record, and not what they list.
    obtain ⟨-, -, -, after, tables⟩ := addRegion_eq_ok added
    have ops : ctx'.ops = ctx.ops := by rw [tables]
    have sameList (block : BlockId) (old : Block) :
        (if block ∈ data.blocks then { old with parentRegion := some region } else old).ops =
          old.ops := by
      split <;> rfl
    refine ⟨owned.mono (known_before_map _ after sameList) fun op old found => ?_, ?_⟩
    · exact ⟨old, by rw [op_congr ops, found], rfl⟩
    · intro op data block found records
      rw [op_congr ops] at found
      obtain ⟨target, known, listed⟩ := owned.listed found records
      obtain ⟨target', known', same⟩ :=
        known_after_map (fun data => data.ops) after sameList block target known
      exact ⟨target', known', same ▸ listed⟩
  | attached block op data target front back asked found free known split placed =>
    exact placed ▸ owned.place found free known split
  | detached block op data target asked found known displaced =>
    exact displaced ▸ owned.displace block op
  | rewritten change asked ops kept results values blocks regions =>
    -- A rewrite that is no edit leaves the recorded block alone.
    have sameOwner (op : OpId) (data : Operation) :
        (change op data).parentBlock = data.parentBlock := by
      obtain ⟨operands, same⟩ := kept plain op data
      rw [same]
    refine ⟨owned.mono (fun block data found => ?_) (known_after_map _ ops sameOwner), ?_⟩
    · exact ⟨data, by rw [← block_congr blocks, found], rfl⟩
    · intro op data block found records
      rw [block_congr blocks]
      obtain ⟨old, foundOld, same⟩ :=
        known_before_map (fun data => data.parentBlock) ops sameOwner op data found
      exact owned.listed foundOld (same.symm.trans records)

end OpsOwned

/-- What requests build from nothing lists blocks that record their regions. -/
theorem BlocksOwned.of_build {requests : List Request} (built : build requests = .ok ctx) :
    BlocksOwned ctx := by
  -- Nothing lists a block at the start, and no request breaks the rule.
  refine performAll_induction (motive := fun _ ctx => BlocksOwned ctx) ?_ ?_ built
  · exact ⟨by simp [Context.region], by simp [Context.region]⟩
  · intro requests mid request ctx' owned done
    exact owned.step (change_of_perform done)

/-- What requests without direct edits build from nothing agrees on the owners of operations. -/
theorem owned_of_build {requests : List Request}
    (plain : ∀ request ∈ requests, request.isEdit = false) (built : build requests = .ok ctx) :
    OpsOwned ctx ∧ RegionsOwned ctx := by
  -- Both facts hold of nothing, and no request but a direct edit breaks one.
  refine performAll_induction (motive := fun requests ctx =>
    (∀ request ∈ requests, request.isEdit = false) → OpsOwned ctx ∧ RegionsOwned ctx) ?_ ?_
    built plain
  · refine fun _ => ⟨⟨⟨?_, ?_⟩, ?_⟩, ⟨?_, ?_⟩⟩ <;> simp [Context.block, Context.op]
  · intro requests mid request ctx' owned done plain
    have earlier := owned fun request member => plain request (by simp [member])
    have last := plain request (by simp)
    have change := change_of_perform done
    exact ⟨earlier.1.step change last, earlier.2.step change last⟩

/--
After any requests without direct edits, a block lists an operation exactly when the operation
records it, and what an operation lists records that operation. Blocks of regions record them also
after direct edits, so that verification never finds another owner. Nothing is listed twice.
-/
theorem ownership_of_build {requests : List Request} {ctx : Context}
    (built : build requests = .ok ctx) :
    ((∀ request ∈ requests, request.isEdit = false) →
      (∀ block op, (∃ data, ctx.block block = .ok data ∧ op ∈ data.ops) ↔
        ∃ data, ctx.op op = .ok data ∧ data.parentBlock = some block) ∧
      (∀ block data op, ctx.block block = .ok data → op ∈ data.ops → data.ops.count op = 1) ∧
      ∀ op data region, ctx.op op = .ok data → region ∈ data.regions →
        (∃ owned, ctx.region region = .ok owned ∧ owned.parentOp = some op) ∧
          (ctx.ops.toList.flatMap (·.regions)).count region = 1) ∧
    (∀ region data block, ctx.region region = .ok data → block ∈ data.blocks →
      (∃ owned, ctx.block block = .ok owned ∧ owned.parentRegion = some region) ∧
        (ctx.regions.toList.flatMap (·.blocks)).count block = 1) ∧
    ∀ root found, Verification.violations ctx root = .ok found →
      ∀ region block recorded, .blockParent region block recorded ∉ found := by
  have blocks := BlocksOwned.of_build built
  refine ⟨fun plain => ?_, ?_, ?_⟩
  -- Without edits, lists and owners agree on operations and on regions.
  · obtain ⟨ops, regions⟩ := owned_of_build plain built
    refine ⟨fun block op => ⟨?_, ?_⟩, ?_, ?_⟩
    · intro listing
      obtain ⟨data, found, listed⟩ := listing
      exact ops.recorded found listed
    · intro recording
      obtain ⟨data, found, records⟩ := recording
      exact ops.listed found records
    · intro block data op found listed
      exact List.count_eq_one_of_mem (ops.nodup found) listed
    · intro op data region found listed
      refine ⟨regions.recorded found listed, ?_⟩
      exact regions.count_eq_one OpId.mk (by simp) (fun _ _ => op_eq_ok_iff) found listed
  · intro region data block found listed
    refine ⟨blocks.recorded found listed, ?_⟩
    exact blocks.count_eq_one RegionId.mk (by simp) (fun _ _ => region_eq_ok_iff) found listed
  · intro root found checked region block recorded member
    -- Only the rule for blocks could report a block, and every block records its region.
    refine Verification.forall_of_checkBelow
      (fun violation => ∀ region block recorded, violation ≠ .blockParent region block recorded)
      ?_ ?_ ?_ checked _ member region block recorded rfl
    · intro op region data known region' block recorded
      simp
    · intro region data block owned known listed knownBlock other
      obtain ⟨same, foundSame, records⟩ := blocks.recorded known listed
      rw [knownBlock] at foundSame
      cases foundSame
      exact absurd records other
    · intro region blocks block isLast op data known violation broken region' block' recorded same
      subst same
      simp [Verification.checkPlace, Verification.mem_require] at broken

/-- Requests that put a loop in front of an operation and then that operation into the loop. -/
def movedIntoLoop : List Request :=
  [.addBlock {}, .addBlock {}, .addRegion { blocks := [⟨0⟩], parentOp := none },
    .addOp { name := .bare "loop", regions := [⟨0⟩] }, .addOp { name := .bare "body" },
    .appendOp ⟨1⟩ ⟨1⟩, .insertOp ⟨1⟩ ⟨1⟩ ⟨0⟩, .detachOp ⟨1⟩ ⟨1⟩, .appendOp ⟨0⟩ ⟨1⟩]

/-- Owners and lists agree after the operation has moved, and everything is listed once. -/
theorem ownership_of_build_movedIntoLoop :
    (∀ request ∈ movedIntoLoop, request.isEdit = false) ∧
      ∃ ctx, build movedIntoLoop = .ok ctx ∧
        ((∃ data, ctx.block ⟨0⟩ = .ok data ∧ ⟨1⟩ ∈ data.ops) ↔
          ∃ data, ctx.op ⟨1⟩ = .ok data ∧ data.parentBlock = some ⟨0⟩) ∧
        (∀ op data, ctx.op op = .ok data → ⟨0⟩ ∈ data.regions →
          (ctx.ops.toList.flatMap (·.regions)).count ⟨0⟩ = 1) ∧
        (∀ region data, ctx.region region = .ok data → ⟨0⟩ ∈ data.blocks →
          (ctx.regions.toList.flatMap (·.blocks)).count ⟨0⟩ = 1) ∧
        ∀ root found, Verification.violations ctx root = .ok found →
          ∀ region block recorded, .blockParent region block recorded ∉ found := by
  -- The requests are carried out, and none of them is an edit.
  obtain ⟨ctx, built⟩ : ∃ ctx, build movedIntoLoop = .ok ctx := ⟨_, rfl⟩
  have plain : ∀ request ∈ movedIntoLoop, request.isEdit = false := by decide
  -- What holds after any such requests holds of the block, the region and the operations here.
  obtain ⟨tree, blocks, verified⟩ := ownership_of_build built
  obtain ⟨ops, -, regions⟩ := tree plain
  exact ⟨plain, ctx, built, ops ⟨0⟩ ⟨1⟩,
    fun op data found listed => (regions op data ⟨0⟩ found listed).2,
    fun region data found listed => (blocks region data ⟨0⟩ found listed).2, verified⟩

end Context

end NestedIR
