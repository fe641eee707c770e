import NestedIR.Proofs.Pass.Elimination
import NestedIR.Proofs.Pass.Schedule

/-! One sweep erases all that is dead in the end, if users stand behind what they use. -/

namespace NestedIR

open Relation

namespace DeadCode

variable {ctx mid last : Context} {covered : OpId → Prop} {gone : List OpId}

/-- A sweep goes through all blocks below its root, or only through those of its regions. -/
def Sweeps (ctx : Context) (recursive : Bool) (root : OpId) (block : BlockId) : Prop :=
  if recursive then TransGen ctx.Contains (.op root) (.block block) else ctx.Encloses root block

/-- What a sweep covers is in the blocks that it goes through. -/
theorem covers_iff {recursive : Bool} {root op : OpId} :
    Covers ctx recursive root op ↔
      ∃ block, Sweeps ctx recursive root block ∧ ctx.Contains (.block block) (.op op) := by
  -- A sweep stays in the blocks of the root, or goes through all that are nested in it.
  cases recursive with
  | false => exact Iff.rfl
  | true =>
    constructor
    -- The last block on the way to the operation is the one that it is swept in.
    · intro inside
      obtain ⟨outer, nested, block, encloses, contains⟩ :=
        TransGen.tail'_iff.mp (Context.transGen_nests_iff.mpr inside)
      have path := Context.reflTransGen_of_nests nested
      exact ⟨block, TransGen.trans_right path encloses.transGen, contains⟩
    · intro inside
      obtain ⟨block, path, contains⟩ := inside
      exact TransGen.tail path contains

/--
Where a sweep covers a pure operation, the uses of its results below the root stand behind it, or
are inside an operation that does.
-/
def UsersBehind (ctx : Context) (recursive : Bool) (root : OpId) : Prop :=
  ∀ op data value use, Covers ctx recursive root op → ctx.op op = .ok data →
    data.isPure = true → value ∈ data.results → use ∈ ctx.usesOf value →
      TransGen ctx.Contains (.op root) (.op use.user) → ctx.Precedes op use.user

/-- Whether all uses of results are listed behind the definition or below what is listed there. -/
def listsUsersBehind (ctx : Context) : Bool :=
  ctx.ops.toList.zipIdx.all fun (data, place) => data.results.all fun value =>
    (ctx.usesOf value).all fun use => ctx.blocks.toList.any fun block => block.ops.any fun anchor =>
      [⟨place⟩, anchor].isSublist block.ops &&
        (ctx.preorder (.op anchor)).toOption.any fun listing => .op use.user ∈ listing

/-- Users that are listed behind what they use stand behind it for every sweep. -/
theorem usersBehind_of_lists (checked : listsUsersBehind ctx = true) (recursive : Bool)
    (root : OpId) : UsersBehind ctx recursive root := by
  intro op data value use _ found _ inResults listed _
  -- The check was made for the operation, each result and each use.
  have stored := List.all_eq_true.mp checked _ (Context.mem_zipIdx_of_op found)
  have behind := List.all_eq_true.mp (List.all_eq_true.mp stored value inResults) use listed
  obtain ⟨block, inBlocks, anchored⟩ := List.any_eq_true.mp behind
  obtain ⟨anchor, -, both⟩ := List.any_eq_true.mp anchored
  obtain ⟨inFront, reached⟩ := Bool.and_eq_true_iff.mp both
  -- A listing in which the user was found shows that the anchor leads to it.
  obtain ⟨listing, made, member⟩ : ∃ listing, ctx.preorder (.op anchor) = .ok listing ∧
      Entity.op use.user ∈ listing := by
    cases made : ctx.preorder (.op anchor) with
    | error fault => simp [made, Except.toOption] at reached
    | ok listing => exact ⟨listing, rfl, by simpa [made, Except.toOption] using reached⟩
  obtain ⟨place, foundBlock⟩ := List.mem_iff_getElem?.mp inBlocks
  exact ⟨⟨place⟩, block, anchor, Context.block_eq_ok_iff.mpr (by simpa using foundBlock),
    List.isSublist_iff_sublist.mp inFront, (Context.mem_preorderWithin_iff made).mp member⟩

/-- An operation has to stay when it is not pure, or when what is not gone uses it. -/
def Stays (ctx : Context) (gone : List OpId) (op : OpId) : Prop :=
  ∃ data, ctx.op op = .ok data ∧ (data.isPure = true →
    ∃ value ∈ data.results, ∃ use ∈ ctx.usesOf value, use.user ∉ gone)

/-- A pure operation may be tried before a later one only if the later one does not use it. -/
structure MayFollow (ctx : Context) (op later : OpId) : Prop where
  /-- No operation is tried twice. -/
  ne : op ≠ later
  /-- The later one does not use what the other one could be erased without. -/
  unused : ∀ data value use, ctx.op op = .ok data → data.isPure = true → value ∈ data.results →
    use ∈ ctx.usesOf value → use.user ≠ later

/--
A sweep that settles some operations for good, if none of them is gone already.

Each of them is erased, or has to stay.
-/
def Settles (ctx : Context) (covered part : OpId → Prop) (sweep : Sweep) : Prop :=
  ∀ gone mid count last, Collected ctx covered gone mid → (∀ op ∈ gone, ¬ part op) →
    sweep mid = .ok (count, last) →
      ∃ more, count = more.length ∧ Collected ctx covered (gone ++ more) last ∧
        (∀ op ∈ more, part op) ∧ ∀ op, part op → op ∈ more ∨ Stays ctx (gone ++ more) op

section Settle

variable {part first second : OpId → Prop}

/-- Doing nothing settles nothing. -/
theorem Settles.idle : Settles ctx covered (fun _ => False) Sweep.idle := by
  intro gone mid count last collected _ done
  cases done
  exact ⟨[], rfl, by simpa using collected, by simp, by simp⟩

/-- Sweeps that settle the same operations may be described in different ways. -/
theorem Settles.congr {sweep : Sweep} (settles : Settles ctx covered first sweep)
    (same : ∀ op, first op ↔ second op) : Settles ctx covered second sweep := by
  obtain rfl : first = second := funext fun op => propext (same op)
  exact settles

/-- What stays after one sweep stays after the next one, if what that one tries may follow. -/
theorem Settles.andThen {sweep next : Sweep} (settles : Settles ctx covered first sweep)
    (settlesNext : Settles ctx covered second next)
    (inTurn : ∀ op later, first op → second later → MayFollow ctx op later) :
    Settles ctx covered (fun op => first op ∨ second op) (sweep.andThen next) := by
  intro gone mid count last collected apart done
  obtain ⟨⟨few, between⟩, ran, rest⟩ := bind_eq_ok.mp done
  obtain ⟨⟨others, final⟩, ranNext, made⟩ := bind_eq_ok.mp rest
  cases made
  obtain ⟨early, counted, collectedBetween, inFirst, settled⟩ :=
    settles gone mid few between collected (fun op inGone is => apart op inGone (.inl is)) ran
  obtain ⟨late, countedNext, collectedLast, inSecond, settledNext⟩ :=
    settlesNext (gone ++ early) between others last collectedBetween (fun op inGone is => by
      rcases List.mem_append.mp inGone with old | new
      · exact apart op old (.inr is)
      · exact (inTurn op op (inFirst op new) is).ne rfl) ranNext
  rw [List.append_assoc] at collectedLast settledNext
  refine ⟨early ++ late, by rw [List.length_append, counted, countedNext], collectedLast,
    fun op member => (List.mem_append.mp member).imp (inFirst op) (inSecond op), fun op is => ?_⟩
  rcases is with isFirst | isSecond
  · rcases settled op isFirst with erased | ⟨data, found, uses⟩
    · exact .inl (List.mem_append_left _ erased)
    · -- What uses the operation is not erased by the next sweep either.
      refine .inr ⟨data, found, fun isPure => ?_⟩
      obtain ⟨value, inResults, use, listed, stays⟩ := uses isPure
      refine ⟨value, inResults, use, listed, fun inGone => ?_⟩
      rw [← List.append_assoc, List.mem_append] at inGone
      have erased := inSecond use.user (inGone.resolve_left stays)
      have follows := inTurn op use.user isFirst erased
      exact follows.unused data value use found isPure inResults listed rfl
  · exact (settledNext op isSecond).imp (List.mem_append_right _) id

/-- Sweeps for the items of a list settle together what each of them settles. -/
theorem Settles.each {α : Type} {step : α → Sweep} {parts : α → OpId → Prop} {items : List α}
    (settles : ∀ item ∈ items, Settles ctx covered (parts item) (step item))
    (inTurn : items.Pairwise fun item other =>
      ∀ op later, parts item op → parts other later → MayFollow ctx op later) :
    Settles ctx covered (fun op => ∃ item ∈ items, parts item op) (Sweep.each step items) := by
  -- What the first item settles is settled before the others come, which only follow it.
  induction items with
  | nil => exact Settles.idle.congr fun op => by simp
  | cons item rest ih =>
    obtain ⟨inTurnItem, inTurnRest⟩ := List.pairwise_cons.mp inTurn
    have later := ih (fun other member => settles other (by simp [member])) inTurnRest
    refine ((settles item (by simp)).andThen later fun op later isItem isLater => ?_).congr
      fun op => by simp
    obtain ⟨other, member, isOther⟩ := isLater
    exact inTurnItem other member op later isItem isOther

end Settle

/-- A block from which nothing is gone is as it was at first. -/
theorem Collected.block_eq (collected : Collected ctx covered gone mid) {block : BlockId}
    {data : Block} (found : mid.block block = .ok data)
    (apart : ∀ op ∈ gone, ¬ ctx.Contains (.block block) (.op op)) :
    ctx.block block = .ok data := by
  -- The block lists what it listed without what is gone, and nothing of that is gone.
  rw [collected.erases.block_eq] at found
  obtain ⟨old, foundOld, rfl⟩ := map_eq_ok.mp found
  have kept : old.ops.filter (· ∉ gone) = old.ops := by
    refine List.filter_eq_self.mpr fun op listed => decide_eq_true fun inGone => ?_
    exact apart op inGone (Context.contains_block.mpr ⟨old, op, foundOld, listed, rfl⟩)
  rw [kept]
  exact foundOld

section Block

variable {block : BlockId} {op : OpId} (consistent : Consistent ctx) (owned : ctx.OpsOwned)
include consistent owned

/-- An operation of a block is settled when it is tried. -/
theorem Settles.eraseIfDead (contains : ctx.Contains (.block block) (.op op)) (among : covered op) :
    Settles ctx covered (· = op) (DeadCode.eraseIfDead block op).counted := by
  intro gone mid count last collected apart done
  obtain ⟨⟨applied, tried⟩, attempted, made⟩ := bind_eq_ok.mp done
  cases made
  have fresh : op ∉ gone := fun inGone => apart op inGone rfl
  cases applied with
  | true =>
    have containsMid := collected.erases.contains_block_iff.mpr ⟨contains, fresh⟩
    exact ⟨[op], rfl, collected.eraseIfDead consistent owned containsMid among attempted, by simp,
      fun other same => .inl (by simp [same])⟩
  | false =>
    obtain ⟨rfl, data, found, alive⟩ := eraseIfDead_eq_false_iff.mp attempted
    refine ⟨[], rfl, by simpa using collected, by simp, fun other same => .inr ?_⟩
    subst same
    obtain ⟨old, foundOld, rfl⟩ := collected.erases.op_before found
    rw [if_neg fresh] at alive
    -- A pure operation that is not dead has a use left in some chain.
    refine ⟨old, foundOld, fun isPure => ?_⟩
    obtain ⟨value, inResults, used⟩ : ∃ value ∈ old.results, last.usesOf value ≠ [] := by
      simpa [Context.isDead, Context.isUsed, isPure] using alive
    obtain ⟨use, left⟩ := List.exists_mem_of_ne_nil _ used
    rw [collected.erases.usesOf_eq, List.mem_filter] at left
    exact ⟨value, inResults, use, left.1, by simpa using left.2⟩

/-- The operations of a block are settled from its end, if later ones use earlier ones only. -/
theorem Settles.eachOpBackward
    (among : ∀ op, ctx.Contains (.block block) (.op op) → covered op)
    (inTurn : ∀ data, ctx.block block = .ok data → data.ops.reverse.Pairwise (MayFollow ctx)) :
    Settles ctx covered (fun op => ctx.Contains (.block block) (.op op))
      (Sweep.eachOpBackward (fun op => (DeadCode.eraseIfDead block op).counted) block) := by
  intro gone mid count last collected apart done
  obtain ⟨data, found, swept⟩ := bind_eq_ok.mp done
  -- Nothing of the block is gone yet, so that the sweep comes to what it listed at first.
  have foundOld := collected.block_eq found apart
  have contains (op : OpId) : ctx.Contains (.block block) (.op op) ↔ op ∈ data.ops := by
    simp [Context.contains_block, foundOld]
  have settles : Settles ctx covered (fun op => ∃ item ∈ data.ops.reverse, op = item)
      -- Each operation is tried alone, and those behind it have been tried before.
      (Sweep.each (fun op => (DeadCode.eraseIfDead block op).counted) data.ops.reverse) := by
    refine Settles.each (fun op listed => ?_) ((inTurn data foundOld).imp ?_)
    · have inBlock := (contains op).mpr (List.mem_reverse.mp listed)
      exact .eraseIfDead consistent owned inBlock (among op inBlock)
    · rintro first second follows op later rfl rfl
      exact follows
  exact (settles.congr fun op => by simp [contains]) gone mid count last collected apart swept

/-- A block is settled with what is nested in it, if that is tried before the block itself. -/
theorem Settles.sweepBlock {step : OpId → Sweep} (parts : OpId → OpId → Prop)
    (settles : ∀ op, ctx.Contains (.block block) (.op op) →
      Settles ctx covered (parts op) (step op))
    (among : ∀ op, ctx.Contains (.block block) (.op op) → covered op)
    (inTurn : ∀ data, ctx.block block = .ok data → data.ops.reverse.Pairwise (MayFollow ctx) ∧
      data.ops.Pairwise fun item other =>
        ∀ op later, parts item op → parts other later → MayFollow ctx op later)
    (inward : ∀ item op later, ctx.Contains (.block block) (.op item) → parts item op →
      ctx.Contains (.block block) (.op later) → MayFollow ctx op later) :
    Settles ctx covered
      (fun op => (∃ item, ctx.Contains (.block block) (.op item) ∧ parts item op) ∨
        ctx.Contains (.block block) (.op op))
      ((Sweep.eachOp step block).andThen
        (Sweep.eachOpBackward (fun op => (DeadCode.eraseIfDead block op).counted) block)) := by
  intro gone mid count last collected apart done
  obtain ⟨⟨few, between⟩, ran, rest⟩ := bind_eq_ok.mp done
  obtain ⟨data, found, swept⟩ := bind_eq_ok.mp ran
  have foundOld := collected.block_eq found fun op inGone is => apart op inGone (.inr is)
  have contains (op : OpId) : ctx.Contains (.block block) (.op op) ↔ op ∈ data.ops := by
    simp [Context.contains_block, foundOld]
  -- Nothing is gone from the block yet, so that its operations are those listed at first.
  have nested : Settles ctx covered (fun op => ∃ item ∈ data.ops, parts item op)
      (Sweep.each step data.ops) :=
    .each (fun op listed => settles op ((contains op).mpr listed)) (inTurn data foundOld).2
  have backward := Settles.eachOpBackward consistent owned among fun data found =>
    (inTurn data found).1
  have both := nested.andThen backward fun op later isNested inBlock => by
    obtain ⟨item, listed, isPart⟩ := isNested
    exact inward item op later ((contains item).mpr listed) isPart inBlock
  exact (both.congr fun op => by simp [contains]) gone mid count last collected apart
    (bind_eq_ok.mpr ⟨(few, between), swept, rest⟩)

end Block

/-- What is a part of some block of a region. -/
def PartOf (ctx : Context) (parts : BlockId → OpId → Prop) (region : RegionId) (op : OpId) : Prop :=
  ∃ block, ctx.Contains (.region region) (.block block) ∧ parts block op

/-- The blocks of an operation are settled one after the other, if they are tried in their turns. -/
theorem Settles.eachBlock {step : BlockId → Sweep} (parts : BlockId → OpId → Prop) {op : OpId}
    (settles : ∀ block, ctx.Encloses op block → Settles ctx covered (parts block) (step block))
    (inTurn : ∀ data, ctx.op op = .ok data → data.regions.Pairwise fun region other =>
      ∀ op later, PartOf ctx parts region op → PartOf ctx parts other later →
        MayFollow ctx op later)
    (inTurnBlocks : ∀ region listed, ctx.Contains (.op op) (.region region) →
      ctx.region region = .ok listed → listed.blocks.Pairwise fun block other =>
        ∀ op later, parts block op → parts other later → MayFollow ctx op later) :
    Settles ctx covered (fun inner => ∃ block, ctx.Encloses op block ∧ parts block inner)
      (Sweep.eachBlock step op) := by
  intro gone mid count last collected apart done
  obtain ⟨data, found, swept⟩ := bind_eq_ok.mp done
  -- The regions and blocks are the same at all times.
  obtain ⟨old, foundOld, same⟩ := collected.erases.op_before found
  have regions : data.regions = old.regions := by
    rw [same]
    split <;> rfl
  rw [regions] at swept
  have toRegion (region : RegionId) :
      ctx.Contains (.op op) (.region region) ↔ region ∈ old.regions := by
    simp [Context.contains_op, foundOld]
  have region (region : RegionId) (inRegions : region ∈ old.regions) :
      Settles ctx covered (PartOf ctx parts region)
        fun ctx => ctx.region region >>= fun listed => Sweep.each step listed.blocks ctx := by
    intro gone mid count last collected apart done
    obtain ⟨listed, known, swept⟩ := bind_eq_ok.mp done
    rw [Context.region_congr collected.erases.regions_eq] at known
    have toBlock (block : BlockId) :
        ctx.Contains (.region region) (.block block) ↔ block ∈ listed.blocks := by
      simp [Context.contains_region, known]
    have settlesBlocks := Settles.each (fun block (inBlocks : block ∈ listed.blocks) =>
      settles block ⟨region, (toRegion region).mpr inRegions, (toBlock block).mpr inBlocks⟩)
      (inTurnBlocks region listed ((toRegion region).mpr inRegions) known)
    exact (settlesBlocks.congr fun op => by simp [PartOf, toBlock]) gone mid count last collected
      apart swept
  -- What is in a block of a region is what the operation encloses.
  refine ((Settles.each region (inTurn old foundOld)).congr fun inner => ?_) gone mid count last
    collected apart swept
  constructor
  · rintro ⟨region, inRegions, block, toBlock, isPart⟩
    exact ⟨block, ⟨region, (toRegion region).mpr inRegions, toBlock⟩, isPart⟩
  · rintro ⟨block, ⟨region, isRegion, toBlock⟩, isPart⟩
    exact ⟨region, (toRegion region).mp isRegion, block, toBlock, isPart⟩

/-- In a block, a sweep covers its operations, and everything inside them if that is swept too. -/
def CoversIn (ctx : Context) (recursive : Bool) (block : BlockId) (op : OpId) : Prop :=
  if recursive then TransGen ctx.Contains (.block block) (.op op)
  else ctx.Contains (.block block) (.op op)

section Cover

variable {recursive : Bool} {root op inner : OpId} {block : BlockId}

/-- What is covered in a block is inside it. -/
theorem CoversIn.transGen (covers : CoversIn ctx recursive block op) :
    TransGen ctx.Contains (.block block) (.op op) := by
  cases recursive with
  | false => exact .single covers
  | true => exact covers

/-- The operations of a block are covered in it. -/
theorem CoversIn.of_contains (contains : ctx.Contains (.block block) (.op op)) :
    CoversIn ctx recursive block op := by
  cases recursive with
  | false => exact contains
  | true => exact .single contains

/-- What a sweep of an operation covers is covered in one of its blocks. -/
theorem covers_iff_coversIn :
    Covers ctx recursive op inner ↔
      ∃ block, ctx.Encloses op block ∧ CoversIn ctx recursive block inner := by
  -- A sweep stays among the operations of the block, or goes through all that are nested in them.
  cases recursive with
  | false => exact Iff.rfl
  | true =>
    constructor
    -- The first block on the way to the operation is one of the root operation.
    · intro inside
      obtain ⟨mid, ⟨block, encloses, contains⟩, path⟩ :=
        TransGen.head'_iff.mp (Context.transGen_nests_iff.mpr inside)
      exact ⟨block, encloses, TransGen.head' contains (Context.reflTransGen_of_nests path)⟩
    · intro inside
      obtain ⟨block, encloses, path⟩ := inside
      exact encloses.transGen.trans path

/-- What is inside a block is one of its operations or inside one of them. -/
theorem transGen_block_iff :
    TransGen ctx.Contains (.block block) (.op op) ↔
      (∃ item, ctx.Contains (.block block) (.op item) ∧ TransGen ctx.Contains (.op item) (.op op)) ∨
        ctx.Contains (.block block) (.op op) := by
  constructor
  -- The first step of the way is into one of the operations.
  · intro inside
    obtain ⟨member, contains, path⟩ := TransGen.head'_iff.mp inside
    obtain ⟨data, item, -, -, rfl⟩ := Context.contains_block.mp contains
    rcases reflTransGen_iff_eq_or_transGen.mp path with same | deeper
    · cases same
      exact .inr contains
    · exact .inl ⟨item, contains, deeper⟩
  · rintro (⟨item, contains, deeper⟩ | contains)
    · exact .head contains deeper
    · exact .single contains

/-- What a sweep of the root comes to covers nothing else than the root does. -/
theorem Covers.of_below
    (below : op = root ∨ recursive = true ∧ TransGen ctx.Contains (.op root) (.op op))
    (covers : Covers ctx recursive op inner) : Covers ctx recursive root inner := by
  rcases below with rfl | ⟨rfl, path⟩
  · exact covers
  · exact path.trans covers

end Cover

section Order

variable {discarded : OpId → Prop} {recursive : Bool} {root op later : OpId} {depth : Nat}

/-- What is below the root and does not stand behind an operation may be tried later. -/
theorem MayFollow.of_not_precedes (behind : UsersBehind ctx recursive root)
    (among : Covers ctx recursive root op) (below : TransGen ctx.Contains (.op root) (.op later))
    (ne : op ≠ later) (inFront : ¬ ctx.Precedes op later) : MayFollow ctx op later where
  ne := ne
  unused data value use found isPure inResults listed same := by
    subst same
    exact inFront (behind op data value use among found isPure inResults listed below)

variable (sound : Sound discarded ctx) (behind : UsersBehind ctx recursive root)
include sound behind

/-- What is inside one entity may be tried before what is inside another one, if they are apart. -/
theorem MayFollow.of_apart {first second : Entity} (apart : ctx.Apart first second)
    (inFirst : TransGen ctx.Contains first (.op op))
    (inSecond : ReflTransGen ctx.Contains second (.op later))
    (among : Covers ctx recursive root op)
    (below : TransGen ctx.Contains (.op root) (.op later)) : MayFollow ctx op later := by
  refine .of_not_precedes behind among below (fun same => ?_) fun before => ?_
  · exact apart _ inFirst.to_reflTransGen (same ▸ inSecond)
  · exact apart _ (before.inside sound inFirst).to_reflTransGen inSecond

/-- What is inside the members of an entity may be tried member by member. -/
theorem MayFollow.pairwise {α : Type} {wrap : α → Entity} {entity : Entity} {items : List α}
    {parts : α → OpId → Prop} (fits : ctx.Fits depth entity)
    (known : ctx.members entity = .ok (items.map wrap))
    (inside : ∀ item ∈ items, ∀ op, parts item op →
      TransGen ctx.Contains (wrap item) (.op op) ∧ Covers ctx recursive root op) :
    items.Pairwise fun item other =>
      ∀ op later, parts item op → parts other later → MayFollow ctx op later := by
  -- Members are apart from each other, and what is apart comes in the order of the listing.
  refine (List.pairwise_map.mp (Context.pairwise_members sound fits known)).imp_of_mem ?_
  intro item other inItems inItemsToo apart op later isPart isPartToo
  obtain ⟨inItem, among⟩ := inside item inItems op isPart
  obtain ⟨inOther, amongToo⟩ := inside other inItemsToo later isPartToo
  exact .of_apart sound behind apart inItem inOther.to_reflTransGen among amongToo.transGen

variable {block : BlockId} (fits : ctx.Fits depth (.block block))
include fits

/-- What is inside an operation of a block may be tried before every operation of the block. -/
theorem MayFollow.of_inside {item : OpId} (holds : ctx.Contains (.block block) (.op item))
    (inside : TransGen ctx.Contains (.op item) (.op op))
    (holdsLater : ctx.Contains (.block block) (.op later)) (among : Covers ctx recursive root op)
    (below : TransGen ctx.Contains (.op root) (.op later)) : MayFollow ctx op later := by
  by_cases same : later = item
  · -- What stands behind something inside an operation is inside that operation too.
    subst same
    have acyclic := (fits.inner holds).not_transGen
    refine .of_not_precedes behind among below ?_ fun before => acyclic (before.inside sound inside)
    rintro rfl
    exact acyclic inside
  · refine .of_apart sound behind (fun inner down path => same ?_) inside .refl among below
    exact (Entity.op.inj (sound.eq_of_common fits holds holdsLater down path)).symm

/-- The operations of a block may be tried from the last one to the first one. -/
theorem MayFollow.pairwise_reverse {data : Block} (found : ctx.block block = .ok data)
    (among : ∀ op, ctx.Contains (.block block) (.op op) → Covers ctx recursive root op) :
    data.ops.reverse.Pairwise (MayFollow ctx) := by
  have known : ctx.members (.block block) = .ok (data.ops.map .op) :=
    bind_eq_ok.mpr ⟨data, found, rfl⟩
  have covered {op : OpId} (listed : op ∈ data.ops) : Covers ctx recursive root op :=
    among op (Context.contains_block.mpr ⟨data, op, found, listed, rfl⟩)
  -- Of two operations, the later one, which may use the other, is tried first.
  refine List.pairwise_reverse.mpr
    (List.pairwise_iff_forall_sublist.mpr fun {first second} sub => ?_)
  have inFront : [Entity.op first, .op second].Sublist (ctx.listed (.block block)) := by
    rw [Context.listed_eq known]
    exact sub.map Entity.op
  have ordered := Context.mayComeFirst_of_members sound fits inFront .refl .refl
  exact .of_not_precedes behind (covered (sub.subset (by simp)))
    (covered (sub.subset (by simp))).transGen ordered.ne.symm ordered.inOrder

end Order

section Sweep

variable {discarded : OpId → Prop} {recursive : Bool} {root : OpId} (sound : Sound discarded ctx)
  (behind : UsersBehind ctx recursive root)
include sound behind

/-- A block is settled with all that is covered in it, if what is nested in its operations is. -/
theorem Settles.inBlock {depth : Nat} {block : BlockId} {step : OpId → Sweep}
    (fits : ctx.Fits depth (.block block))
    (covers : ∀ op, CoversIn ctx recursive block op → Covers ctx recursive root op)
    (settles : recursive = true → ∀ op, ctx.Contains (.block block) (.op op) →
      Settles ctx (Covers ctx recursive root)
        (fun inner => TransGen ctx.Contains (.op op) (.op inner)) (step op)) :
    Settles ctx (Covers ctx recursive root) (CoversIn ctx recursive block)
      ((if recursive then Sweep.eachOp step block else Sweep.idle).andThen
        (Sweep.eachOpBackward (fun op => (DeadCode.eraseIfDead block op).counted) block)) := by
  -- The operations themselves are tried from the last one to the first one, after what is in them.
  have among (op : OpId) (contains : ctx.Contains (.block block) (.op op)) :
      Covers ctx recursive root op := covers op (.of_contains contains)
  have backward (data : Block) (found : ctx.block block = .ok data) :=
    MayFollow.pairwise_reverse sound behind fits found among
  cases recursive with
  -- Without nesting there is nothing in front of that.
  | false =>
    have own := Settles.eachOpBackward sound.consistent sound.ops among backward
    exact (Settles.idle.andThen own fun _ _ impossible => impossible.elim).congr
      fun inner => iff_of_eq (false_or _)
  | true =>
    -- What is nested in an operation is swept with it, before the block is.
    have nested {item inner : OpId} (contains : ctx.Contains (.block block) (.op item))
        (inside : TransGen ctx.Contains (.op item) (.op inner)) : Covers ctx true root inner :=
      covers inner (TransGen.head contains inside)
    refine (Settles.sweepBlock sound.consistent sound.ops
      (fun item inner => TransGen ctx.Contains (.op item) (.op inner)) (settles rfl) among
      (fun data found => ⟨backward data found, ?_⟩) ?_).congr fun inner => transGen_block_iff.symm
    · refine MayFollow.pairwise sound behind fits (bind_eq_ok.mpr ⟨data, found, rfl⟩) ?_
      intro item listed inner inside
      have contains := Context.contains_block.mpr ⟨data, item, found, listed, rfl⟩
      exact ⟨inside, nested contains inside⟩
    · intro item inner later contains inside containsLater
      exact .of_inside sound behind fits contains inside containsLater (nested contains inside)
        (among later containsLater).transGen

/-- A sweep of the root, or of what is inside it, settles everything that it covers. -/
theorem Settles.sweepBelow {op : OpId} (fits : ctx.Fits ctx.depthBound (.op root))
    (below : op = root ∨ recursive = true ∧ TransGen ctx.Contains (.op root) (.op op))
    (depth : Nat) :
    Settles ctx (Covers ctx recursive root) (Covers ctx recursive op)
      (DeadCode.sweepBelow recursive depth op) := by
  -- A sweep of the blocks goes one level down, where the sweeps of what is nested settle the rest.
  induction depth generalizing op with
  | zero => exact fun _ _ _ _ _ _ done => nomatch done
  | succ depth ih =>
    have reaches : ReflTransGen ctx.Contains (.op root) (.op op) := by
      rcases below with rfl | ⟨-, path⟩
      · exact .refl
      · exact path.to_reflTransGen
    have covers {block : BlockId} (encloses : ctx.Encloses op block) (inner : OpId)
        (inBlock : CoversIn ctx recursive block inner) : Covers ctx recursive root inner :=
      .of_below below (covers_iff_coversIn.mpr ⟨block, encloses, inBlock⟩)
    refine (Settles.eachBlock (CoversIn ctx recursive) (fun block encloses => ?_) ?_ ?_).congr
      fun inner => covers_iff_coversIn.symm
    -- A block is settled when what is nested in its operations is.
    · have fitsBlock := fits.of_reaches (reaches.trans encloses.transGen.to_reflTransGen)
      refine .inBlock sound behind fitsBlock (covers encloses) fun swept item contains => ?_
      have among := covers encloses item (.of_contains contains)
      subst swept
      exact ih (.inr ⟨rfl, among⟩)
    · intro data found
      -- The regions of the operation come one after the other.
      refine MayFollow.pairwise sound behind (fits.of_reaches reaches)
        (bind_eq_ok.mpr ⟨data, found, rfl⟩) ?_
      rintro region listed inner ⟨block, toBlock, inBlock⟩
      have toRegion := Context.contains_op.mpr ⟨data, region, found, listed, rfl⟩
      have among := covers ⟨region, toRegion, toBlock⟩ inner inBlock
      exact ⟨TransGen.head toBlock inBlock.transGen, among⟩
    · intro region data toRegion found
      -- So do the blocks of a region.
      refine MayFollow.pairwise sound behind (fits.of_reaches (reaches.tail toRegion))
        (bind_eq_ok.mpr ⟨data, found, rfl⟩) fun block listed inner inBlock => ?_
      have toBlock := Context.contains_region.mpr ⟨data, block, found, listed, rfl⟩
      exact ⟨inBlock.transGen, covers ⟨region, toRegion, toBlock⟩ inner inBlock⟩

end Sweep

/-- What had to stay is there and not dead when other operations have been erased. -/
theorem Stays.alive {op : OpId} (must : Stays ctx gone op) (erases : Erases gone ctx mid)
    (stays : op ∉ gone) : ∃ data, mid.op op = .ok data ∧ mid.isDead data = false := by
  obtain ⟨data, found, uses⟩ := must
  refine ⟨data, by rw [erases.op_eq, found]; simp [Except.map, stays], ?_⟩
  refine Bool.not_eq_true _ ▸ fun dead => ?_
  -- The use that keeps the operation is still in its chain.
  obtain ⟨isPure, unused⟩ := Context.isDead_iff.mp dead
  obtain ⟨value, inResults, use, listed, userStays⟩ := uses isPure
  have left : use ∈ mid.usesOf value := by
    rw [erases.usesOf_eq]
    exact List.mem_filter.mpr ⟨listed, decide_eq_true userStays⟩
  have none : mid.usesOf value = [] := by simpa [Context.isUsed] using unused value inResults
  rw [none] at left
  cases left

/-- What is covered after an erasure was covered before, and is not gone. -/
theorem Covers.before_erased {recursive : Bool} {root op : OpId}
    (covers : Covers mid recursive root op) (erases : Erases gone ctx mid) :
    Covers ctx recursive root op ∧ op ∉ gone := by
  -- Sweeps go along nesting, and an erasure only takes from what is nested.
  cases recursive with
  | false => exact erases.nests_iff.mp covers
  | true =>
    have path := Context.transGen_nests_iff.mpr covers
    obtain ⟨outer, -, nests⟩ := TransGen.tail'_iff.mp path
    refine ⟨Context.transGen_nests_iff.mp ?_, (erases.nests_iff.mp nests).2⟩
    exact TransGen.mono (fun _ _ nests => (erases.nests_iff.mp nests).1) _ _ path

/-- Elimination ends with the sweep after one that leaves nothing to do. -/
theorem exists_eliminated_of_rests {config : Config} {root : OpId} {count : Nat}
    (enough : 2 ≤ config.maxIterations) (swept : sweep config root ctx = .ok (count, mid))
    (rests : (sweep config root).Rests mid) :
    ∃ result, eliminate config root ctx = .ok (result, mid) ∧ result.reachedFixpoint = true ∧
      result.iterations ≤ 2 ∧ result.removed = count := by
  obtain ⟨more, room⟩ : ∃ more, max config.maxIterations 1 = more + 1 + 1 :=
    ⟨config.maxIterations - 2, by omega⟩
  rw [eliminate, room]
  by_cases none : count = 0
  · -- Without anything to erase, the first sweep is the last one.
    subst none
    exact ⟨⟨0, 1, true⟩, bind_eq_ok.mpr ⟨_, swept, rfl⟩, rfl, by decide, rfl⟩
  · refine ⟨⟨0 + count, 2, true⟩, bind_eq_ok.mpr ⟨_, swept, ?_⟩, rfl, Nat.le_refl _,
      Nat.zero_add _⟩
    dsimp only
    rw [if_neg none]
    exact bind_eq_ok.mpr ⟨_, rests, rfl⟩

/--
One sweep erases all that is dead in the end, in all the blocks that it goes through, if the uses of
what it may erase stand behind that. With a second sweep, which finds nothing to do, elimination
reaches a fixpoint.
-/
theorem eliminate_of_usersBehind {requests : List Request} {ctx : Context}
    (plain : ∀ request ∈ requests, request.isEdit = false)
    (built : Context.build requests = .ok ctx) {root : OpId} {rootData : Operation}
    (known : ctx.op root = .ok rootData) (acyclic : ctx.AcyclicBelow (.op root)) (config : Config)
    (behind : UsersBehind ctx config.recursive root) (enough : 2 ≤ config.maxIterations) :
    ∃ count result mid, sweep config root ctx = .ok (count, mid) ∧
      eliminate config root ctx = .ok (result, mid) ∧ result.reachedFixpoint = true ∧
      result.iterations ≤ 2 ∧ result.removed = count ∧
      ∀ block op, Sweeps ctx config.recursive root block → mid.Contains (.block block) (.op op) →
        ∃ data, mid.op op = .ok data ∧ mid.isDead data = false := by
  -- The sweep comes to an answer, as nothing that it asks for is missing.
  have sound := Sound.of_build plain built
  have fits := Context.fits_of_build plain built known acyclic
  obtain ⟨count, mid, swept, rewrites⟩ :
      ∃ count mid, sweep config root ctx = .ok (count, mid) ∧
        Rewrites (ctx.Within root) ctx mid := by
    have meets : Meets (fun _ => False) (ctx.Within root) ctx (sweep config root ctx) :=
      Meets.sweepBelow (.inr ⟨fits, sound.ops.ownedBelow root⟩)
    exact meets.exists_ok
  -- Everything that the sweep covers is settled, which means that it is gone or alive at the end.
  obtain ⟨gone, -, collected, -, settled⟩ := Settles.sweepBelow sound behind fits (.inl rfl)
    ctx.depthBound [] ctx count mid (.start ctx _) (by simp) swept
  rw [List.nil_append] at collected settled
  have alive (op : OpId) (covers : Covers ctx config.recursive root op) (stays : op ∉ gone) :
      ∃ data, mid.op op = .ok data ∧ mid.isDead data = false :=
    ((settled op covers).resolve_left stays).alive collected.erases stays
  -- What is alive is not erased by a second sweep either.
  have rests : (sweep config root).Rests mid := by
    have fitsMid := (rewrites.evolves.fits fits).mono rewrites.evolves.depthBound_le
    refine (rests_sweep_iff fitsMid).mpr fun op covers => ?_
    obtain ⟨before, stays⟩ := covers.before_erased collected.erases
    exact alive op before stays
  -- In the blocks, there is nothing but what is covered and has stayed.
  have blocks : ∀ block op, Sweeps ctx config.recursive root block →
      mid.Contains (.block block) (.op op) →
        ∃ data, mid.op op = .ok data ∧ mid.isDead data = false := by
    intro block op sweeps contains
    obtain ⟨before, stays⟩ := collected.erases.contains_block_iff.mp contains
    exact alive op (covers_iff.mpr ⟨block, sweeps, before⟩) stays
  obtain ⟨result, done, fixpoint, few, removed⟩ := exists_eliminated_of_rests enough swept rests
  exact ⟨count, result, mid, swept, done, fixpoint, few, removed, blocks⟩

/-- Requests that make a number, its sum with itself, and a loop that adds the sum to itself. -/
def sumInLoop : List Request :=
  [.internType (.integer 32),
    .addOp { name := OpKind.constant.opName, resultTypes := [⟨0⟩] },
    .addOp { name := OpKind.addi.opName, operands := [⟨0⟩, ⟨0⟩], resultTypes := [⟨0⟩] },
    .addOp { name := OpKind.addi.opName, operands := [⟨1⟩, ⟨1⟩], resultTypes := [⟨0⟩] },
    .addBlock { ops := [⟨2⟩] }, .addRegion { blocks := [⟨0⟩] },
    .addOp { name := .bare "loop", regions := [⟨0⟩] },
    .addBlock { ops := [⟨0⟩, ⟨1⟩, ⟨3⟩] }, .addRegion { blocks := [⟨1⟩] },
    .addOp { name := OpKind.func.opName, regions := [⟨1⟩] }]

/-- The number and both sums go in one sweep, as the loop is swept before the block around it. -/
theorem eliminate_of_usersBehind_sumInLoop :
    (∀ request ∈ sumInLoop, request.isEdit = false) ∧ ∃ ctx,
      Context.build sumInLoop = .ok ctx ∧ (∃ data, ctx.op ⟨4⟩ = .ok data) ∧
      ctx.AcyclicBelow (.op ⟨4⟩) ∧ UsersBehind ctx true ⟨4⟩ ∧
      ∃ mid, sweep {} ⟨4⟩ ctx = .ok (3, mid) ∧ eliminate {} ⟨4⟩ ctx = .ok (⟨3, 2, true⟩, mid) ∧
        ∀ block op, Sweeps ctx true ⟨4⟩ block → mid.Contains (.block block) (.op op) →
          ∃ data, mid.op op = .ok data ∧ mid.isDead data = false := by
  -- Everything that is about fixed numbers is computed in one go, to look at the program only once.
  have evaluated : (Context.build sumInLoop >>= fun ctx => ctx.op ⟨4⟩ >>= fun _ =>
      ctx.preorder (.op ⟨4⟩) >>= fun _ => sweep {} ⟨4⟩ ctx >>= fun swept =>
        (eliminate {} ⟨4⟩ ctx).map fun answer => (swept.1, answer.1, listsUsersBehind ctx)) =
      .ok (3, ⟨3, 2, true⟩, true) := by decide +kernel
  obtain ⟨ctx, built, evaluated⟩ := bind_eq_ok.mp evaluated
  obtain ⟨rootData, known, evaluated⟩ := bind_eq_ok.mp evaluated
  obtain ⟨listing, listed, evaluated⟩ := bind_eq_ok.mp evaluated
  obtain ⟨⟨count, mid⟩, swept, evaluated⟩ := bind_eq_ok.mp evaluated
  obtain ⟨⟨result, last⟩, done, made⟩ := map_eq_ok.mp evaluated
  simp only [Prod.mk.injEq] at made
  obtain ⟨rfl, rfl, checked⟩ := made
  -- The users were checked together with the rest, which leaves the theorem to show what is alive.
  have plain : ∀ request ∈ sumInLoop, request.isEdit = false := by decide
  have acyclic := (Context.preorder_ok_iff.mp ⟨listing, listed⟩).2
  have behind := usersBehind_of_lists checked true ⟨4⟩
  obtain ⟨count, result, mid, sweptToo, doneToo, -, -, -, alive⟩ :=
    eliminate_of_usersBehind plain built known acyclic {} behind (by decide)
  cases swept.symm.trans sweptToo
  cases done.symm.trans doneToo
  exact ⟨plain, ctx, built, ⟨rootData, known⟩, acyclic, behind, mid, swept, done, alive⟩

end DeadCode

end NestedIR
