import NestedIR.Proofs.Pass.Places

/-! A sweep that counts nothing has changed nothing, and found nothing to do anywhere. -/

namespace NestedIR

open Relation

namespace Sweep

variable {α δ : Type} {ctx ctx' : Context} {first second : Sweep}

/-- A sweep is at rest on a program when it finds nothing to do there. -/
def Rests (sweep : Sweep) (ctx : Context) : Prop := sweep ctx = .ok (0, ctx)

/-- A sweep is honest when it changes nothing unless it counts something. -/
def Honest (sweep : Sweep) : Prop := ∀ ctx ctx', sweep ctx = .ok (0, ctx') → ctx' = ctx

/-- Doing nothing is honest. -/
theorem honest_idle : idle.Honest := by
  intro ctx ctx' done
  cases done
  rfl

/-- Two sweeps together count nothing exactly when neither does. -/
theorem andThen_eq_zero_iff :
    first.andThen second ctx = .ok (0, ctx') ↔
      ∃ mid, first ctx = .ok (0, mid) ∧ second mid = .ok (0, ctx') := by
  -- The counts are added up.
  constructor
  · intro done
    obtain ⟨⟨count, mid⟩, ran, rest⟩ := bind_eq_ok.mp done
    obtain ⟨⟨more, last⟩, ranToo, made⟩ := bind_eq_ok.mp rest
    obtain ⟨total, same⟩ := Prod.ext_iff.mp (Except.ok.inj made)
    obtain ⟨none, noneToo⟩ : count = 0 ∧ more = 0 := Nat.add_eq_zero_iff.mp total
    cases same
    exact ⟨mid, none ▸ ran, noneToo ▸ ranToo⟩
  · intro both
    obtain ⟨mid, ran, ranToo⟩ := both
    exact bind_eq_ok.mpr ⟨_, ran, bind_eq_ok.mpr ⟨_, ranToo, rfl⟩⟩

/-- Two honest sweeps one after the other are honest. -/
theorem Honest.andThen (honest : first.Honest) (honestToo : second.Honest) :
    (first.andThen second).Honest := by
  intro ctx ctx' done
  obtain ⟨mid, ran, ranToo⟩ := andThen_eq_zero_iff.mp done
  exact (honestToo mid ctx' ranToo).trans (honest ctx mid ran)

/-- Two sweeps one after the other are at rest exactly when both are. -/
theorem rests_andThen_iff (honest : first.Honest) :
    (first.andThen second).Rests ctx ↔ first.Rests ctx ∧ second.Rests ctx := by
  rw [Rests, andThen_eq_zero_iff]
  constructor
  · intro both
    obtain ⟨mid, ran, ranToo⟩ := both
    -- The second sweep started from the program itself.
    cases honest ctx mid ran
    exact ⟨ran, ranToo⟩
  · exact fun both => ⟨ctx, both⟩

/-- A lookup before an honest sweep is honest. -/
theorem Honest.lookup {find : Context → Except Fault δ} {next : δ → Sweep}
    (honest : ∀ data, (next data).Honest) : Honest fun ctx => find ctx >>= (next · ctx) := by
  intro ctx ctx' done
  obtain ⟨data, -, ran⟩ := bind_eq_ok.mp done
  exact honest data ctx ctx' ran

/-- Honest sweeps for the items of a list are honest. -/
theorem Honest.each {step : α → Sweep} (honest : ∀ item, (step item).Honest) (items : List α) :
    (Sweep.each step items).Honest := by
  induction items with
  | nil => exact honest_idle
  | cons first rest ih => exact (honest first).andThen ih

/-- Sweeps for the items of a list are at rest exactly when each of them is. -/
theorem rests_each_iff {step : α → Sweep} (honest : ∀ item, (step item).Honest)
    {items : List α} :
    (each step items).Rests ctx ↔ ∀ item ∈ items, (step item).Rests ctx := by
  induction items with
  | nil => exact iff_of_true rfl (by simp)
  | cons first rest ih =>
    rw [List.forall_mem_cons, ← ih]
    exact rests_andThen_iff (honest first)

/-- Honest sweeps for the blocks of an operation are honest. -/
theorem Honest.eachBlock {step : BlockId → Sweep} (honest : ∀ block, (step block).Honest)
    (op : OpId) : (Sweep.eachBlock step op).Honest :=
  .lookup fun data =>
    .each (fun _ => .lookup fun listed : Region => .each honest listed.blocks) data.regions

/-- Sweeps for the blocks of an operation that fits are at rest exactly when each of them is. -/
theorem rests_eachBlock_iff {step : BlockId → Sweep} (honest : ∀ block, (step block).Honest)
    {depth : Nat} {op : OpId} (fits : ctx.Fits depth (.op op)) :
    (eachBlock step op).Rests ctx ↔ ∀ block, ctx.Encloses op block → (step block).Rests ctx := by
  -- A region must be known for its blocks to be swept.
  have inRegion (region : RegionId) : Honest fun ctx =>
      ctx.region region >>= fun listed => each step listed.blocks ctx :=
    .lookup fun listed => .each honest listed.blocks
  have opened : (eachBlock step op).Rests ctx ↔ ∃ data, ctx.op op = .ok data ∧
      ∀ region ∈ data.regions, ∃ listed, ctx.region region = .ok listed ∧
        ∀ block ∈ listed.blocks, (step block).Rests ctx := by
    refine bind_eq_ok.trans (exists_congr fun data => and_congr_right fun _ => ?_)
    refine (rests_each_iff inRegion).trans (forall₂_congr fun region _ => ?_)
    refine bind_eq_ok.trans (exists_congr fun listed => and_congr_right fun _ => ?_)
    exact rests_each_iff honest
  rw [opened]
  -- The blocks of known regions are those that the operation encloses.
  constructor
  · intro rest block encloses
    obtain ⟨data, found, regions⟩ := rest
    obtain ⟨region, toRegion, toBlock⟩ := encloses
    obtain ⟨_, _, foundToo, inRegions, same⟩ := Context.contains_op.mp toRegion
    cases same
    cases found.symm.trans foundToo
    obtain ⟨listed, known, blocks⟩ := regions region inRegions
    obtain ⟨_, _, knownToo, inBlocks, same⟩ := Context.contains_region.mp toBlock
    cases same
    cases known.symm.trans knownToo
    exact blocks block inBlocks
  · intro blocks
    obtain ⟨data, found⟩ := fits.exists_op
    refine ⟨data, found, fun region inRegions => ?_⟩
    have toRegion := Context.contains_op.mpr ⟨data, region, found, inRegions, rfl⟩
    obtain ⟨listed, known⟩ := (fits.inner toRegion).exists_region
    refine ⟨listed, known, fun block inBlocks => blocks block ⟨region, toRegion, ?_⟩⟩
    exact Context.contains_region.mpr ⟨listed, block, known, inBlocks, rfl⟩

/-- Honest sweeps for what a block lists, in any order, are honest. -/
theorem Honest.eachListed (order : List OpId → List OpId) {step : OpId → Sweep}
    (honest : ∀ op, (step op).Honest) (block : BlockId) :
    Honest fun ctx => ctx.block block >>= fun data => Sweep.each step (order data.ops) ctx :=
  .lookup fun data => .each honest (order data.ops)

/-- Sweeps for what a block lists, in any order, are at rest exactly when each of them is. -/
theorem rests_eachListed_iff (order : List OpId → List OpId)
    (same : ∀ op ops, op ∈ order ops ↔ op ∈ ops) {step : OpId → Sweep}
    (honest : ∀ op, (step op).Honest) {block : BlockId} :
    Rests (fun ctx => ctx.block block >>= fun data => each step (order data.ops) ctx) ctx ↔
      (∃ data, ctx.block block = .ok data) ∧
        ∀ op, ctx.Contains (.block block) (.op op) → (step op).Rests ctx := by
  have opened : Rests (fun ctx => ctx.block block >>= fun data => each step (order data.ops) ctx)
      ctx ↔ ∃ data, ctx.block block = .ok data ∧ ∀ op ∈ order data.ops, (step op).Rests ctx := by
    refine bind_eq_ok.trans (exists_congr fun data => and_congr_right fun _ => ?_)
    exact rests_each_iff honest
  rw [opened]
  -- The order does not matter for what is listed.
  constructor
  · intro rest
    obtain ⟨data, found, ops⟩ := rest
    refine ⟨⟨data, found⟩, fun op contains => ?_⟩
    obtain ⟨_, _, foundToo, listed, same'⟩ := Context.contains_block.mp contains
    cases same'
    cases found.symm.trans foundToo
    exact ops op ((same op data.ops).mpr listed)
  · intro rest
    obtain ⟨⟨data, found⟩, ops⟩ := rest
    refine ⟨data, found, fun op inOrder => ops op ?_⟩
    exact Context.contains_block.mpr ⟨data, op, found, (same op data.ops).mp inOrder, rfl⟩

end Sweep

/-- An attempt is honest when it changes nothing unless it applies. -/
def Attempt.Honest (attempt : Attempt) : Prop :=
  ∀ ctx ctx', attempt ctx = .ok (false, ctx') → ctx' = ctx

/-- A counted attempt counts nothing exactly when it does not apply. -/
theorem Attempt.counted_eq_zero_iff {attempt : Attempt} {ctx ctx' : Context} :
    attempt.counted ctx = .ok (0, ctx') ↔ attempt ctx = .ok (false, ctx') := by
  constructor
  · intro done
    -- The count is the number of the truth value.
    obtain ⟨⟨applied, mid⟩, ran, made⟩ := bind_eq_ok.mp done
    obtain ⟨none, same⟩ := Prod.ext_iff.mp (Except.ok.inj made)
    cases same
    have refused : applied = false := Bool.toNat_eq_zero.mp none
    exact refused ▸ ran
  · intro ran
    exact bind_eq_ok.mpr ⟨_, ran, rfl⟩

/-- Counting an honest attempt is honest. -/
theorem Attempt.Honest.counted {attempt : Attempt} (honest : attempt.Honest) :
    attempt.counted.Honest :=
  fun ctx ctx' done => honest ctx ctx' (Attempt.counted_eq_zero_iff.mp done)

/-- An operation is dead when it is pure and no chain of its results lists anything. -/
theorem Context.isDead_iff {ctx : Context} {data : Operation} :
    ctx.isDead data = true ↔
      data.isPure = true ∧ ∀ value ∈ data.results, ctx.isUsed value = false := by
  simp [isDead]

namespace DeadCode

variable {ctx : Context}

/-- An operation is erased only if it is dead, and otherwise nothing changes. -/
theorem eraseIfDead_eq_false_iff {block : BlockId} {op : OpId} {ctx' : Context} :
    eraseIfDead block op ctx = .ok (false, ctx') ↔
      ctx' = ctx ∧ ∃ data, ctx.op op = .ok data ∧ ctx.isDead data = false := by
  constructor
  · intro done
    obtain ⟨data, found, rest⟩ := bind_eq_ok.mp done
    split at rest
    · -- An operation that is erased counts, whatever becomes of the program.
      obtain ⟨erased, -, made⟩ := bind_eq_ok.mp rest
      cases made
    · rename_i alive
      cases rest
      exact ⟨rfl, data, found, Bool.not_eq_true _ ▸ alive⟩
  · intro both
    obtain ⟨rfl, data, found, alive⟩ := both
    refine bind_eq_ok.mpr ⟨data, found, ?_⟩
    rw [if_neg (Bool.not_eq_true _ ▸ alive)]
    rfl

/-- Erasing what is dead is honest. -/
theorem honest_eraseIfDead (block : BlockId) (op : OpId) :
    Attempt.Honest (eraseIfDead block op) :=
  fun _ _ done => (eraseIfDead_eq_false_iff.mp done).1

/-- The operations that a sweep covers are all inside its root, or only those in its own blocks. -/
def Covers (ctx : Context) (recursive : Bool) (root op : OpId) : Prop :=
  if recursive then TransGen ctx.Contains (.op root) (.op op) else ctx.Nests root op

/-- What is nested in a block is swept honestly. -/
theorem honest_nested {recursive : Bool} {sweep : OpId → Sweep}
    (honest : ∀ op, (sweep op).Honest) (block : BlockId) :
    Sweep.Honest (if recursive then Sweep.eachOp sweep block else Sweep.idle) := by
  split
  · exact Sweep.Honest.eachListed id honest block
  · exact Sweep.honest_idle

/-- A sweep of what is below an operation is honest. -/
theorem honest_sweepBelow (recursive : Bool) (depth : Nat) (op : OpId) :
    (sweepBelow recursive depth op).Honest := by
  -- What is nested deeper is swept with less depth left.
  induction depth generalizing op with
  | zero => exact fun _ _ done => nomatch done
  | succ depth ih =>
    refine Sweep.Honest.eachBlock (fun block => (honest_nested ih block).andThen ?_) op
    exact Sweep.Honest.eachListed List.reverse
      (fun op => (honest_eraseIfDead block op).counted) block

/-- A sweep of a block is at rest exactly when nothing in it is dead, nor in what is swept of it. -/
theorem rests_sweepBlock_iff {recursive : Bool} {sweep : OpId → Sweep}
    (honest : ∀ op, (sweep op).Honest) {block : BlockId} :
    (Sweep.andThen (if recursive then Sweep.eachOp sweep block else Sweep.idle)
        (Sweep.eachOpBackward (fun op => (eraseIfDead block op).counted) block)).Rests ctx ↔
      (∃ data, ctx.block block = .ok data) ∧ ∀ inner, ctx.Contains (.block block) (.op inner) →
        (recursive = true → (sweep inner).Rests ctx) ∧
          ∃ data, ctx.op inner = .ok data ∧ ctx.isDead data = false := by
  have backward :
      (Sweep.eachOpBackward (fun op => (eraseIfDead block op).counted) block).Rests ctx ↔
      (∃ data, ctx.block block = .ok data) ∧ ∀ inner, ctx.Contains (.block block) (.op inner) →
        ∃ data, ctx.op inner = .ok data ∧ ctx.isDead data = false := by
    refine (Sweep.rests_eachListed_iff List.reverse (by simp)
      fun op => (honest_eraseIfDead block op).counted).trans (and_congr_right fun _ => ?_)
    refine forall₂_congr fun inner _ => ?_
    rw [Sweep.Rests, Attempt.counted_eq_zero_iff, eraseIfDead_eq_false_iff]
    exact and_iff_right rfl
  rw [Sweep.rests_andThen_iff (honest_nested honest block), backward]
  -- Without recursion, nothing is asked of what is nested.
  cases recursive with
  | false =>
    have idle : Sweep.idle.Rests ctx := rfl
    simp [idle]
  | true =>
    have nested : (Sweep.eachOp sweep block).Rests ctx ↔ _ :=
      Sweep.rests_eachListed_iff id (by simp) honest
    constructor
    · intro both
      obtain ⟨rest, known, alive⟩ := both
      exact ⟨known, fun inner contains => ⟨fun _ => (nested.mp rest).2 inner contains,
        alive inner contains⟩⟩
    · intro both
      obtain ⟨known, each⟩ := both
      exact ⟨nested.mpr ⟨known, fun inner contains => (each inner contains).1 rfl⟩, known,
        fun inner contains => (each inner contains).2⟩

/-- What an operation nests directly is covered by every sweep of it. -/
theorem Covers.of_nests {recursive : Bool} {op inner : OpId} (nests : ctx.Nests op inner) :
    Covers ctx recursive op inner := by
  cases recursive with
  | false => exact nests
  | true =>
    obtain ⟨block, holds⟩ := nests
    exact holds.transGen

/-- What a sweep of an operation covers is inside the operation. -/
theorem Covers.transGen {recursive : Bool} {op inner : OpId}
    (covers : Covers ctx recursive op inner) : TransGen ctx.Contains (.op op) (.op inner) := by
  cases recursive with
  | true => exact covers
  | false =>
    obtain ⟨block, holds⟩ := covers
    exact holds.transGen

/-- A sweep is at rest exactly when nothing that it covers is dead. -/
theorem rests_sweepBelow_iff {recursive : Bool} {depth : Nat} {op : OpId}
    (fits : ctx.Fits depth (.op op)) :
    (sweepBelow recursive depth op).Rests ctx ↔
      ∀ inner, Covers ctx recursive op inner →
        ∃ data, ctx.op inner = .ok data ∧ ctx.isDead data = false := by
  -- What is nested deeper is swept with less depth left, in which it fits.
  induction depth generalizing op with
  | zero => cases fits
  | succ depth ih =>
    have nestedHonest := honest_sweepBelow recursive depth
    have nestedPart (block : BlockId) : Sweep.Honest (if recursive then
        Sweep.eachOp (sweepBelow recursive depth) block else Sweep.idle) :=
      honest_nested nestedHonest block
    have honest (block : BlockId) := (nestedPart block).andThen
      (Sweep.Honest.eachListed List.reverse (fun op => (honest_eraseIfDead block op).counted) block)
    refine (Sweep.rests_eachBlock_iff honest fits).trans ?_
    constructor
    · intro rest inner covered
      have direct {mid : OpId} {block : BlockId} (holds : ctx.Holds op block mid) :=
        ((rests_sweepBlock_iff nestedHonest).mp (rest block holds.1)).2 mid holds.2
      -- Only a recursive sweep goes below what the blocks list.
      cases recursive with
      | false =>
        obtain ⟨block, holds⟩ := covered
        exact (direct holds).2
      | true =>
        obtain ⟨mid, ⟨block, holds⟩, after⟩ :=
          TransGen.head'_iff.mp (Context.transGen_nests_iff.mpr covered)
        obtain ⟨nested, alive⟩ := direct holds
        rcases reflTransGen_iff_eq_or_transGen.mp after with rfl | deeper
        · exact alive
        · have inside := Context.transGen_nests_iff.mp deeper
          exact (ih (fits.of_holds holds)).mp (nested rfl) inner inside
    · intro alive block encloses
      have known := fits.exists_enclosed encloses
      refine (rests_sweepBlock_iff nestedHonest).mpr ⟨known, fun inner contains => ?_⟩
      have holds : ctx.Holds op block inner := ⟨encloses, contains⟩
      refine ⟨fun deep => ?_, alive inner (.of_nests ⟨block, holds⟩)⟩
      subst deep
      refine (ih (fits.of_holds holds)).mpr fun deeper covered => alive deeper ?_
      exact holds.transGen.trans covered

/-- A sweep of everything below an operation is at rest exactly when nothing it covers is dead. -/
theorem rests_sweep_iff {config : Config} {root : OpId}
    (fits : ctx.Fits ctx.depthBound (.op root)) :
    (sweep config root).Rests ctx ↔ ∀ inner, Covers ctx config.recursive root inner →
      ∃ data, ctx.op inner = .ok data ∧ ctx.isDead data = false := by
  rw [← rests_sweepBelow_iff fits, Sweep.Rests, sweep, Sweep.Rests]

/-- Elimination ends at once where a sweep is at rest, and changes nothing. -/
theorem eliminate_of_rests {config : Config} {root : OpId} (rests : (sweep config root).Rests ctx) :
    eliminate config root ctx = .ok (⟨0, 1, true⟩, ctx) := by
  -- At least one sweep is made under every configuration.
  obtain ⟨remaining, same⟩ : ∃ remaining, max config.maxIterations 1 = remaining + 1 :=
    ⟨max config.maxIterations 1 - 1, by omega⟩
  rw [eliminate, same]
  exact bind_eq_ok.mpr ⟨(0, ctx), rests, rfl⟩

end DeadCode

end NestedIR
