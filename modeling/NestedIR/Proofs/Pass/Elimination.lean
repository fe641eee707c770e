import Mathlib.Data.Set.Card
import NestedIR.Proofs.Pass.DeadCode
import NestedIR.Proofs.Pass.Erasure
import NestedIR.Proofs.Pass.Rest

/-! Dead code elimination erases the least set of operations that only it uses, if let finish. -/

namespace NestedIR

open Relation

/-- Operations that are all known are finitely many, since only finitely many were ever made. -/
theorem Context.finite_of_known {ctx : Context} {ops : Set OpId}
    (known : ∀ op ∈ ops, ∃ data, ctx.op op = .ok data) : ops.Finite := by
  -- Operations are numbered on from zero, below the number of those that were made.
  have indices : Set.InjOn OpId.index ops := fun op _ other _ same => congrArg OpId.mk same
  refine Set.Finite.of_finite_image ((Set.finite_lt_nat ctx.ops.size).subset ?_) indices
  rintro index ⟨op, member, rfl⟩
  obtain ⟨data, found⟩ := known op member
  exact Context.index_lt_of_op found

namespace DeadCode

/--
The operations that are dead together, of those that may be erased.

A pure operation is among them as soon as all uses of its results are.
-/
inductive Dead (ctx : Context) (covered : OpId → Prop) : OpId → Prop where
  /-- All that uses the operation is dead. -/
  | intro {op : OpId} {data : Operation} (among : covered op) (found : ctx.op op = .ok data)
    (isPure : data.isPure = true)
    (users : ∀ value ∈ data.results, ∀ use ∈ ctx.usesOf value, Dead ctx covered use.user) :
    Dead ctx covered op

/--
A program from which some dead operations have been erased, each of them once.

It has come about by rewrites, so that owners, lists and chains still agree.
-/
structure Collected (ctx : Context) (covered : OpId → Prop) (gone : List OpId) (mid : Context) :
    Prop where
  /-- No operation is erased twice. -/
  nodup : gone.Nodup
  /-- Only dead operations are erased. -/
  dead : ∀ op ∈ gone, Dead ctx covered op
  /-- Nothing else is changed. -/
  erases : Erases gone ctx mid
  /-- All changes are rewrites. -/
  rewrites : Rewrites (fun _ => True) ctx mid

/-- A sweep that erases dead operations only, and counts them. -/
def Collects (ctx : Context) (covered : OpId → Prop) (sweep : Sweep) : Prop :=
  ∀ gone mid count last, Collected ctx covered gone mid → sweep mid = .ok (count, last) →
    ∃ more, count = more.length ∧ Collected ctx covered (gone ++ more) last

variable {ctx mid last : Context} {covered : OpId → Prop} {gone : List OpId}

/-- Before anything is erased, nothing is gone. -/
theorem Collected.start (ctx : Context) (covered : OpId → Prop) : Collected ctx covered [] ctx where
  nodup := List.nodup_nil
  dead := by simp
  erases := .refl ctx
  rewrites := .refl

section Collect

/-- Doing nothing collects nothing. -/
theorem Collects.idle : Collects ctx covered Sweep.idle := by
  intro gone mid count last collected done
  cases done
  exact ⟨[], rfl, by simpa using collected⟩

/-- What two sweeps collect one after the other is collected together. -/
theorem Collects.andThen {first second : Sweep} (collects : Collects ctx covered first)
    (collectsToo : Collects ctx covered second) : Collects ctx covered (first.andThen second) := by
  intro gone mid count last collected done
  obtain ⟨⟨few, between⟩, ran, rest⟩ := bind_eq_ok.mp done
  obtain ⟨⟨others, final⟩, ranToo, made⟩ := bind_eq_ok.mp rest
  cases made
  obtain ⟨early, counted, collectedBetween⟩ := collects gone mid few between collected ran
  obtain ⟨late, countedToo, collectedLast⟩ :=
    collectsToo (gone ++ early) between others last collectedBetween ranToo
  -- The counts add up as the lists do.
  refine ⟨early ++ late, ?_, by rwa [← List.append_assoc]⟩
  rw [List.length_append, counted, countedToo]

/-- What sweeps for the items of a list collect is collected together. -/
theorem Collects.each {α : Type} {step : α → Sweep} {items : List α}
    (collects : ∀ item ∈ items, Collects ctx covered (step item)) :
    Collects ctx covered (Sweep.each step items) := by
  induction items with
  | nil => exact .idle
  | cons first rest ih =>
    have later := ih fun item member => collects item (by simp [member])
    exact (collects first (by simp)).andThen later

/-- Sweeps for the blocks of an operation collect together what each of them collects. -/
theorem Collects.eachBlock {step : BlockId → Sweep} {op : OpId}
    (collects : ∀ block, ctx.Encloses op block → Collects ctx covered (step block)) :
    Collects ctx covered (Sweep.eachBlock step op) := by
  intro gone mid count last collected done
  obtain ⟨data, found, swept⟩ := bind_eq_ok.mp done
  refine Collects.each (fun region inRegions => ?_) gone mid count last collected swept
  intro gone' mid' count' last' collected' done'
  obtain ⟨listed, known, swept'⟩ := bind_eq_ok.mp done'
  refine Collects.each (fun block inBlocks => collects block ?_) gone' mid' count' last' collected'
    swept'
  -- The regions and blocks are the same at all times.
  obtain ⟨old, foundOld, rfl⟩ := collected.erases.op_before found
  rw [Context.region_congr collected'.erases.regions_eq] at known
  refine ⟨region, Context.contains_op.mpr ⟨old, region, foundOld, ?_, rfl⟩,
    Context.contains_region.mpr ⟨listed, block, known, inBlocks, rfl⟩⟩
  split at inRegions <;> exact inRegions

/-- Sweeps for what a block lists collect together what each of them collects. -/
theorem Collects.eachOp {step : OpId → Sweep} {block : BlockId}
    (collects : ∀ op, ctx.Contains (.block block) (.op op) → Collects ctx covered (step op)) :
    Collects ctx covered (Sweep.eachOp step block) := by
  intro gone mid count last collected done
  obtain ⟨data, found, swept⟩ := bind_eq_ok.mp done
  refine Collects.each (fun op listed => collects op ?_) gone mid count last collected swept
  -- What is listed at any time was listed before the first erasure.
  have contains := Context.contains_block.mpr ⟨data, op, found, listed, rfl⟩
  exact (collected.erases.contains_block_iff.mp contains).1

end Collect

section Erase

variable (consistent : Consistent ctx) (owned : ctx.OpsOwned)
include consistent owned

/-- An operation that is still in a block is collected if it is erased. -/
theorem Collected.eraseIfDead (collected : Collected ctx covered gone mid) {block : BlockId}
    {op : OpId} (contains : mid.Contains (.block block) (.op op)) (among : covered op)
    (done : DeadCode.eraseIfDead block op mid = .ok (true, last)) :
    Collected ctx covered (gone ++ [op]) last := by
  obtain ⟨inCtx, fresh⟩ := collected.erases.contains_block_iff.mp contains
  obtain ⟨data, found, rest⟩ := bind_eq_ok.mp done
  split at rest
  · rename_i isDead
    obtain ⟨erased, performed, made⟩ := bind_eq_ok.mp rest
    cases made
    rw [← Context.performAll_eraseRequests] at performed
    have rewrite : Rewrite op mid last := .erase block data found isDead performed
    -- The requests take the operation out of the one block that lists it.
    have erases : Erases [op] mid last := by
      obtain ⟨same, target, foundToo, -, owner, -, rfl⟩ :=
        Context.eraseRequests_eq_ok.mp performed
      have ownedMid := collected.rewrites.opsOwned owned
      exact .withErased ownedMid (collected.rewrites.consistent consistent) foundToo owner
    have dead : Dead ctx covered op := by
      -- What still used the operation at first has been erased since then.
      obtain ⟨old, foundOld, same⟩ := collected.erases.op_before found
      rw [if_neg fresh] at same
      subst same
      obtain ⟨isPure, unused⟩ := Context.isDead_iff.mp isDead
      refine .intro among foundOld isPure fun value inResults use listed => ?_
      have empty : mid.usesOf value = [] := by
        simpa [Context.isUsed] using unused value inResults
      rw [collected.erases.usesOf_eq, List.filter_eq_nil_iff] at empty
      exact collected.dead use.user (by simpa using empty use listed)
    exact {
      nodup := List.nodup_append.mpr ⟨collected.nodup, List.nodup_singleton op, by
        intro member inGone other inLast same
        cases List.mem_singleton.mp inLast
        exact fresh (same ▸ inGone)⟩
      dead := fun other member => by
        rcases List.mem_append.mp member with old | new
        · exact collected.dead other old
        · exact List.mem_singleton.mp new ▸ dead
      erases := collected.erases.trans erases
      rewrites := collected.rewrites.tail ⟨op, trivial, rewrite⟩ }
  · cases rest

/-- Distinct operations of a block are collected as far as they are erased. -/
theorem Collected.eraseEach {block : BlockId}
    (among : ∀ op, ctx.Contains (.block block) (.op op) → covered op) {items : List OpId}
    (distinct : items.Nodup) (collected : Collected ctx covered gone mid)
    (listed : ∀ op ∈ items, mid.Contains (.block block) (.op op)) {count : Nat}
    (done : Sweep.each (fun op => (DeadCode.eraseIfDead block op).counted) items mid =
      .ok (count, last)) :
    ∃ more, count = more.length ∧ Collected ctx covered (gone ++ more) last := by
  -- What has not been tried yet is still in the block.
  induction items generalizing gone mid count with
  | nil => exact Collects.idle gone mid count last collected done
  | cons op rest ih =>
    obtain ⟨fresh, distinctRest⟩ := List.nodup_cons.mp distinct
    obtain ⟨⟨few, between⟩, counted, later⟩ := bind_eq_ok.mp done
    obtain ⟨⟨others, final⟩, ranRest, made⟩ := bind_eq_ok.mp later
    cases made
    obtain ⟨⟨applied, tried⟩, attempted, made⟩ := bind_eq_ok.mp counted
    cases made
    have contains := listed op (by simp)
    cases applied with
    | false =>
      cases honest_eraseIfDead block op mid between attempted
      obtain ⟨more, same, collectedLast⟩ := ih distinctRest collected
        (fun other member => listed other (by simp [member])) ranRest
      exact ⟨more, by simpa using same, collectedLast⟩
    | true =>
      have inCtx := (collected.erases.contains_block_iff.mp contains).1
      have collectedOp := collected.eraseIfDead consistent owned contains (among op inCtx) attempted
      -- The rest is still listed, as only this operation went.
      have stillListed : ∀ other ∈ rest, between.Contains (.block block) (.op other) := by
        intro other member
        obtain ⟨otherInCtx, stays⟩ :=
          collected.erases.contains_block_iff.mp (listed other (by simp [member]))
        refine collectedOp.erases.contains_block_iff.mpr ⟨otherInCtx, fun gone => ?_⟩
        rcases List.mem_append.mp gone with old | new
        · exact stays old
        · exact fresh (List.mem_singleton.mp new ▸ member)
      obtain ⟨more, same, collectedLast⟩ := ih distinctRest collectedOp stillListed ranRest
      refine ⟨op :: more, by simp [same, Nat.add_comm], ?_⟩
      rwa [List.append_assoc] at collectedLast

/-- The sweep of a block from its end collects what it erases. -/
theorem Collects.eachOpBackward {block : BlockId}
    (among : ∀ op, ctx.Contains (.block block) (.op op) → covered op) :
    Collects ctx covered
      (Sweep.eachOpBackward (fun op => (DeadCode.eraseIfDead block op).counted) block) := by
  intro gone mid count last collected done
  obtain ⟨data, found, swept⟩ := bind_eq_ok.mp done
  -- A block lists nothing twice.
  have distinct := (collected.rewrites.opsOwned owned).nodup found
  refine collected.eraseEach consistent owned among (List.nodup_reverse.mpr distinct) ?_ swept
  intro op listed
  exact Context.contains_block.mpr ⟨data, op, found, List.mem_reverse.mp listed, rfl⟩

/-- A sweep of the root, or of what is inside it, collects what the root covers. -/
theorem Collects.sweepBelow {recursive : Bool} {root op : OpId}
    (below : op = root ∨ recursive = true ∧ TransGen ctx.Contains (.op root) (.op op))
    (depth : Nat) :
    Collects ctx (Covers ctx recursive root) (DeadCode.sweepBelow recursive depth op) := by
  -- What is nested in a swept operation is covered as well.
  induction depth generalizing op with
  | zero => exact fun _ _ _ _ _ done => nomatch done
  | succ depth ih =>
    refine Collects.eachBlock fun block encloses => Collects.andThen ?_ ?_
    · split
      · rename_i deep
        refine Collects.eachOp fun inner contains => ih (.inr ⟨deep, ?_⟩)
        have inside : TransGen ctx.Contains (.op op) (.op inner) := encloses.transGen.tail contains
        rcases below with rfl | ⟨-, path⟩
        · exact inside
        · exact path.trans inside
      · exact Collects.idle
    · refine Collects.eachOpBackward consistent owned fun inner contains => ?_
      have holds : ctx.Holds op block inner := ⟨encloses, contains⟩
      rcases below with rfl | ⟨rfl, path⟩
      · exact .of_nests ⟨block, holds⟩
      · exact path.trans holds.transGen

/--
Sweeps one after the other collect what they erase together.

They stop at rest, or run out after as many sweeps as were left, each of which erased something.
-/
theorem Collected.eliminateFrom {config : Config} {root : OpId} {iterations remaining : Nat}
    {result : Result} (collected : Collected ctx (Covers ctx config.recursive root) gone mid)
    (done : DeadCode.eliminateFrom config root gone.length iterations remaining mid =
      .ok (result, last)) :
    ∃ more, Collected ctx (Covers ctx config.recursive root) (gone ++ more) last ∧
      result.removed = (gone ++ more).length ∧
      (result.reachedFixpoint = true → (sweep config root).Rests last) ∧
      (result.reachedFixpoint = false → remaining ≤ more.length) := by
  -- What the next sweep erases is gone for all that follow.
  induction remaining generalizing gone mid iterations with
  | zero =>
    cases done
    exact ⟨[], by simpa using collected, by simp, by simp, by simp⟩
  | succ remaining ih =>
    obtain ⟨⟨count, between⟩, swept, rest⟩ := bind_eq_ok.mp done
    obtain ⟨few, counted, collectedFew⟩ := Collects.sweepBelow consistent owned (.inl rfl)
      mid.depthBound gone mid count between collected swept
    dsimp only at rest
    split at rest
    · rename_i none
      cases rest
      subst none
      have unchanged := honest_sweepBelow _ _ root mid last swept
      subst unchanged
      exact ⟨[], by simpa using collected, by simp, fun _ => swept, by simp⟩
    · rename_i nonzero
      rw [counted, ← List.length_append] at rest
      obtain ⟨more, collectedLast, removed, rests, ranOut⟩ := ih collectedFew rest
      rw [List.append_assoc] at collectedLast removed
      refine ⟨few ++ more, collectedLast, removed, rests, fun unfinished => ?_⟩
      have left := ranOut unfinished
      rw [List.length_append]
      omega

end Erase

/-- What is covered stays so unless it is erased, if nothing that is erased nests anything. -/
theorem Covers.erased {ctx' : Context} {recursive : Bool} {root op : OpId}
    (covers : Covers ctx recursive root op) (erases : Erases gone ctx ctx')
    (leaf : ∀ outer ∈ gone, ∀ inner, ¬ ctx.Nests outer inner) (stays : op ∉ gone) :
    Covers ctx' recursive root op := by
  cases recursive with
  | false => exact erases.nests_iff.mpr ⟨covers, stays⟩
  | true =>
    -- Everything on the way down nests something, and is therefore still there.
    have path := Context.transGen_nests_iff.mpr covers
    clear covers
    refine Context.transGen_nests_iff.mp ?_
    induction path with
    | single nests => exact .single (erases.nests_iff.mpr ⟨nests, stays⟩)
    | tail _ nests ih =>
      have present := fun inGone => leaf _ inGone _ nests
      exact (ih present).tail (erases.nests_iff.mpr ⟨nests, stays⟩)

/-- Where a sweep is at rest, everything dead has been erased. -/
theorem Collected.mem_of_dead {recursive : Bool} {root : OpId}
    (collected : Collected ctx (Covers ctx recursive root) gone last)
    (leaf : ∀ outer ∈ gone, ∀ inner, ¬ ctx.Nests outer inner)
    (rest : ∀ op, Covers last recursive root op →
      ∃ data, last.op op = .ok data ∧ last.isDead data = false)
    {op : OpId} (dead : Dead ctx (Covers ctx recursive root) op) : op ∈ gone := by
  -- All users are gone by induction, so that the operation could be erased if it were there.
  induction dead with
  | @intro op data among found isPure users ih =>
    refine Classical.byContradiction fun stays => ?_
    obtain ⟨data', found', alive⟩ := rest op (among.erased collected.erases leaf stays)
    obtain ⟨old, foundOld, same⟩ := collected.erases.op_before found'
    cases found.symm.trans foundOld
    rw [if_neg stays] at same
    subst same
    have unused : ∀ value ∈ data'.results, last.isUsed value = false := by
      intro value inResults
      have none : last.usesOf value = [] := by
        rw [collected.erases.usesOf_eq]
        refine List.filter_eq_nil_iff.mpr fun use listed => ?_
        simpa using ih value inResults use listed
      simp [Context.isUsed, none]
    rw [Context.isDead_iff.mpr ⟨isPure, unused⟩] at alive
    cases alive

/-- The pure operations that a root covers. -/
def pureOps (ctx : Context) (recursive : Bool) (root : OpId) : Set OpId :=
  {op | Covers ctx recursive root op ∧ ∃ data, ctx.op op = .ok data ∧ data.isPure = true}

/-- There are only finitely many pure operations. -/
theorem finite_pureOps (ctx : Context) (recursive : Bool) (root : OpId) :
    (pureOps ctx recursive root).Finite :=
  Context.finite_of_known fun _ ⟨_, data, found, _⟩ => ⟨data, found⟩

/-- Only pure operations are dead. -/
theorem Dead.mem_pureOps {recursive : Bool} {root op : OpId}
    (dead : Dead ctx (Covers ctx recursive root) op) : op ∈ pureOps ctx recursive root := by
  cases dead with
  | intro among found isPure users => exact ⟨among, _, found, isPure⟩

/-- A list without duplicates is as long as the set of its members is large. -/
theorem ncard_mem_eq_length {items : List OpId} (distinct : items.Nodup) :
    {op | op ∈ items}.ncard = items.length := by
  have same : {op | op ∈ items} = (items.toFinset : Set OpId) := by
    ext op
    simp
  rw [same, Set.ncard_coe_finset, List.toFinset_card_of_nodup distinct]

/--
Dead code elimination comes to an answer, and erases dead operations only, each of them once.
Lists and chains keep the order of what is left, and everything else stays as it is. If a fixpoint
is reached, all dead operations are erased, and it is reached whenever more sweeps are allowed than
there are pure operations. The program must have been built without direct edits and without a cycle
below the root, and pure operations below the root must not have regions.
-/
theorem eliminate_of_build {requests : List Request} {ctx : Context}
    (plain : ∀ request ∈ requests, request.isEdit = false)
    (built : Context.build requests = .ok ctx) {root : OpId} {rootData : Operation}
    (known : ctx.op root = .ok rootData) (acyclic : ctx.AcyclicBelow (.op root))
    (bare : ∀ op data, TransGen ctx.Contains (.op root) (.op op) → ctx.op op = .ok data →
      data.isPure = true → data.regions = []) (config : Config) :
    ∃ result ctx' gone, eliminate config root ctx = .ok (result, ctx') ∧
      Erases gone ctx ctx' ∧ gone.Nodup ∧ result.removed = gone.length ∧
      (∀ op ∈ gone, Dead ctx (Covers ctx config.recursive root) op) ∧
      (result.reachedFixpoint = true →
        (∀ op, op ∈ gone ↔ Dead ctx (Covers ctx config.recursive root) op) ∧
          result.removed = {op | Dead ctx (Covers ctx config.recursive root) op}.ncard) ∧
      ((pureOps ctx config.recursive root).ncard < config.maxIterations →
        result.reachedFixpoint = true) := by
  have keep : ∀ request ∈ requests, request.keepsUses :=
    fun request member => Request.keepsUses_of_plain (plain request member)
  have consistent := Consistent.of_build keep built
  obtain ⟨ops, -⟩ := Context.owned_of_build plain built
  have fits := Context.fits_of_build plain built known acyclic
  obtain ⟨result, ctx', done, rewrites⟩ := exists_eliminated config fits (ops.ownedBelow root)
  have fits' := (rewrites.evolves.fits fits).mono rewrites.evolves.depthBound_le
  obtain ⟨gone, collected, removed, rests, ranOut⟩ :=
    (Collected.start ctx (Covers ctx config.recursive root)).eliminateFrom consistent ops done
  rw [List.nil_append] at collected removed
  refine ⟨result, ctx', gone, done, collected.erases, collected.nodup, removed, collected.dead,
    fun fixpoint => ?_, fun room => ?_⟩
  -- What is erased has no regions, so nothing goes along with it.
  · have leaf : ∀ outer ∈ gone, ∀ inner, ¬ ctx.Nests outer inner := by
      rintro outer inGone inner ⟨block, holds⟩
      obtain ⟨among, data, found, isPure⟩ := (collected.dead outer inGone).mem_pureOps
      obtain ⟨data', region, -, -, found', listed, -⟩ := Context.holds_iff.mp holds
      cases found.symm.trans found'
      rw [bare outer data among.transGen found isPure] at listed
      cases listed
    have rest := (rests_sweep_iff fits').mp (rests fixpoint)
    have goneIff (op : OpId) : op ∈ gone ↔ Dead ctx (Covers ctx config.recursive root) op :=
      ⟨collected.dead op, collected.mem_of_dead leaf rest⟩
    refine ⟨goneIff, ?_⟩
    rw [removed, ← ncard_mem_eq_length collected.nodup]
    simp only [goneIff]
  · -- Otherwise every sweep that was allowed has erased another pure operation.
    refine Classical.byContradiction fun unfinished => ?_
    have spent := ranOut (Bool.not_eq_true _ ▸ unfinished)
    have erased : gone.length ≤ (pureOps ctx config.recursive root).ncard := by
      rw [← ncard_mem_eq_length collected.nodup]
      exact Set.ncard_le_ncard (fun op inGone => (collected.dead op inGone).mem_pureOps)
        (finite_pureOps ctx config.recursive root)
    omega

/-- Requests that build an unused sum of a number with itself, next to a sum that uses itself. -/
def unusedSums : List Request :=
  [.internType (.integer 32),
    .addOp { name := OpKind.constant.opName, resultTypes := [⟨0⟩] },
    .addOp { name := OpKind.addi.opName, operands := [⟨0⟩, ⟨0⟩], resultTypes := [⟨0⟩] },
    .redirectUses ⟨0⟩ ⟨1⟩,
    .addOp { name := OpKind.constant.opName, resultTypes := [⟨0⟩] },
    .addOp { name := OpKind.addi.opName, operands := [⟨2⟩, ⟨2⟩], resultTypes := [⟨0⟩] },
    .addBlock { ops := [⟨0⟩, ⟨1⟩, ⟨2⟩, ⟨3⟩] }, .addRegion { blocks := [⟨0⟩] },
    .addOp { name := OpKind.func.opName, regions := [⟨0⟩] }]

/-- The unused sum goes with both numbers in one sweep, and the sum that uses itself stays. -/
theorem eliminate_of_build_unusedSums :
    (∀ request ∈ unusedSums, request.isEdit = false) ∧ ∃ ctx,
      Context.build unusedSums = .ok ctx ∧ (∃ data, ctx.op ⟨4⟩ = .ok data) ∧
      ctx.AcyclicBelow (.op ⟨4⟩) ∧
      (∀ op data, TransGen ctx.Contains (.op ⟨4⟩) (.op op) → ctx.op op = .ok data →
        data.isPure = true → data.regions = []) ∧
      ∃ ctx' gone, eliminate {} ⟨4⟩ ctx = .ok (⟨3, 2, true⟩, ctx') ∧ Erases gone ctx ctx' ∧
        gone.Nodup ∧ gone.length = 3 ∧ (∀ op, op ∈ gone ↔ Dead ctx (Covers ctx true ⟨4⟩) op) ∧
        {op | Dead ctx (Covers ctx true ⟨4⟩) op}.ncard = 3 := by
  -- The run and the listing of everything below the function are evaluated.
  have evaluated : (Context.build unusedSums >>= fun ctx => ctx.op ⟨4⟩ >>= fun _ =>
      ctx.preorder (.op ⟨4⟩) >>= fun _ => (eliminate {} ⟨4⟩ ctx).map fun answer =>
        (answer.1, ctx.ops.toList.all fun data => !data.isPure || data.regions.isEmpty)) =
      .ok (⟨3, 2, true⟩, true) := by decide +kernel
  obtain ⟨ctx, built, evaluated⟩ := bind_eq_ok.mp evaluated
  obtain ⟨rootData, known, evaluated⟩ := bind_eq_ok.mp evaluated
  obtain ⟨listing, listed, evaluated⟩ := bind_eq_ok.mp evaluated
  obtain ⟨⟨result, ctx'⟩, done, made⟩ := map_eq_ok.mp evaluated
  obtain ⟨same, empty⟩ := Prod.ext_iff.mp made
  cases same
  have plain : ∀ request ∈ unusedSums, request.isEdit = false := by decide
  have acyclic := (Context.preorder_ok_iff.mp ⟨listing, listed⟩).2
  have bare : ∀ op data, TransGen ctx.Contains (.op ⟨4⟩) (.op op) → ctx.op op = .ok data →
      data.isPure = true → data.regions = [] := by
    intro op data _ found isPure
    simpa [isPure] using List.all_eq_true.mp empty data (Context.mem_ops_of_op found)
  obtain ⟨result', last, gone, doneToo, erases, distinct, removed, -, fixpoint, -⟩ :=
    eliminate_of_build plain built known acyclic bare {}
  cases done.symm.trans doneToo
  obtain ⟨goneIff, counted⟩ := fixpoint rfl
  exact ⟨plain, ctx, built, ⟨rootData, known⟩, acyclic, bare, ctx', gone, done, erases, distinct,
    removed.symm, goneIff, counted.symm⟩

end DeadCode

end NestedIR
