import NestedIR.Proofs.Pass.Replacement
import NestedIR.Proofs.Pass.Tree

/-! A rewrite keeps definitions in front of their uses, as an heir stands where the other stood. -/

namespace NestedIR

open Relation

namespace Context

/-- A list has one operation in front of another one, and that one is or contains a third one. -/
def Precedes (ctx : Context) (definer user : OpId) : Prop :=
  ∃ block data anchor, ctx.block block = .ok data ∧ [definer, anchor].Sublist data.ops ∧
    ReflTransGen ctx.Contains (.op anchor) (.op user)

/--
Every use that a chain lists for an operation below another one is of a known value.

If an operation defines the value, then it stands in front of the use.
-/
def UsesInOrder (ctx : Context) (root : OpId) : Prop :=
  ∀ value use, use ∈ ctx.usesOf value → TransGen ctx.Contains (.op root) (.op use.user) →
    ∃ data, ctx.value value = .ok data ∧
      ∀ definer index, data.definition = .result definer index → ctx.Precedes definer use.user

end Context

namespace Sound

variable {discarded : OpId → Prop} {ctx : Context} {op : OpId}

/-- Nothing in a sound program is contained twice. -/
theorem owner_unique (sound : Sound discarded ctx) {outer other inner : Entity}
    (contains : ctx.Contains outer inner) (containsToo : ctx.Contains other inner) :
    outer = other := by
  -- No entity records two owners.
  have same := (Context.owner?_eq_of_owned sound.ops sound.regions sound.blocks contains).symm.trans
    (Context.owner?_eq_of_owned sound.ops sound.regions sound.blocks containsToo)
  cases same
  rfl

/-- What a sound program contains is in a block. -/
theorem attached_of_contains (sound : Sound discarded ctx) {outer : Entity}
    (contains : ctx.Contains outer (.op op)) : ctx.Attached op := by
  -- Only a block contains operations, and they record it.
  cases outer with
  | op other => simp [Context.contains_op] at contains
  | region region => simp [Context.contains_region] at contains
  | block block =>
    obtain ⟨target, member, known, listed, same⟩ := Context.contains_block.mp contains
    cases same
    obtain ⟨data, found, records⟩ := sound.ops.recorded known listed
    exact ⟨data, block, found, records⟩

/-- What is below an operation of a sound program is in a block. -/
theorem attached_below (sound : Sound discarded ctx) {root : OpId}
    (below : TransGen ctx.Contains (.op root) (.op op)) : ctx.Attached op := by
  obtain ⟨outer, -, contains⟩ := TransGen.tail'_iff.mp below
  exact sound.attached_of_contains contains

/-- What is directly in an entity outside an operation is not within that operation. -/
theorem not_within (sound : Sound discarded ctx) {target : OpId} {entity : Entity}
    (outside : ¬ TransGen ctx.Contains (.op target) entity)
    (contains : ctx.Contains entity (.op op)) : ¬ ctx.Within target op := by
  rintro (inside | new)
  · -- The last step to the operation is from the entity, which is a block and so no target.
    obtain ⟨owner, above, holds⟩ := TransGen.tail'_iff.mp inside
    cases sound.owner_unique holds contains
    rcases reflTransGen_iff_eq_or_transGen.mp above with rfl | inside
    · simp [Context.contains_op] at contains
    · exact outside inside
  · obtain ⟨data, block, found, -⟩ := sound.attached_of_contains contains
    exact absurd (Context.index_lt_of_op found) (Nat.not_lt.mpr new)

end Sound

namespace Replaces

variable {op : OpId} {heir : Option OpId} {moved : ValueId → ValueId} {ctx ctx' : Context}

/-- What contained the operation contains its heir, and nothing else about containment changes. -/
theorem contains_iff (replaces : Replaces op heir moved ctx ctx') {outer inner : Entity} :
    ctx'.Contains outer inner ↔ ctx.Contains outer inner ∧ inner ≠ .op op ∨
      ∃ new, heir = some new ∧ inner = .op new ∧ ctx.Contains outer (.op op) := by
  cases outer with
  | op other =>
    -- The regions of a known operation stay, and the heir has none.
    simp only [Context.contains_op]
    constructor
    · intro contains
      obtain ⟨data, region, found, listed, rfl⟩ := contains
      rcases replaces.op_new found with ⟨old, foundOld⟩ | ⟨-, empty, -⟩
      · cases found.symm.trans (replaces.op_known foundOld)
        exact .inl ⟨⟨old, region, foundOld, listed, rfl⟩, by simp⟩
      · rw [empty] at listed
        cases listed
    · rintro (⟨⟨old, region, foundOld, listed, rfl⟩, -⟩ |
        ⟨new, -, -, old, region, -, -, impossible⟩)
      · exact ⟨_, region, replaces.op_known foundOld, listed, rfl⟩
      · cases impossible
  | region region =>
    simp only [Context.contains_region, Context.region_congr replaces.regions_eq]
    constructor
    · intro contains
      obtain ⟨data, block, found, listed, rfl⟩ := contains
      exact .inl ⟨⟨data, block, found, listed, rfl⟩, by simp⟩
    · rintro (⟨contains, -⟩ | ⟨new, -, -, data, block, -, -, impossible⟩)
      · exact contains
      · cases impossible
  | block block =>
    -- A list goes on without the operation, or with the heir in its place.
    simp only [Context.contains_block, replaces.block_eq, map_eq_ok]
    constructor
    · intro contains
      obtain ⟨data, member, ⟨old, found, rfl⟩, listed, rfl⟩ := contains
      rcases mem_succession_iff.mp listed with ⟨inOld, differs⟩ | ⟨isHeir, inOld⟩
      · exact .inl ⟨⟨old, member, found, inOld, rfl⟩, by simpa using differs⟩
      · exact .inr ⟨member, isHeir, rfl, old, op, found, inOld, rfl⟩
    · rintro (⟨⟨old, member, found, inOld, rfl⟩, differs⟩ |
        ⟨new, isHeir, rfl, old, member, found, inOld, same⟩)
      · exact ⟨_, member, ⟨old, found, rfl⟩,
          mem_succession_iff.mpr (.inl ⟨inOld, by simpa using differs⟩), rfl⟩
      · cases same
        exact ⟨_, new, ⟨old, found, rfl⟩, mem_succession_iff.mpr (.inr ⟨isHeir, inOld⟩), rfl⟩

/-- A way down stays if it does not lead to the operation or to what is inside it. -/
theorem reaches (replaces : Replaces op heir moved ctx ctx') {outer inner : Entity}
    (path : ReflTransGen ctx.Contains outer inner)
    (apart : ¬ ReflTransGen ctx.Contains (.op op) inner) :
    ReflTransGen ctx'.Contains outer inner := by
  -- Everything on the way down is outside the operation as well.
  induction path with
  | refl => exact .refl
  | tail _ contains ih =>
    refine (ih fun inside => apart (inside.tail contains)).tail (replaces.contains_iff.mpr ?_)
    exact .inl ⟨contains, fun same => apart (same ▸ .refl)⟩

/-- An heir contains nothing. -/
theorem not_contains_heir (replaces : Replaces op heir moved ctx ctx') {new : OpId} {inner : Entity}
    (isHeir : heir = some new) : ¬ ctx'.Contains (.op new) inner := by
  intro contains
  -- The heir is a constant, and is made without regions.
  obtain ⟨data, region, found, listed, -⟩ := Context.contains_op.mp contains
  rcases replaces.op_new found with ⟨old, foundOld⟩ | ⟨-, empty, -⟩
  · exact Context.op_ne_next foundOld (replaces.heir_eq isHeir).1
  · rw [empty] at listed
    cases listed

/-- A way down to anything but the heir was there before. -/
theorem transGen_before (replaces : Replaces op heir moved ctx ctx') {outer inner : Entity}
    (known : ∀ new, heir = some new → inner ≠ .op new) (path : TransGen ctx'.Contains outer inner) :
    TransGen ctx.Contains outer inner := by
  have step {outer inner : Entity} (known : ∀ new, heir = some new → inner ≠ .op new)
      (contains : ctx'.Contains outer inner) : ctx.Contains outer inner := by
    rcases replaces.contains_iff.mp contains with ⟨before, -⟩ | ⟨new, isHeir, same, -⟩
    · exact before
    · exact absurd same (known new isHeir)
  -- An heir leads nowhere, so that it is not on the way.
  induction path with
  | single contains => exact .single (step known contains)
  | tail _ contains ih =>
    refine (ih fun new isHeir same => ?_).tail (step known contains)
    exact replaces.not_contains_heir isHeir (same ▸ contains)

/-- A way down to what is neither the heir nor inside the operation is a way down as before. -/
theorem transGen_iff (replaces : Replaces op heir moved ctx ctx') {outer inner : Entity}
    (apart : ¬ ReflTransGen ctx.Contains (.op op) inner)
    (known : ∀ new, heir = some new → inner ≠ .op new) :
    TransGen ctx'.Contains outer inner ↔ TransGen ctx.Contains outer inner := by
  refine ⟨replaces.transGen_before known, fun path => ?_⟩
  -- The way down stays up to the last step, which does not lead to the operation.
  obtain ⟨owner, above, contains⟩ := TransGen.tail'_iff.mp path
  have differs : inner ≠ .op op := fun same => apart (same ▸ .refl)
  exact TransGen.tail' (replaces.reaches above fun inside => apart (inside.tail contains))
    (replaces.contains_iff.mpr (.inl ⟨contains, differs⟩))

/-- What is inside another entity afterwards is the heir, or was there and outside the operation. -/
theorem reached (replaces : Replaces op heir moved ctx ctx') {discarded : OpId → Prop}
    (sound : Sound discarded ctx) {root inner : Entity}
    (outside : ¬ ReflTransGen ctx.Contains (.op op) root)
    (path : TransGen ctx'.Contains root inner) :
    (∃ new, heir = some new ∧ inner = .op new) ∨
      TransGen ctx.Contains root inner ∧ ¬ ReflTransGen ctx.Contains (.op op) inner := by
  have step {outer inner : Entity} (apart : ¬ ReflTransGen ctx.Contains (.op op) outer)
      (contains : ctx'.Contains outer inner) : (∃ new, heir = some new ∧ inner = .op new) ∨
        ctx.Contains outer inner ∧ ¬ ReflTransGen ctx.Contains (.op op) inner := by
    rcases replaces.contains_iff.mp contains with ⟨before, differs⟩ | ⟨new, isHeir, same, -⟩
    · refine .inr ⟨before, fun inside => ?_⟩
      -- The last step down from the operation would come from the same owner.
      rcases ReflTransGen.cases_tail inside with same | ⟨owner, above, last⟩
      · exact differs same
      · exact apart (sound.owner_unique last before ▸ above)
    · exact .inl ⟨new, isHeir, same⟩
  induction path with
  | single contains => exact (step outside contains).imp_right (And.imp_left .single)
  | tail _ contains ih =>
    rcases ih with ⟨new, isHeir, rfl⟩ | ⟨down, apart⟩
    · exact absurd contains (replaces.not_contains_heir isHeir)
    · exact (step apart contains).imp_right (And.imp_left down.tail)

/-- What the operation was inside, its heir is inside. -/
theorem transGen_heir_iff (replaces : Replaces op heir moved ctx ctx') {discarded : OpId → Prop}
    (sound : Sound discarded ctx) (acyclic : ¬ TransGen ctx.Contains (.op op) (.op op))
    {new : OpId} (isHeir : heir = some new) {outer : Entity} :
    TransGen ctx'.Contains outer (.op new) ↔ TransGen ctx.Contains outer (.op op) := by
  have unknown {data : Operation} : ctx.op new ≠ .ok data :=
    fun found => Context.op_ne_next found (replaces.heir_eq isHeir).1
  -- An owner of the heir owned the operation, and the way down to the owner is as before.
  have step (owner : Entity) :
      ctx'.Contains owner (.op new) ↔ ctx.Contains owner (.op op) := by
    rw [replaces.contains_iff]
    constructor
    · rintro (⟨contains, -⟩ | ⟨other, -, -, contains⟩)
      · obtain ⟨data, block, found, -⟩ := sound.attached_of_contains contains
        exact absurd found unknown
      · exact contains
    · exact fun contains => .inr ⟨new, isHeir, rfl, contains⟩
  rw [TransGen.tail'_iff, TransGen.tail'_iff]
  refine exists_congr fun owner => ?_
  rw [step]
  refine and_congr_left fun contains => ?_
  rw [reflTransGen_iff_eq_or_transGen, reflTransGen_iff_eq_or_transGen]
  refine or_congr_right (replaces.transGen_iff (fun inside => ?_) fun other isHeir' same => ?_)
  · exact acyclic (TransGen.tail' inside contains)
  · cases same
    cases isHeir.symm.trans isHeir'
    obtain ⟨data, region, found, -⟩ := Context.contains_op.mp contains
    exact unknown found

/-- What stands in front of a use still does so, or its heir does. -/
theorem precedes (replaces : Replaces op heir moved ctx ctx') {definer successor user : OpId}
    (before : ctx.Precedes definer user) (apart : ¬ ReflTransGen ctx.Contains (.op op) (.op user))
    (takes : (if definer = op then heir else some definer) = some successor) :
    ctx'.Precedes successor user := by
  obtain ⟨block, data, anchor, found, inFront, down⟩ := before
  -- The use is outside the operation, and so is what stands behind the definition.
  have anchored : anchor ≠ op := fun same => apart (same ▸ down)
  refine ⟨block, _, anchor, by rw [replaces.block_eq, found]; rfl, ?_, replaces.reaches down apart⟩
  have kept : (succession op heir [definer, anchor]).Sublist (succession op heir data.ops) :=
    inFront.filterMap _
  simpa [succession, takes, anchored] using kept

/-- What stands in front of an operation did so before, unless one of the two is the heir. -/
theorem precedes_before (replaces : Replaces op heir moved ctx ctx') {definer user : OpId}
    (older : ∀ new, heir = some new → new ≠ definer ∧ new ≠ user)
    (inFront : ctx'.Precedes definer user) : ctx.Precedes definer user := by
  obtain ⟨block, data, anchor, found, inOrder, down⟩ := inFront
  rw [replaces.block_eq, map_eq_ok] at found
  obtain ⟨old, foundOld, rfl⟩ := found
  -- An heir contains nothing, so that nothing else is behind anything for standing in it.
  have known : ∀ new, heir = some new → anchor ≠ new := by
    rintro new isHeir rfl
    rcases ReflTransGen.cases_head down with same | ⟨next, contains, -⟩
    · exact (older anchor isHeir).2 (Entity.op.inj same)
    · exact replaces.not_contains_heir isHeir contains
  refine ⟨block, old, anchor, foundOld, sublist_of_succession (fun new isHeir => ?_) inOrder, ?_⟩
  · simp [(older new isHeir).1, (known new isHeir).symm]
  · rcases reflTransGen_iff_eq_or_transGen.mp down with same | path
    · exact same ▸ .refl
    · refine (replaces.transGen_before (fun new isHeir same => ?_) path).to_reflTransGen
      exact (older new isHeir).2 (Entity.op.inj same).symm

end Replaces

/-- A rewrite outside an operation keeps the uses below that operation in order. -/
theorem Rewrite.usesInOrder {discarded : OpId → Prop} {op root : OpId} {ctx ctx' : Context}
    (rewrite : Rewrite op ctx ctx') (sound : Sound discarded ctx)
    (outside : ¬ ReflTransGen ctx.Contains (.op op) (.op root)) (ordered : ctx.UsesInOrder root) :
    ctx'.UsesInOrder root := by
  obtain ⟨heir, moved, replaces⟩ := rewrite.exists_replaces sound
  intro value use listed below
  obtain ⟨-, old, rfl, listedOld⟩ := (replaces.mem_usesOf_iff value use).mp listed
  -- The user was known before, so that it is not the heir.
  obtain ⟨user, foundUser, -⟩ :=
    Context.operand?_eq_some_iff.mp ((sound.uses.mem_iff old use).mp listedOld).1
  rcases replaces.reached sound outside below with ⟨new, isHeir, same⟩ | ⟨belowOld, apart⟩
  · cases same
    exact absurd (replaces.heir_eq isHeir).1 (Context.op_ne_next foundUser)
  · obtain ⟨data, known, inFront⟩ := ordered old use listedOld belowOld
    by_cases own : ∃ index, data.definition = .result op index
    · obtain ⟨index, defines⟩ := own
      obtain ⟨-, same, new, isHeir⟩ := replaces.moved_used listedOld known defines
      obtain ⟨-, -, -, result, -, -, -, -, -, foundResult, definesResult⟩ := replaces.heir_eq isHeir
      refine ⟨result, by rw [same, foundResult], fun successor place defines' => ?_⟩
      cases definesResult.symm.trans defines'
      exact replaces.precedes (inFront op index defines) apart (by rw [if_pos rfl, isHeir])
    · have other := not_exists.mp own
      have stays := replaces.moved_other known other
      refine ⟨data, by rw [stays, replaces.value_known known], fun definer index defines => ?_⟩
      have differs : definer ≠ op := fun same => other index (same ▸ defines)
      exact replaces.precedes (inFront definer index defines) apart (if_neg differs)

namespace Rewrites

variable {touched : OpId → Prop} {ctx ctx' : Context} {root op : OpId} {depth : Nat}

/-- What is within an operation does not come to contain it. -/
theorem outside (rewrites : Rewrites touched ctx ctx') (fits : ctx.Fits depth (.op root))
    (inside : ctx.Within root op) : ¬ ReflTransGen ctx'.Contains (.op op) (.op root) := by
  intro path
  rcases reflTransGen_iff_eq_or_transGen.mp path with same | down
  · cases same
    exact fits.not_within inside
  · -- The way down was there before, and would close a cycle or lead on from a new operation.
    obtain ⟨data, found⟩ := fits.exists_op
    have before := (rewrites.evolves.within (.inl down)).resolve_right
      (Nat.not_le.mpr (Context.index_lt_of_op found))
    rcases inside with above | new
    · exact fits.not_transGen (above.trans before)
    · obtain ⟨next, contains, -⟩ := TransGen.head'_iff.mp before
      obtain ⟨data, region, known, -, -⟩ := Context.contains_op.mp contains
      exact absurd (Context.index_lt_of_op known) (Nat.not_lt.mpr new)

/-- Rewrites within an operation keep a program sound and the uses below the operation in order. -/
theorem usesInOrder (rewrites : Rewrites (ctx.Within root) ctx ctx') {discarded : OpId → Prop}
    (sound : Sound discarded ctx) (fits : ctx.Fits depth (.op root))
    (ordered : ctx.UsesInOrder root) :
    (∃ discarded, Sound discarded ctx') ∧ ctx'.UsesInOrder root := by
  induction rewrites with
  | refl => exact ⟨⟨_, sound⟩, ordered⟩
  | tail before step ih =>
    -- Each rewrite keeps the order, because what is outside of the root stays outside.
    obtain ⟨⟨gone, soundMid⟩, orderedMid⟩ := ih
    obtain ⟨op, inside, rewrite⟩ := step
    have toMid : Rewrites (ctx.Within root) ctx _ := before
    exact ⟨⟨_, soundMid.rewrite rewrite⟩,
      rewrite.usesInOrder soundMid (toMid.outside fits inside) orderedMid⟩

end Rewrites

end NestedIR
