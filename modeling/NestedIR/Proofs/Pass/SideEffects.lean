import NestedIR.Proofs.Pass.Optimization

/-! A side effect is lost only together with an operation around it that passes for pure. -/

namespace NestedIR

open Relation

namespace Condenses

variable {discarded : OpId → Prop} {root : OpId} {heir : OpId → Option OpId} {ctx ctx' : Context}

/-- A block lists a known operation as long as it listed it before and the operation stays. -/
theorem contains_block_iff (condenses : Condenses root heir ctx ctx')
    (sound : Sound discarded ctx) {block : BlockId} {op : OpId} (old : op.index < ctx.ops.size) :
    ctx'.Contains (.block block) (.op op) ↔
      ctx.Contains (.block block) (.op op) ∧ heir op = some op := by
  simp only [Context.contains_block, condenses.block_eq, map_eq_ok]
  constructor
  · intro contains
    obtain ⟨data, member, ⟨before, found, rfl⟩, listed, same⟩ := contains
    cases same
    obtain ⟨other, inBefore, isHeir⟩ := List.mem_filterMap.mp listed
    obtain ⟨data, foundOther, -⟩ := sound.ops.recorded found inBefore
    -- An operation that is known takes the place of no other one.
    rcases condenses.heir_known foundOther with stays |
      ⟨-, ⟨-, goes⟩ | ⟨-, new, -, folded, isNew, -⟩⟩
    · cases stays.symm.trans isHeir
      exact ⟨⟨before, op, found, inBefore, rfl⟩, stays⟩
    · cases goes.symm.trans isHeir
    · cases folded.symm.trans isHeir
      omega
  · intro both
    obtain ⟨⟨before, member, found, inBefore, same⟩, stays⟩ := both
    cases same
    exact ⟨_, op, ⟨before, found, rfl⟩, List.mem_filterMap.mpr ⟨op, inBefore, stays⟩, rfl⟩

/-- A known entity is contained as long as it was before, and stays if it is an operation. -/
theorem contains_iff (condenses : Condenses root heir ctx ctx') (sound : Sound discarded ctx)
    {outer inner : Entity} (old : ∀ op, inner = .op op → op.index < ctx.ops.size) :
    ctx'.Contains outer inner ↔
      ctx.Contains outer inner ∧ ∀ op, inner = .op op → heir op = some op := by
  cases outer with
  | op op =>
    -- A new operation has no regions, and an old one has those that it had.
    simp only [Context.contains_op]
    constructor
    · intro contains
      obtain ⟨data, region, found, listed, rfl⟩ := contains
      by_cases known : op.index < ctx.ops.size
      · obtain ⟨before, foundBefore⟩ := Context.exists_op_of_lt known
        obtain ⟨operands, -, found'⟩ := condenses.op_known foundBefore
        cases found.symm.trans found'
        exact ⟨⟨before, region, foundBefore, listed, rfl⟩, by simp⟩
      · rw [(condenses.op_new found (Nat.not_lt.mp known)).2] at listed
        cases listed
    · intro both
      obtain ⟨⟨before, region, foundBefore, listed, rfl⟩, -⟩ := both
      obtain ⟨operands, -, found'⟩ := condenses.op_known foundBefore
      exact ⟨_, region, found', listed, rfl⟩
  | region region =>
    -- Regions stay as they are, and only blocks lose operations.
    simp only [Context.contains_region, Context.region_congr condenses.regions_eq]
    constructor
    · intro contains
      obtain ⟨data, block, found, listed, rfl⟩ := contains
      exact ⟨⟨data, block, found, listed, rfl⟩, by simp⟩
    · exact And.left
  | block block =>
    cases inner with
    | op op => simpa using condenses.contains_block_iff sound (old op rfl)
    | region region => simp [Context.contains_block]
    | block other => simp [Context.contains_block]

/-- What contains something that is known is known. -/
theorem lt_size_of_contains {outer inner : Entity} (contains : ctx.Contains outer inner) (op : OpId)
    (isOp : outer = .op op) : op.index < ctx.ops.size := by
  subst isOp
  obtain ⟨data, region, found, -⟩ := Context.contains_op.mp contains
  exact Context.index_lt_of_op found

/-- What is known is below the root as long as it was before and everything around it stays. -/
theorem transGen_iff (condenses : Condenses root heir ctx ctx') (sound : Sound discarded ctx)
    (acyclic : ¬ TransGen ctx.Contains (.op root) (.op root)) {inner : Entity}
    (old : ∀ op, inner = .op op → op.index < ctx.ops.size) :
    TransGen ctx'.Contains (.op root) inner ↔ TransGen ctx.Contains (.op root) inner ∧
      ∀ outer, TransGen ctx.Contains (.op root) (.op outer) →
        ReflTransGen ctx.Contains (.op outer) inner → heir outer = some outer := by
  constructor
  · intro path
    -- What is around a member is around its only owner as well, or is the member itself.
    have grown {outer inner : Entity} (contains : ctx.Contains outer inner)
        (stays : ∀ op, inner = .op op → heir op = some op)
        (above : ∀ around, TransGen ctx.Contains (.op root) (.op around) →
          ReflTransGen ctx.Contains (.op around) outer → heir around = some around)
        (around : OpId) (below : TransGen ctx.Contains (.op root) (.op around))
        (down : ReflTransGen ctx.Contains (.op around) inner) : heir around = some around := by
      rcases ReflTransGen.cases_tail down with same | ⟨between, toBetween, last⟩
      · exact stays around same
      · exact above around below (sound.owner_unique last contains ▸ toBetween)
    induction path with
    | single step =>
      obtain ⟨contains, stays⟩ := (condenses.contains_iff sound old).mp step
      refine ⟨.single contains, grown contains stays fun around below back => ?_⟩
      exact absurd (below.trans_left back) acyclic
    | tail _ step ih =>
      obtain ⟨contains, stays⟩ := (condenses.contains_iff sound old).mp step
      obtain ⟨before, above⟩ := ih (lt_size_of_contains contains)
      exact ⟨before.tail contains, grown contains stays above⟩
  · intro both
    obtain ⟨path, stay⟩ := both
    -- The way down is followed step by step, since everything on it stays.
    induction path with
    | single step =>
      refine .single ((condenses.contains_iff sound old).mpr ⟨step, fun op same => ?_⟩)
      subst same
      exact stay op (.single step) .refl
    | tail before step ih =>
      have above := ih (lt_size_of_contains step) fun around below down =>
        stay around below (down.tail step)
      refine above.tail ((condenses.contains_iff sound old).mpr ⟨step, fun op same => ?_⟩)
      subst same
      exact stay op (before.tail step) .refl

/-- An operation in a block is in a block afterwards as long as it stays. -/
theorem attached_iff (condenses : Condenses root heir ctx ctx') {op : OpId}
    (attached : ctx.Attached op) : ctx'.Attached op ↔ heir op = some op := by
  -- Condensing changes the block that an operation is in only if it takes the operation out.
  obtain ⟨data, block, found, owner⟩ := attached
  obtain ⟨operands, -, found'⟩ := condenses.op_known found
  constructor
  · intro after
    obtain ⟨data', block', foundToo, owner'⟩ := after
    cases found'.symm.trans foundToo
    exact Classical.byContradiction fun goes => by simp [goes] at owner'
  · intro stays
    exact ⟨_, block, found', by simp [stays, owner]⟩

end Condenses

namespace Context

/--
What becomes of the side effects below an operation.

An operation with side effects stays where it is, unless a pure operation around it is lost.
-/
structure KeepsEffects (root : OpId) (ctx ctx' : Context) : Prop where
  /-- A block goes on listing what may have side effects. -/
  place : ∀ {block op data}, ctx.op op = .ok data → ¬ data.isPure →
    ctx.Contains (.block block) (.op op) → ctx'.Contains (.block block) (.op op)
  /-- What may have side effects is still below the root if everything around it is in a block. -/
  inside : ∀ {op data}, TransGen ctx.Contains (.op root) (.op op) → ctx.op op = .ok data →
    ¬ data.isPure → (TransGen ctx'.Contains (.op root) (.op op) ↔
      ∀ outer, TransGen ctx.Contains (.op root) (.op outer) →
        TransGen ctx.Contains (.op outer) (.op op) → ctx'.Attached outer)
  /-- Only a pure operation is taken out of its block. -/
  freed : ∀ {outer data}, TransGen ctx.Contains (.op root) (.op outer) →
    ctx.op outer = .ok data → ¬ ctx'.Attached outer → data.isPure

/-- Condensing a sound program keeps side effects as far as it keeps what is around them. -/
theorem KeepsEffects.of_condenses {discarded : OpId → Prop} {root : OpId}
    {heir : OpId → Option OpId} {ctx ctx' : Context} (condenses : Condenses root heir ctx ctx')
    (sound : Sound discarded ctx) (acyclic : ¬ TransGen ctx.Contains (.op root) (.op root)) :
    ctx.KeepsEffects root ctx' where
  place found impure contains :=
    (condenses.contains_block_iff sound (index_lt_of_op found)).mpr
      ⟨contains, condenses.heir_of_impure found impure⟩
  inside {op data} below found impure := by
    have old : ∀ other, Entity.op op = .op other → other.index < ctx.ops.size := by
      intro other same
      cases same
      exact index_lt_of_op found
    rw [condenses.transGen_iff sound acyclic old]
    constructor
    · intro both outer above down
      exact (condenses.attached_iff (sound.attached_below above)).mpr
        (both.2 outer above down.to_reflTransGen)
    · intro around
      refine ⟨below, fun outer above down => ?_⟩
      -- The operation itself stays because it is not pure.
      rcases reflTransGen_iff_eq_or_transGen.mp down with same | inner
      · cases same
        exact condenses.heir_of_impure found impure
      · exact (condenses.attached_iff (sound.attached_below above)).mp (around outer above inner)
  freed {outer data} above found free := by
    refine Classical.byContradiction fun impure => free ?_
    exact (condenses.attached_iff (sound.attached_below above)).mpr
      (condenses.heir_of_impure found impure)

/-- Where nothing pure contains what may have side effects, nothing of that kind is lost. -/
theorem KeepsEffects.transGen_of_bare {root : OpId} {ctx ctx' : Context}
    (keeps : ctx.KeepsEffects root ctx') {op : OpId} {data : Operation}
    (below : TransGen ctx.Contains (.op root) (.op op)) (found : ctx.op op = .ok data)
    (impure : ¬ data.isPure)
    (bare : ∀ outer around, TransGen ctx.Contains (.op root) (.op outer) →
      ctx.op outer = .ok around → around.isPure → ¬ TransGen ctx.Contains (.op outer) (.op op)) :
    TransGen ctx'.Contains (.op root) (.op op) := by
  refine (keeps.inside below found impure).mpr fun outer above down => ?_
  -- What is around an operation has regions, and is therefore known.
  obtain ⟨next, contains, -⟩ := TransGen.head'_iff.mp down
  obtain ⟨around, -, foundOuter, -⟩ := contains_op.mp contains
  refine Classical.byContradiction fun free => ?_
  exact bare outer around above foundOuter (keeps.freed above foundOuter free) down

/--
Where everything below an operation reads known values and nothing there is inside itself, both
passes come to an answer, and keep an operation that may have side effects below the root exactly if
they keep everything around it. What they do not keep is pure.
-/
theorem keepsEffects_of_build {requests : List Request} {ctx : Context}
    (plain : ∀ request ∈ requests, request.isEdit = false) (built : build requests = .ok ctx)
    {root : OpId} {data : Operation} (found : ctx.op root = .ok data)
    (acyclic : ctx.AcyclicBelow (.op root))
    (reads : ∀ op data value, TransGen ctx.Contains (.op root) (.op op) → ctx.op op = .ok data →
      value ∈ data.operands → ∃ known, ctx.value value = .ok known) :
    (∀ config, ∃ result ctx', DeadCode.eliminate config root ctx = .ok (result, ctx') ∧
      ctx.KeepsEffects root ctx') ∧
      ∀ {σ : Type} (config : Canonicalization.Config) (notes : σ), ∃ outcome ctx',
        (Canonicalization.pass config).run root (ctx, notes) = .ok (outcome, ctx', notes) ∧
          ctx.KeepsEffects root ctx' := by
  -- Nothing leads from outside back to the root, so that containment is kept around what stays.
  have sound := Sound.of_build plain built
  have outside := (fits_of_build plain built found acyclic).not_transGen
  constructor
  -- Dead code elimination condenses by its erasures.
  · intro config
    obtain ⟨result, ctx', gone, done, -, condenses⟩ :=
      exists_eliminated_condenses plain built found acyclic config
    exact ⟨result, ctx', done, .of_condenses condenses sound outside⟩
  -- Canonicalization condenses by its erasures and its folds.
  · intro σ config notes
    obtain ⟨outcome, ctx', heir, ran, condenses⟩ :=
      exists_canonicalized_condenses plain built found acyclic reads config notes
    exact ⟨outcome, ctx', ran, .of_condenses condenses sound outside⟩

/-- Requests for a function with two calls, one of them in the region of an unused constant. -/
def wrappedCall : List Request :=
  [.addOp { name := .bare "call" }, .addOp { name := .bare "call" }, .addBlock { ops := [⟨0⟩] },
    .addRegion { blocks := [⟨0⟩] },
    .addOp { name := OpKind.constant.opName, regions := [⟨0⟩] }, .addBlock { ops := [⟨1⟩, ⟨2⟩] },
    .addRegion { blocks := [⟨1⟩] }, .addOp { name := OpKind.func.opName, regions := [⟨1⟩] }]

/-- The calls stand below the function, which reads nothing and is not inside itself. -/
theorem exists_wrappedCall : ∃ ctx, build wrappedCall = .ok ctx ∧
    (∃ data, ctx.op ⟨3⟩ = .ok data) ∧ ctx.AcyclicBelow (.op ⟨3⟩) ∧
    (∀ op data value, TransGen ctx.Contains (.op ⟨3⟩) (.op op) → ctx.op op = .ok data →
      value ∈ data.operands → ∃ known, ctx.value value = .ok known) ∧
    (∃ data, ctx.op ⟨0⟩ = .ok data ∧ ¬ data.isPure) ∧
    TransGen ctx.Contains (.op ⟨3⟩) (.op ⟨0⟩) := by
  -- No operation has operands, and the listing shows what is around the call.
  obtain ⟨ctx, built, found, empty, call, listed⟩ : ∃ ctx, build wrappedCall = .ok ctx ∧
      (∃ data, ctx.op ⟨3⟩ = .ok data) ∧ (∀ data ∈ ctx.ops.toList, data.operands = []) ∧
      (∃ data, ctx.op ⟨0⟩ = .ok data ∧ ¬ data.isPure) ∧
      ctx.preorder (.op ⟨3⟩) = .ok [.op ⟨3⟩, .region ⟨1⟩, .block ⟨1⟩, .op ⟨1⟩, .op ⟨2⟩,
        .region ⟨0⟩, .block ⟨0⟩, .op ⟨0⟩] :=
    ⟨_, rfl, ⟨_, rfl⟩, by decide +kernel, ⟨_, rfl, by decide⟩, rfl⟩
  refine ⟨ctx, built, found, (preorder_ok_iff.mp ⟨_, listed⟩).2, ?_, call, ?_⟩
  · intro op data value _ foundOp read
    rw [empty data (mem_ops_of_op foundOp)] at read
    cases read
  · have inside : ReflTransGen ctx.Contains (.op ⟨3⟩) (.op ⟨0⟩) :=
      (mem_preorderWithin_iff listed).mp (by simp)
    exact (reflTransGen_iff_eq_or_transGen.mp inside).resolve_left (by simp)

/-- Both passes keep the call that nothing pure is around. -/
theorem keepsEffects_of_build_wrappedCall :
    (∀ request ∈ wrappedCall, request.isEdit = false) ∧ ∃ ctx, build wrappedCall = .ok ctx ∧
      (∃ data, ctx.op ⟨3⟩ = .ok data) ∧ ctx.AcyclicBelow (.op ⟨3⟩) ∧
      (∀ op data value, TransGen ctx.Contains (.op ⟨3⟩) (.op op) → ctx.op op = .ok data →
        value ∈ data.operands → ∃ known, ctx.value value = .ok known) ∧
      (∃ result ctx', DeadCode.eliminate {} ⟨3⟩ ctx = .ok (result, ctx') ∧
        ctx.KeepsEffects ⟨3⟩ ctx') ∧
      ∃ outcome ctx', (Canonicalization.pass {}).run ⟨3⟩ (ctx, ()) = .ok (outcome, ctx', ()) ∧
        ctx.KeepsEffects ⟨3⟩ ctx' := by
  have plain : ∀ request ∈ wrappedCall, request.isEdit = false := by decide
  -- Both passes are run on the function with their default configurations.
  obtain ⟨ctx, built, ⟨data, found⟩, acyclic, reads, -⟩ := exists_wrappedCall
  obtain ⟨eliminates, canonicalizes⟩ := keepsEffects_of_build plain built found acyclic reads
  exact ⟨plain, ctx, built, ⟨data, found⟩, acyclic, reads, eliminates {}, canonicalizes {} ()⟩

/-- Both passes lose the call that is in the region of the unused constant. -/
theorem not_inside_wrappedCall :
    (∀ request ∈ wrappedCall, request.isEdit = false) ∧ ∃ ctx, build wrappedCall = .ok ctx ∧
      ctx.AcyclicBelow (.op ⟨3⟩) ∧
      (∀ op data value, TransGen ctx.Contains (.op ⟨3⟩) (.op op) → ctx.op op = .ok data →
        value ∈ data.operands → ∃ known, ctx.value value = .ok known) ∧
      (∃ data, ctx.op ⟨0⟩ = .ok data ∧ ¬ data.isPure) ∧
      TransGen ctx.Contains (.op ⟨3⟩) (.op ⟨0⟩) ∧
      (∃ ctx', DeadCode.eliminate {} ⟨3⟩ ctx = .ok (⟨1, 2, true⟩, ctx') ∧
        ¬ TransGen ctx'.Contains (.op ⟨3⟩) (.op ⟨0⟩)) ∧
      ∃ ctx', (Canonicalization.pass {}).run ⟨3⟩ (ctx, ()) = .ok (.ok (), ctx', ()) ∧
        ¬ TransGen ctx'.Contains (.op ⟨3⟩) (.op ⟨0⟩) := by
  -- Both passes are run, and what is left below the function is listed.
  have ran : (build wrappedCall >>= fun ctx => DeadCode.eliminate {} ⟨3⟩ ctx >>= fun swept =>
      (Canonicalization.pass {}).run ⟨3⟩ (ctx, ()) >>= fun visited =>
        swept.2.preorder (.op ⟨3⟩) >>= fun left =>
          (visited.2.1.preorder (.op ⟨3⟩)).map fun last => (swept.1, left, visited.1, last)) =
      .ok (⟨1, 2, true⟩, [.op ⟨3⟩, .region ⟨1⟩, .block ⟨1⟩, .op ⟨1⟩], .ok (),
        [.op ⟨3⟩, .region ⟨1⟩, .block ⟨1⟩, .op ⟨1⟩]) := by decide +kernel
  obtain ⟨ctx, built, ran⟩ := bind_eq_ok.mp ran
  obtain ⟨⟨result, swept⟩, eliminated, ran⟩ := bind_eq_ok.mp ran
  obtain ⟨⟨outcome, visited, notes⟩, canonicalized, ran⟩ := bind_eq_ok.mp ran
  obtain ⟨left, listed, ran⟩ := bind_eq_ok.mp ran
  obtain ⟨last, listedToo, same⟩ := map_eq_ok.mp ran
  cases same
  obtain ⟨again, builtAgain, -, acyclic, reads, call, inside⟩ := exists_wrappedCall
  cases built.symm.trans builtAgain
  have lost {ctx' : Context} (listed : ctx'.preorder (.op ⟨3⟩) =
      .ok [.op ⟨3⟩, .region ⟨1⟩, .block ⟨1⟩, .op ⟨1⟩]) :
      ¬ TransGen ctx'.Contains (.op ⟨3⟩) (.op ⟨0⟩) := by
    intro path
    have member := (mem_preorderWithin_iff listed).mpr path.to_reflTransGen
    simp at member
  exact ⟨by decide, ctx, built, acyclic, reads, call, inside, ⟨swept, eliminated, lost listed⟩,
    visited, canonicalized, lost listedToo⟩

end Context

end NestedIR
