import Mathlib.Data.List.Chain
import NestedIR.Inspection.Report
import NestedIR.Proofs.Pass.Invocation
import NestedIR.Proofs.Pass.Targets

/-! How canonicalizing every function of a program ends, and when its visits are enough. -/

namespace NestedIR

open Relation

/-- What is below an operation reads block arguments, and results of what stands in front of it. -/
def Context.ReadsDefined (ctx : Context) (root : OpId) : Prop :=
  ∀ op data value, TransGen ctx.Contains (.op root) (.op op) → ctx.op op = .ok data →
    value ∈ data.operands → ∃ known, ctx.value value = .ok known ∧
      ∀ definer index, known.definition = .result definer index → ctx.Precedes definer op

/-- Whether all operands are block arguments, or defined in front of their readers in a block. -/
def Context.readsInBlocks (ctx : Context) : Bool :=
  ctx.ops.toList.zipIdx.all fun (data, place) => data.operands.all fun value =>
    match ctx.value value with
    | .error _ => false
    | .ok known =>
      match known.definition with
      | .argument .. => true
      | .result definer _ =>
        ctx.blocks.toList.any fun block => [definer, ⟨place⟩].isSublist block.ops

/-- Operands that are defined in the block of their reader are defined in front of it. -/
theorem Context.readsDefined_of_readsInBlocks {ctx : Context} (checked : ctx.readsInBlocks = true)
    (root : OpId) : ctx.ReadsDefined root := by
  intro op data value _ found read
  have stored := List.all_eq_true.mp checked _ (mem_zipIdx_of_op found)
  have here := List.all_eq_true.mp stored value read
  split at here
  · cases here
  · rename_i known foundValue
    refine ⟨known, foundValue, fun definer index defines => ?_⟩
    -- The list in which both stand is that of the block at its place.
    rw [defines] at here
    obtain ⟨block, listed, inFront⟩ := List.any_eq_true.mp here
    obtain ⟨place, foundBlock⟩ := List.mem_iff_getElem?.mp listed
    exact ⟨⟨place⟩, block, op, block_eq_ok_iff.mpr (by simpa using foundBlock),
      List.isSublist_iff_sublist.mp inFront, .refl⟩

/-- Where operations only feed newer ones, a chain is no longer than there are pure operations. -/
theorem Context.PureChain.length_le {ctx : Context} {root : OpId} {ops : List OpId} {bound : Nat}
    (chain : ctx.PureChain root ops)
    (newer : ∀ entry ∈ ctx.ops.toList.zipIdx, ∀ value ∈ entry.1.results, ∀ use ∈ ctx.usesOf value,
      entry.2 < use.user.index)
    (bounded : ∀ entry ∈ ctx.ops.toList.zipIdx, entry.1.isPure = true → entry.2 < bound) :
    ops.length ≤ bound := by
  -- The places of the operations increase along the chain, so that they are distinct.
  have increasing : (ops.map OpId.index).IsChain (· < ·) := by
    refine (List.isChain_map _).mpr (chain.feeds.imp fun definer user feeds => ?_)
    obtain ⟨data, found, value, inResults, use, listed, rfl⟩ := feeds
    exact newer _ (mem_zipIdx_of_op found) value inResults use listed
  have distinct : (ops.map OpId.index).Nodup := increasing.pairwise.imp Nat.ne_of_lt
  have within : ops.map OpId.index ⊆ List.range bound := by
    intro place listed
    obtain ⟨op, member, rfl⟩ := List.mem_map.mp listed
    obtain ⟨-, data, found, isPure⟩ := chain.pure op member
    exact List.mem_range.mpr (bounded _ (mem_zipIdx_of_op found) isPure)
  simpa using distinct.length_le_of_subset within

/-- Where what is below an operation reads what is defined, visits come to an answer. -/
theorem Ready.of_build {requests : List Request} {ctx : Context}
    (plain : ∀ request ∈ requests, request.isEdit = false)
    (built : Context.build requests = .ok ctx) {root : OpId} {data : Operation}
    (found : ctx.op root = .ok data)
    (acyclic : ctx.AcyclicBelow (.op root)) (defined : ctx.ReadsDefined root) : Ready root ctx where
  sound := ⟨_, .of_build plain built⟩
  ordered value use listed below := by
    -- A chain lists what its user reads.
    have sound := Sound.of_build plain built
    obtain ⟨data, found, held⟩ :=
      Context.operand?_eq_some_iff.mp ((sound.uses.mem_iff value use).mp listed).1
    exact defined use.user data value below found (List.mem_of_getElem? held)
  reads op inside data value found read := by
    have below := inside.resolve_right (Nat.not_le.mpr (Context.index_lt_of_op found))
    obtain ⟨known, foundValue, -⟩ := defined op data value below found read
    exact .inl ⟨known, foundValue⟩
  fits := Context.fits_of_build plain built found acyclic

section Run

variable {σ : Type} {ctx ctx' : Context} {root : OpId} {notes : σ}

/-- A pipeline of one pass ends as the pass does, and names it when it fails. -/
theorem Pipeline.run_singleton {pass : Pass σ} {ended : Outcome}
    (ran : pass.run root (ctx, notes) = .ok (ended, ctx', notes)) :
    (Pipeline.mk [pass]).run root (ctx, notes) =
      .ok (ended.mapError (Failure.mk 0 pass.name), ctx', notes) := by
  show (pass.run root (ctx, notes) >>= _) = _
  rw [ran]
  cases ended <;> rfl

end Run

namespace Inspection

variable {σ : Type} {requests : List Request} {ctx : Context} {root : OpId} {data : Operation}

/--
Where what is below an operation reads only what is defined in front of it, the default pipeline
comes to an answer. It succeeds, or a canonicalization has run out of visits.

It succeeds where nothing in an outermost function is erased only after nine visits, and only there
if all uses are of known values. What is folded is folded in the first visit, so that it takes ten
pure operations of which each uses a result of the one before to run out of visits.
-/
theorem run_defaultPipeline_of_build (plain : ∀ request ∈ requests, request.isEdit = false)
    (built : Context.build requests = .ok ctx) (found : ctx.op root = .ok data)
    (acyclic : ctx.AcyclicBelow (.op root)) (defined : ctx.ReadsDefined root) (notes : σ) :
    ∃ targets ended ctx', ctx.outermost .func root = .ok targets ∧
      defaultPipeline.run root (ctx, notes) = .ok (ended, ctx', notes) ∧
      (ended = .ok () ∨ ended = .error ⟨0, "func(canonicalize)",
        ⟨"canonicalize did not converge within 10 iterations"⟩⟩) ∧
      ((∀ target ∈ targets, ¬ ctx.LastsBeyond target 9) → ended = .ok ()) ∧
      (ctx.UsesKnown → ended = .ok () → ∀ target ∈ targets, ¬ ctx.LastsBeyond target 9) ∧
      ((∀ ops, ctx.PureChain root ops → ops.length < 10) → ended = .ok ()) := by
  have ready : Ready root ctx := .of_build plain built found acyclic defined
  obtain ⟨gone, sound⟩ := ready.sound
  have collected : ∃ targets, ctx.outermost .func root = .ok targets :=
    Context.exists_outermost ready.fits
  obtain ⟨targets, outermost⟩ := collected
  obtain ⟨below, apart⟩ := Context.targetsBelow_of_outermost sound ready.fits outermost
  have separate : Separate root targets ctx := ⟨ready, below, apart⟩
  have limit : ({} : Canonicalization.Config).maxIterations = 9 + 1 := rfl
  obtain ⟨ended, ctx', ran, either, ends, lasts⟩ :=
    Canonicalization.exists_runEach separate limit (by decide) notes
  refine ⟨targets, ended.mapError (.mk 0 "func(canonicalize)"), ctx', outermost, ?_, ?_, ?_, ?_, ?_⟩
  · exact Pipeline.run_singleton ((Pass.run_nested outermost).trans ran)
  · rcases either with rfl | rfl
    · exact .inl rfl
    · exact .inr rfl
  · intro none
    rw [ends none]
    rfl
  · intro known succeeded
    refine lasts known ?_
    cases ended with
    | ok done => rfl
    | error failure => cases succeeded
  · intro short
    rw [ends fun target listed left => ?_]
    · rfl
    · -- What lasts beyond nine visits in a target is a chain of ten below the root.
      obtain ⟨ops, length, chain⟩ := left.exists_pureChain
      exact absurd (short ops (chain.of_below (below target listed))) (by omega)

/-- Requests for a module whose function adds a number to itself, the sum to itself, and so on. -/
def additionChain (length : Nat) : List Request :=
  [.internType (.integer 32), .addBlock { argumentTypes := [⟨0⟩] }] ++
    (List.range length).map (fun place => .addOp
      { name := OpKind.addi.opName, operands := [⟨place⟩, ⟨place⟩], resultTypes := [⟨0⟩] }) ++
    (List.range length).map (fun place => .appendOp ⟨0⟩ ⟨place⟩) ++
    [.addRegion { blocks := [⟨0⟩] }, .addOp { name := OpKind.func.opName, regions := [⟨0⟩] },
      .addBlock { ops := [⟨length⟩] }, .addRegion { blocks := [⟨1⟩] },
      .addOp { name := OpKind.module.opName, regions := [⟨1⟩] }]

/-- Nine dead additions in a row are erased one by one, and the default pipeline succeeds. -/
theorem run_defaultPipeline_of_build_nineAdditions :
    (∀ request ∈ additionChain 9, request.isEdit = false) ∧
      ∃ ctx, Context.build (additionChain 9) = .ok ctx ∧ (∃ data, ctx.op ⟨10⟩ = .ok data) ∧
        ctx.AcyclicBelow (.op ⟨10⟩) ∧ ctx.ReadsDefined ⟨10⟩ ∧
        (∀ ops, ctx.PureChain ⟨10⟩ ops → ops.length < 10) ∧
        ∃ ctx', defaultPipeline.run ⟨10⟩ (ctx, ()) = .ok (.ok (), ctx', ()) := by
  have plain : ∀ request ∈ additionChain 9, request.isEdit = false := by decide
  obtain ⟨ctx, built, ⟨data, found⟩, listed, checked, newer, bounded⟩ :
      ∃ ctx, Context.build (additionChain 9) = .ok ctx ∧ (∃ data, ctx.op ⟨10⟩ = .ok data) ∧
        (∃ listing, ctx.preorder (.op ⟨10⟩) = .ok listing) ∧ ctx.readsInBlocks = true ∧
        (∀ entry ∈ ctx.ops.toList.zipIdx, ∀ value ∈ entry.1.results, ∀ use ∈ ctx.usesOf value,
          entry.2 < use.user.index) ∧
        ∀ entry ∈ ctx.ops.toList.zipIdx, entry.1.isPure = true → entry.2 < 9 :=
    ⟨_, rfl, ⟨_, rfl⟩, ⟨_, rfl⟩, by decide +kernel, by decide +kernel, by decide +kernel⟩
  have acyclic := (Context.preorder_ok_iff.mp listed).2
  have defined := Context.readsDefined_of_readsInBlocks checked ⟨10⟩
  -- There are only nine pure operations, and none of them feeds an older one.
  have short : ∀ ops, ctx.PureChain ⟨10⟩ ops → ops.length < 10 :=
    fun ops chain => Nat.lt_succ_of_le (chain.length_le newer bounded)
  obtain ⟨targets, ended, ctx', -, ran, -, -, -, succeeds⟩ :=
    run_defaultPipeline_of_build plain built found acyclic defined ()
  cases succeeds short
  exact ⟨plain, ctx, built, ⟨data, found⟩, acyclic, defined, short, ctx', ran⟩

/-- Ten dead additions in a row pass verification, but the default pipeline runs out of visits. -/
theorem not_converged_tenAdditions :
    (∀ request ∈ additionChain 10, request.isEdit = false) ∧
      ∃ ctx, Context.build (additionChain 10) = .ok ctx ∧ (∃ data, ctx.op ⟨11⟩ = .ok data) ∧
        ctx.AcyclicBelow (.op ⟨11⟩) ∧ Verification.violations ctx ⟨11⟩ = .ok [] ∧
        ctx.ReadsDefined ⟨11⟩ ∧
        ∃ ctx', defaultPipeline.run ⟨11⟩ (ctx, ()) = .ok (.error ⟨0, "func(canonicalize)",
          ⟨"canonicalize did not converge within 10 iterations"⟩⟩, ctx', ()) := by
  obtain ⟨ctx, built, known, listed, verified, checked, failed⟩ :
      ∃ ctx, Context.build (additionChain 10) = .ok ctx ∧ (∃ data, ctx.op ⟨11⟩ = .ok data) ∧
        (∃ listing, ctx.preorder (.op ⟨11⟩) = .ok listing) ∧
        Verification.violations ctx ⟨11⟩ = .ok [] ∧ ctx.readsInBlocks = true ∧
        (defaultPipeline.run ⟨11⟩ (ctx, ())).map Prod.fst = .ok (.error ⟨0, "func(canonicalize)",
          ⟨"canonicalize did not converge within 10 iterations"⟩⟩) :=
    ⟨_, rfl, ⟨_, rfl⟩, ⟨_, rfl⟩, rfl, by decide +kernel, by decide +kernel⟩
  refine ⟨by decide, ctx, built, known, (Context.preorder_ok_iff.mp listed).2, verified,
    Context.readsDefined_of_readsInBlocks checked ⟨11⟩, ?_⟩
  -- How the run ends is computed, and the program that it leaves is not shown.
  cases ran : defaultPipeline.run ⟨11⟩ (ctx, ()) with
  | error fault =>
    rw [ran] at failed
    cases failed
  | ok answer =>
    rw [ran] at failed
    obtain ⟨ended, ctx', notes⟩ := answer
    cases failed
    exact ⟨ctx', rfl⟩

end Inspection

end NestedIR
