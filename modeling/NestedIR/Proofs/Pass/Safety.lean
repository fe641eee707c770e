import NestedIR.Proofs.Pass.Canonicalization
import NestedIR.Proofs.Pass.DeadCode
import NestedIR.Proofs.Pass.Preservation
import NestedIR.Proofs.Pass.Rules

/-! Passes come to an answer on verified programs, and leave them verified. -/

namespace NestedIR

open Relation

variable {touched : OpId → Prop} {ctx ctx' : Context} {root : OpId}

namespace Verification

/-- An operation that obeys the rules still does so after rewrites. -/
theorem Rules.rewrites {op : OpId} (rules : Rules ctx (fun _ => True) op)
    (rewrites : Rewrites touched ctx ctx') : Rules ctx' (fun _ => True) op := by
  have evolves := rewrites.evolves
  obtain ⟨data, found, regions⟩ := rules
  obtain ⟨operands, owner, found', -⟩ := evolves.op_known found
  refine ⟨_, found', fun region inRegions => ?_⟩
  obtain ⟨listed, known, records, blocks⟩ := regions region inRegions
  have known' : ctx'.region region = .ok listed := by
    rw [Context.region_congr evolves.regions_eq, known]
  refine ⟨listed, known', records, fun block inBlocks => ?_⟩
  obtain ⟨target, knownBlock, recordsBlock, places⟩ := blocks block inBlocks
  obtain ⟨ops, knownBlock', -⟩ := evolves.block_known knownBlock
  refine ⟨_, knownBlock', recordsBlock, fun inner rest suffix => ?_⟩
  -- What stands in the block is a new operation without successors, or stood there before.
  have place := rewrites.keepsPlaces block target _ inner rest knownBlock knownBlock' suffix
  rcases place with ⟨new, foundNew, owner, branches⟩ | ⟨after, inOld, ends, kept⟩
  · exact ⟨new, foundNew, ⟨owner, .inl branches, by simp [branches]⟩, trivial⟩
  · obtain ⟨placed, foundInner, rulesInner, -⟩ := places inner after inOld
    obtain ⟨operands, foundInner'⟩ := kept placed foundInner rulesInner.owner
    have last := rulesInner.last.imp_right ends
    exact ⟨_, foundInner', ⟨rulesInner.owner, last, rulesInner.targets⟩, trivial⟩

/-- What is in a block below an operation records that block where all rules hold. -/
theorem RulesBelow.ownedBelow (rules : RulesBelow ctx root) : ctx.OwnedBelow root := by
  intro block data op down found listed
  -- The block is enclosed by an operation that obeys the rules.
  obtain ⟨last, nested, encloses⟩ := Context.leads_of_transGen down
  have holds : ctx.Holds last block op :=
    ⟨encloses, Context.contains_block.mpr ⟨data, op, found, listed, rfl⟩⟩
  exact ((rules last (Context.reflTransGen_of_nests nested)).of_holds holds).2

/-- Verification still finds nothing after rewrites. -/
theorem violations_rewrites (verified : violations ctx root = .ok [])
    (rewrites : Rewrites touched ctx ctx') : violations ctx' root = .ok [] := by
  obtain ⟨acyclic, rules⟩ := violations_eq_nil_iff.mp verified
  have evolves := rewrites.evolves
  have fits := evolves.fits (Context.fits_depthBound rules.known acyclic)
  obtain ⟨known', acyclic'⟩ := fits.below
  refine violations_eq_nil_iff.mpr ⟨acyclic', fun op down => ?_⟩
  have kept (old : ReflTransGen ctx.Contains (.op root) (.op op)) :
      Rules ctx' (fun _ => True) op := (rules op old).rewrites rewrites
  -- What is reached now was reached before, or it is new and lists nothing.
  rcases reflTransGen_iff_eq_or_transGen.mp down with same | path
  · cases same
    exact kept .refl
  · rcases evolves.transGen_contains path with old | ⟨fresh, same, new⟩
    · exact kept old.to_reflTransGen
    · cases same
      obtain ⟨listed, members⟩ := known' _ down
      obtain ⟨data, found, -⟩ := bind_eq_ok.mp members
      refine ⟨data, found, fun region inRegions => ?_⟩
      rw [(evolves.op_new found new).1] at inRegions
      cases inRegions

end Verification

namespace Context

/--
Requests without direct edits turn one program into another, and none of them is refused.

At any time between them, what a chain lists is an operand slot that holds the value.
-/
def RunsTo (ctx ctx' : Context) : Prop :=
  ∃ requests, (∀ request ∈ requests, request.isEdit = false) ∧ ctx.performAll requests = .ok ctx' ∧
    ∀ earlier later mid, requests = earlier ++ later → ctx.performAll earlier = .ok mid →
      ∀ value use, use ∈ mid.usesOf value → mid.operand? use = some value

/-- One program becomes another without a refused request, and stays verified and acyclic. -/
structure KeepsVerified (root : OpId) (ctx ctx' : Context) : Prop where
  /-- No request on the way is refused, and no chain names a slot that is not there. -/
  runs : ctx.RunsTo ctx'
  /-- Verification finds nothing. -/
  verified : Verification.violations ctx' root = .ok []
  /-- Nothing below the operation is inside itself. -/
  acyclic : ctx'.AcyclicBelow (.op root)

end Context

/-- Rewrites are requests, none of which edits an operation directly. -/
theorem Rewrites.exists_performAll (rewrites : Rewrites touched ctx ctx') :
    ∃ requests, (∀ request ∈ requests, request.isEdit = false) ∧
      ctx.performAll requests = .ok ctx' := by
  induction rewrites with
  | refl => exact ⟨[], by simp, rfl⟩
  | tail _ step ih =>
    -- The requests of the last rewrite come behind those of all others.
    obtain ⟨requests, plain, performed⟩ := ih
    obtain ⟨op, -, rewrite⟩ := step
    obtain ⟨more, plainMore, performedMore⟩ := rewrite.exists_performAll
    refine ⟨requests ++ more, fun request member => ?_,
      Context.performAll_append.mpr ⟨_, performed, performedMore⟩⟩
    rcases List.mem_append.mp member with member | member
    · exact plain request member
    · exact plainMore request member

/-- Rewrites of a consistent program find all slots that the chains list. -/
theorem Rewrites.runsTo (rewrites : Rewrites touched ctx ctx') (consistent : Consistent ctx) :
    ctx.RunsTo ctx' := by
  obtain ⟨requests, plain, performed⟩ := rewrites.exists_performAll
  refine ⟨requests, plain, performed, fun earlier later mid split performedMid => ?_⟩
  -- The program is consistent after any of the requests.
  have keep : ∀ request ∈ earlier, request.keepsUses := by
    intro request member
    have inAll : request ∈ requests := by simp [split, member]
    exact Request.keepsUses_of_plain (plain request inAll)
  obtain ⟨discarded, exact⟩ := (consistent.performAll keep performedMid).uses
  exact fun value use listed => ((exact.mem_iff value use).mp listed).1

/-- What rewrites make of a verified program may be relied on as it could before. -/
theorem Rewrites.keepsVerified (rewrites : Rewrites touched ctx ctx')
    (consistent : Consistent ctx) (verified : Verification.violations ctx root = .ok []) :
    ctx.KeepsVerified root ctx' := by
  have verified' := Verification.violations_rewrites verified rewrites
  have acyclic := (Verification.violations_eq_nil_iff.mp verified').1
  exact ⟨rewrites.runsTo consistent, verified', acyclic⟩

namespace Context

/--
Where verification finds nothing below an operation and what is inside it reads known values only,
both passes come to an answer under every configuration. They are not refused anything on the way,
and leave the program verified and acyclic. Direct edits may have come before.
-/
theorem keepsVerified_of_build {requests : List Request} {ctx : Context}
    (keep : ∀ request ∈ requests, request.keepsUses) (built : build requests = .ok ctx)
    {root : OpId} (verified : Verification.violations ctx root = .ok [])
    (reads : ∀ op data value, TransGen ctx.Contains (.op root) (.op op) → ctx.op op = .ok data →
      value ∈ data.operands → ∃ known, ctx.value value = .ok known) :
    (∀ config, ∃ result ctx', DeadCode.eliminate config root ctx = .ok (result, ctx') ∧
      ctx.KeepsVerified root ctx') ∧
      ∀ {σ : Type} (config : Canonicalization.Config) (notes : σ), ∃ outcome ctx',
        (Canonicalization.pass config).run root (ctx, notes) = .ok (outcome, ctx', notes) ∧
          ctx.KeepsVerified root ctx' := by
  have consistent := Consistent.of_build keep built
  obtain ⟨acyclic, rules⟩ := Verification.violations_eq_nil_iff.mp verified
  have fits := fits_depthBound rules.known acyclic
  have readsBelow : ctx.ReadsBelow (fun _ => False) root := by
    -- An operation that is not known reads nothing.
    intro op inside data value found listed
    have path := inside.resolve_right (Nat.not_le.mpr (index_lt_of_op found))
    exact .inl (reads op data value path found listed)
  constructor
  · intro config
    obtain ⟨result, ctx', done, rewrites⟩ := DeadCode.exists_eliminated config fits rules.ownedBelow
    exact ⟨result, ctx', done, rewrites.keepsVerified consistent verified⟩
  · intro σ config notes
    -- No fault at all is allowed, so that there is an answer.
    have meets : Meets (fun _ => False) (ctx.Within root) ctx
        (Canonicalization.iterate Canonicalization.builtinPatterns root config.maxIterations ctx) :=
      Meets.iterateBelow consistent readsBelow (.inr fits) config.maxIterations
    obtain ⟨result, ctx', done, rewrites⟩ := meets.exists_ok
    rw [Canonicalization.run_pass, done]
    exact ⟨_, ctx', rfl, rewrites.keepsVerified consistent verified⟩

/-- Requests and edits after which a block lists an addition twice, and it has a region. -/
def listedTwice : List Request :=
  [.internType (.integer 32), .addBlock {}, .addRegion { blocks := [⟨0⟩] },
    .addOp { name := OpKind.func.opName, regions := [⟨0⟩] },
    .addOp { name := .bare "number", resultTypes := [⟨0⟩] },
    .addOp { name := OpKind.addi.opName, operands := [⟨0⟩, ⟨0⟩], resultTypes := [⟨0⟩] },
    .addRegion { parentOp := some ⟨2⟩ }, .editOp ⟨2⟩ (.setRegions [⟨1⟩]), .appendOp ⟨0⟩ ⟨1⟩,
    .appendOp ⟨0⟩ ⟨2⟩, .editOp ⟨2⟩ (.setParentBlock none), .appendOp ⟨0⟩ ⟨2⟩,
    .editOp ⟨1⟩ (.setName OpKind.constant.opName), .editOp ⟨1⟩ (.setAttribute valueKey (.int 1))]

/-- Both passes come to an answer on the function with the addition, and leave it verified. -/
theorem keepsVerified_of_build_listedTwice :
    (∀ request ∈ listedTwice, request.keepsUses) ∧ ∃ ctx, build listedTwice = .ok ctx ∧
      Verification.violations ctx ⟨0⟩ = .ok [] ∧
      (∀ op data value, TransGen ctx.Contains (.op ⟨0⟩) (.op op) → ctx.op op = .ok data →
        value ∈ data.operands → ∃ known, ctx.value value = .ok known) ∧
      (∃ result ctx', DeadCode.eliminate {} ⟨0⟩ ctx = .ok (result, ctx') ∧
        ctx.KeepsVerified ⟨0⟩ ctx') ∧
      ∃ outcome ctx', (Canonicalization.pass {}).run ⟨0⟩ (ctx, ()) = .ok (outcome, ctx', ()) ∧
        ctx.KeepsVerified ⟨0⟩ ctx' := by
  have keep : ∀ request ∈ listedTwice, request.keepsUses := by decide
  -- The function is verified, and every operand is known by its number.
  obtain ⟨ctx, built, verified, inside⟩ : ∃ ctx, build listedTwice = .ok ctx ∧
      Verification.violations ctx ⟨0⟩ = .ok [] ∧
      ∀ data ∈ ctx.ops.toList, ∀ value ∈ data.operands, value.index < ctx.values.size :=
    ⟨_, rfl, by decide +kernel, by decide +kernel⟩
  have reads : ∀ op data value, TransGen ctx.Contains (.op ⟨0⟩) (.op op) → ctx.op op = .ok data →
      value ∈ data.operands → ∃ known, ctx.value value = .ok known := by
    intro op data value _ found read
    exact exists_value_of_lt (inside data (mem_ops_of_op found) value read)
  -- Both passes are run with their default configurations.
  obtain ⟨eliminates, canonicalizes⟩ := keepsVerified_of_build keep built verified reads
  exact ⟨keep, ctx, built, verified, reads, eliminates {}, canonicalizes {} ()⟩

end Context

end NestedIR
