import Mathlib.Data.List.Count
import NestedIR.Proofs.Context.Listing
import NestedIR.Proofs.Pass.Rules

/-! Verification makes owners unique, and a list that repeats an entry is all that it overlooks. -/

namespace NestedIR

open Relation

/-- Whether a direct change leaves the owner and the regions of an operation alone. -/
def OpEdit.keepsOwners : OpEdit → Bool
  | .setParentBlock _ => false
  | .setRegions _ => false
  | _ => true

/-- Whether a request changes owners together with lists, if it changes them. -/
def Request.keepsOwners : Request → Bool
  | .editOp _ edit => edit.keepsOwners
  | .replaceOp .. => false
  | _ => true

namespace Context

variable {ctx ctx' : Context}

/-- The owner that an entity records, if it records one. -/
def owner? (ctx : Context) : Entity → Except Fault (Option Entity)
  | .op op => return (← ctx.op op).parentBlock.map .block
  | .region region => return (← ctx.region region).parentOp.map .op
  | .block block => return (← ctx.block block).parentRegion.map .region

/-- An entity has a single owner below another one where it records what contains it. -/
theorem SingleOwners.of_owner? {entity : Entity}
    (records : ∀ outer inner, ReflTransGen ctx.Contains entity outer → ctx.Contains outer inner →
      ctx.owner? inner = .ok (some outer)) : ctx.SingleOwners entity := by
  -- No entity records two owners.
  intro outer other inner down path contains containsToo
  have same := (records outer inner down contains).symm.trans (records other inner path containsToo)
  cases same
  rfl

/-- Where owners and lists agree, an entity records what contains it. -/
theorem owner?_eq_of_owned (ops : OpsOwned ctx) (regions : RegionsOwned ctx)
    (blocks : BlocksOwned ctx) {outer inner : Entity} (contains : ctx.Contains outer inner) :
    ctx.owner? inner = .ok (some outer) := by
  -- Each kind of entity is listed by one other kind.
  cases outer with
  | op op =>
    obtain ⟨data, region, found, listed, rfl⟩ := contains_op.mp contains
    obtain ⟨owned, foundOwned, records⟩ := regions.recorded found listed
    exact bind_eq_ok.mpr ⟨owned, foundOwned, by rw [records]; rfl⟩
  | region region =>
    obtain ⟨data, block, found, listed, rfl⟩ := contains_region.mp contains
    obtain ⟨owned, foundOwned, records⟩ := blocks.recorded found listed
    exact bind_eq_ok.mpr ⟨owned, foundOwned, by rw [records]; rfl⟩
  | block block =>
    obtain ⟨data, op, found, listed, rfl⟩ := contains_block.mp contains
    obtain ⟨owned, foundOwned, records⟩ := ops.recorded found listed
    exact bind_eq_ok.mpr ⟨owned, foundOwned, by rw [records]; rfl⟩

/-- Owners and lists still agree after an operation has changed apart from both. -/
theorem owned_of_modifyOp (ops : OpsOwned ctx) (regions : RegionsOwned ctx) (op : OpId)
    {change : Operation → Operation}
    (sameOwner : ∀ data, (change data).parentBlock = data.parentBlock)
    (sameRegions : ∀ data, (change data).regions = data.regions) :
    OpsOwned (ctx.modifyOp op change) ∧ RegionsOwned (ctx.modifyOp op change) := by
  have after (other : OpId) := @op_modifyOp_eq_map ctx op other change
  have keepsOwner (other : OpId) (data : Operation) :
      (if other = op then change data else data).parentBlock = data.parentBlock := by
    split <;> simp [sameOwner]
  have keepsRegions (other : OpId) (data : Operation) :
      (if other = op then change data else data).regions = data.regions := by
    split <;> simp [sameRegions]
  -- Blocks list the same, and every operation records and lists the same.
  refine ⟨⟨ops.toOwned.mono (fun block data found => ⟨data, found, rfl⟩)
    (known_after_map _ after keepsOwner), ?_⟩, ?_⟩
  · intro other data block found records
    obtain ⟨old, foundOld, same⟩ :=
      known_before_map (fun data => data.parentBlock) after keepsOwner other data found
    exact ops.listed foundOld (same.symm.trans records)
  · exact regions.mono (known_before_map _ after keepsRegions)
      fun region data found => ⟨data, found, rfl⟩

/-- Owners and lists agree after any requests that change them together only. -/
theorem owned_of_keepsOwners {requests : List Request}
    (kept : ∀ request ∈ requests, request.keepsOwners) (built : build requests = .ok ctx) :
    OpsOwned ctx ∧ RegionsOwned ctx := by
  -- A direct edit among the requests leaves owners and regions alone.
  refine performAll_induction (motive := fun requests ctx =>
    (∀ request ∈ requests, request.keepsOwners) → OpsOwned ctx ∧ RegionsOwned ctx) ?_ ?_
    built kept
  · have nothing : build [] = .ok {} := rfl
    exact fun _ => owned_of_build (by simp) nothing
  · intro requests mid request ctx' owned done kept
    have earlier := owned fun request member => kept request (by simp [member])
    have last := kept request (by simp)
    by_cases plain : request.isEdit = false
    · have change := change_of_perform done
      exact ⟨earlier.1.step change plain, earlier.2.step change plain⟩
    · cases request with
      | editOp op edit =>
        obtain ⟨data, -, made⟩ := bind_eq_ok.mp done
        cases made
        refine owned_of_modifyOp earlier.1 earlier.2 op (fun data => ?_) fun data => ?_
        all_goals cases edit <;> first | rfl | cases last
      | replaceOp op data => cases last
      | _ => exact absurd rfl plain

end Context

namespace Verification

variable {ctx : Context}

/-- Where all rules hold, an entity records what contains it. -/
theorem RulesBelow.owner?_eq {root : OpId} (rules : RulesBelow ctx root) {outer inner : Entity}
    (down : ReflTransGen ctx.Contains (.op root) outer) (contains : ctx.Contains outer inner) :
    ctx.owner? inner = .ok (some outer) := by
  cases outer with
  | op op =>
    obtain ⟨data, region, found, inRegions, rfl⟩ := Context.contains_op.mp contains
    obtain ⟨data', found', regions⟩ := rules op down
    cases found.symm.trans found'
    obtain ⟨listed, known, owner, -⟩ := regions region inRegions
    exact bind_eq_ok.mpr ⟨listed, known, by rw [owner]; rfl⟩
  | region region =>
    obtain ⟨listed, block, known, inBlocks, rfl⟩ := Context.contains_region.mp contains
    -- The region is one of an operation, whose rules speak of the block.
    have path := (reflTransGen_iff_eq_or_transGen.mp down).resolve_left (by simp)
    obtain ⟨last, nested, toRegion⟩ := Context.leads_of_transGen path
    obtain ⟨data, _, found, inRegions, same⟩ := Context.contains_op.mp toRegion
    cases same
    obtain ⟨data', found', regions⟩ := rules last (Context.reflTransGen_of_nests nested)
    cases found.symm.trans found'
    obtain ⟨listed', known', -, blocks⟩ := regions region inRegions
    cases known.symm.trans known'
    obtain ⟨target, knownBlock, owner, -⟩ := blocks block inBlocks
    exact bind_eq_ok.mpr ⟨target, knownBlock, by rw [owner]; rfl⟩
  | block block =>
    obtain ⟨target, op, known, inOps, rfl⟩ := Context.contains_block.mp contains
    -- The operation that encloses the block holds what the block lists.
    have path := (reflTransGen_iff_eq_or_transGen.mp down).resolve_left (by simp)
    obtain ⟨last, nested, encloses⟩ := Context.leads_of_transGen path
    obtain ⟨-, data, found, owner⟩ :=
      (rules last (Context.reflTransGen_of_nests nested)).of_holds ⟨encloses, contains⟩
    exact bind_eq_ok.mpr ⟨data, found, by rw [owner]; rfl⟩

end Verification

namespace Context

variable {ctx : Context}

/-- A list of wrapped items repeats exactly the items that are repeated without their wrapping. -/
theorem duplicate_map_iff {α : Type} [DecidableEq α] {wrap : α → Entity}
    (injective : Function.Injective wrap) {items : List α} {entity : Entity} :
    (items.map wrap).Duplicate entity ↔ ∃ item, items.Duplicate item ∧ wrap item = entity := by
  -- Wrapping changes no number of occurrences.
  have same (item : α) : (items.map wrap).Duplicate (wrap item) ↔ items.Duplicate item := by
    rw [List.duplicate_iff_two_le_count, List.duplicate_iff_two_le_count,
      List.count_map_of_injective _ _ injective]
  constructor
  · intro twice
    obtain ⟨item, -, rfl⟩ := List.mem_map.mp twice.mem
    exact ⟨item, (same item).mp twice, rfl⟩
  · intro repeated
    obtain ⟨item, twice, rfl⟩ := repeated
    exact (same item).mpr twice

/-- What is repeated below an entity is a region of an operation or an operation of a block. -/
theorem duplicate_members_iff (blocks : BlocksOwned ctx) {motive : Entity → Prop} {root : Entity} :
    (∀ outer listed inner, ReflTransGen ctx.Contains root outer →
        ctx.members outer = .ok listed → listed.Duplicate inner → motive inner) ↔
      (∀ op data region, ReflTransGen ctx.Contains root (.op op) → ctx.op op = .ok data →
        data.regions.Duplicate region → motive (.region region)) ∧
      ∀ block data op, ReflTransGen ctx.Contains root (.block block) →
        ctx.block block = .ok data → data.ops.Duplicate op → motive (.op op) := by
  -- Regions list no block twice, as each new region takes blocks that nothing lists.
  have ops : Function.Injective Entity.op := fun _ _ same => Entity.op.inj same
  have regions : Function.Injective Entity.region := fun _ _ same => Entity.region.inj same
  have wrapped : Function.Injective Entity.block := fun _ _ same => Entity.block.inj same
  constructor
  · intro repeated
    constructor
    · intro op data region down found twice
      exact repeated (.op op) _ _ down (bind_eq_ok.mpr ⟨data, found, rfl⟩)
        ((duplicate_map_iff regions).mpr ⟨region, twice, rfl⟩)
    · intro block data op down found twice
      exact repeated (.block block) _ _ down (bind_eq_ok.mpr ⟨data, found, rfl⟩)
        ((duplicate_map_iff ops).mpr ⟨op, twice, rfl⟩)
  · intro both outer listed inner down members repeats
    obtain ⟨ofOps, ofBlocks⟩ := both
    cases outer with
    | op op =>
      obtain ⟨data, found, same⟩ := bind_eq_ok.mp members
      cases same
      obtain ⟨region, twice, rfl⟩ := (duplicate_map_iff regions).mp repeats
      exact ofOps op data region down found twice
    | region region =>
      obtain ⟨data, found, same⟩ := bind_eq_ok.mp members
      cases same
      obtain ⟨block, twice, rfl⟩ := (duplicate_map_iff wrapped).mp repeats
      exact absurd (blocks.nodup found) twice.not_nodup
    | block block =>
      obtain ⟨data, found, same⟩ := bind_eq_ok.mp members
      cases same
      obtain ⟨op, twice, rfl⟩ := (duplicate_map_iff ops).mp repeats
      exact ofBlocks block data op down found twice

section Repetition

variable {listing : List Entity} {root : Entity}

/-- With single owners nothing is contained twice exactly where no list repeats an entry. -/
theorem nodup_preorder_iff (blocks : BlocksOwned ctx) (single : ctx.SingleOwners root)
    (listed : ctx.preorder root = .ok listing) :
    listing.Nodup ↔
      (∀ op data, ReflTransGen ctx.Contains root (.op op) → ctx.op op = .ok data →
        data.regions.Nodup) ∧
      ∀ block data, ReflTransGen ctx.Contains root (.block block) → ctx.block block = .ok data →
        data.ops.Nodup := by
  -- Every entity shows itself, so that nothing that is repeated goes unseen.
  have shown :=
    @nodup_filterMap_preorderWithin_iff ctx Entity some (by simp_all) _ _ _ single listed
  rw [List.filterMap_some, duplicate_members_iff blocks] at shown
  rw [shown]
  constructor
  · intro hidden
    obtain ⟨ofOps, ofBlocks⟩ := hidden
    refine ⟨fun op data down found => ?_, fun block data down found => ?_⟩
    · refine List.nodup_iff_forall_not_duplicate.mpr fun region twice => ?_
      cases ofOps op data region down found twice (.region region) .refl
    · refine List.nodup_iff_forall_not_duplicate.mpr fun op twice => ?_
      cases ofBlocks block data op down found twice (.op op) .refl
  · intro both
    obtain ⟨ofOps, ofBlocks⟩ := both
    exact ⟨fun op data region down found twice => absurd (ofOps op data down found) twice.not_nodup,
      fun block data op down found twice => absurd (ofBlocks block data down found) twice.not_nodup⟩

/-- With single owners an operation is listed twice exactly where a block or a region in use is. -/
theorem nodup_ops_preorder_iff (blocks : BlocksOwned ctx) (single : ctx.SingleOwners root)
    (listed : ctx.preorder root = .ok listing) :
    (listing.filterMap Entity.op?).Nodup ↔
      (∀ op data region, ReflTransGen ctx.Contains root (.op op) → ctx.op op = .ok data →
        data.regions.Duplicate region →
          ∀ inner, ¬ ReflTransGen ctx.Contains (.region region) (.op inner)) ∧
      ∀ block data, ReflTransGen ctx.Contains root (.block block) → ctx.block block = .ok data →
        data.ops.Nodup := by
  -- A region that is listed twice goes unseen as long as no operation is in it.
  have hidden (entity : Entity) : (∀ deeper, ReflTransGen ctx.Contains entity deeper →
      deeper.op? = none) ↔ ∀ inner, ¬ ReflTransGen ctx.Contains entity (.op inner) := by
    constructor
    · intro none inner down
      cases none (.op inner) down
    · intro without deeper down
      cases deeper with
      | op inner => exact absurd down (without inner)
      | region region => rfl
      | block block => rfl
  have shown := nodup_filterMap_preorderWithin_iff
    (fun _ _ _ isOp isOpToo => Entity.eq_of_op? isOp isOpToo) single listed
  simp only [hidden] at shown
  rw [shown, duplicate_members_iff blocks]
  refine and_congr_right fun _ => ?_
  constructor
  · intro without block data down found
    refine List.nodup_iff_forall_not_duplicate.mpr fun op twice => ?_
    exact without block data op down found twice op .refl
  · intro distinct block data op down found twice
    exact absurd (distinct block data down found) twice.not_nodup

end Repetition

/--
Where verification finds nothing, a walk that always goes on visits exactly the operations that can
be reached. Nothing is contained twice exactly where no operation lists a region twice and no block
lists an operation twice, and an operation is visited twice exactly where a block lists it twice or
it is inside a region that is listed twice. Only direct edits of owners and regions lead there.
-/
theorem walk_of_verified {requests : List Request} {ctx : Context} {root : OpId}
    (built : build requests = .ok ctx) (verified : Verification.violations ctx root = .ok []) :
    ∃ listing, ctx.preorder (.op root) = .ok listing ∧
      (∀ entity, entity ∈ listing ↔ ReflTransGen ctx.Contains (.op root) entity) ∧
      (∀ (σ β : Type) (note : σ → OpId → σ) (start : σ),
        ctx.walk (.noting note : Visitor σ β) (.op root) start =
          .ok (none, (listing.filterMap Entity.op?).foldl note start)) ∧
      (listing.Nodup ↔
        (∀ op data, ReflTransGen ctx.Contains (.op root) (.op op) → ctx.op op = .ok data →
          data.regions.Nodup) ∧
        ∀ block data, ReflTransGen ctx.Contains (.op root) (.block block) →
          ctx.block block = .ok data → data.ops.Nodup) ∧
      ((listing.filterMap Entity.op?).Nodup ↔
        (∀ op data region, ReflTransGen ctx.Contains (.op root) (.op op) → ctx.op op = .ok data →
          data.regions.Duplicate region →
            ∀ inner, ¬ ReflTransGen ctx.Contains (.region region) (.op inner)) ∧
        ∀ block data, ReflTransGen ctx.Contains (.op root) (.block block) →
          ctx.block block = .ok data → data.ops.Nodup) ∧
      ((∀ request ∈ requests, request.keepsOwners) → listing.Nodup) := by
  have blocks := BlocksOwned.of_build built
  obtain ⟨acyclic, rules⟩ := Verification.violations_eq_nil_iff.mp verified
  obtain ⟨listing, listed⟩ := preorder_ok_iff.mpr ⟨rules.known, acyclic⟩
  have single : ctx.SingleOwners (.op root) :=
    .of_owner? fun outer inner down contains => rules.owner?_eq down contains
  refine ⟨listing, listed, fun entity => mem_preorderWithin_iff listed, ?_,
    nodup_preorder_iff blocks single listed, nodup_ops_preorder_iff blocks single listed, ?_⟩
  · intro σ β note start
    rw [walk_noting, listed]
    rfl
  · -- Without such edits no list repeats an entry in the first place.
    intro kept
    obtain ⟨ops, regions⟩ := owned_of_keepsOwners kept built
    exact (nodup_preorder_iff blocks single listed).mpr
      ⟨fun op data _ found => regions.nodup found, fun block data _ found => ops.nodup found⟩

/-- Requests that make a loop around an operation, and rename the operation directly. -/
def renamedBody : List Request :=
  [.addBlock {}, .addOp { name := .bare "body" }, .appendOp ⟨0⟩ ⟨0⟩,
    .addRegion { blocks := [⟨0⟩] }, .addOp { name := .bare "loop", regions := [⟨0⟩] },
    .editOp ⟨0⟩ (.setName (.bare "renamed"))]

/-- Nothing is contained twice in the loop, and a walk visits the loop and then its body. -/
theorem walk_of_verified_renamedBody :
    (∀ request ∈ renamedBody, request.keepsOwners) ∧
      ∃ ctx, build renamedBody = .ok ctx ∧ Verification.violations ctx ⟨1⟩ = .ok [] ∧
        ∃ listing, ctx.preorder (.op ⟨1⟩) = .ok listing ∧ listing.Nodup ∧
          listing.filterMap Entity.op? = [⟨1⟩, ⟨0⟩] ∧
          ctx.walk (.noting fun seen op => seen ++ [op] : Visitor (List OpId) Empty) (.op ⟨1⟩) [] =
            .ok (none, [⟨1⟩, ⟨0⟩]) := by
  -- The listing is computed, and with it what the walk comes to.
  obtain ⟨ctx, built, verified⟩ : ∃ ctx, build renamedBody = .ok ctx ∧
      Verification.violations ctx ⟨1⟩ = .ok [] ∧
        ctx.preorder (.op ⟨1⟩) = .ok [.op ⟨1⟩, .region ⟨0⟩, .block ⟨0⟩, .op ⟨0⟩] :=
    ⟨_, rfl, rfl, rfl⟩
  have kept : ∀ request ∈ renamedBody, request.keepsOwners := by decide
  -- A callback that collects the operations visits them in the order of the listing.
  obtain ⟨listing, listed, -, visits, -, -, once⟩ := walk_of_verified built verified.1
  cases listed.symm.trans verified.2
  exact ⟨kept, ctx, built, verified.1, _, listed, once kept, rfl,
    visits (List OpId) Empty (fun seen op => seen ++ [op]) []⟩

/-- Requests that append an operation to a block again after its owner has been erased directly. -/
def twiceAppended : List Request :=
  [.addBlock {}, .addOp { name := .bare "body" }, .appendOp ⟨0⟩ ⟨0⟩,
    .editOp ⟨0⟩ (.setParentBlock none), .appendOp ⟨0⟩ ⟨0⟩,
    .addRegion { blocks := [⟨0⟩] }, .addOp { name := .bare "loop", regions := [⟨0⟩] }]

/-- Verification finds nothing after the operation is appended twice, but a walk visits it twice. -/
theorem not_nodup_twiceAppended :
    (∀ request ∈ twiceAppended, request.keepsUses) ∧ ∃ ctx, build twiceAppended = .ok ctx ∧
      Verification.violations ctx ⟨1⟩ = .ok [] ∧
      ∃ visited, ctx.walk (.noting fun seen op => seen ++ [op] : Visitor (List OpId) Empty)
          (.op ⟨1⟩) [] = .ok (none, visited) ∧
        visited = [⟨1⟩, ⟨0⟩, ⟨0⟩] ∧ ¬ visited.Nodup :=
  ⟨by decide, _, rfl, rfl, _, rfl, rfl, by decide⟩

/-- Requests that list the region of an operation a second time. -/
def twiceListed : List Request :=
  [.addBlock {}, .addOp { name := .bare "body" }, .appendOp ⟨0⟩ ⟨0⟩,
    .addRegion { blocks := [⟨0⟩] }, .addOp { name := .bare "loop", regions := [⟨0⟩] },
    .editOp ⟨1⟩ (.setRegions [⟨0⟩, ⟨0⟩])]

/-- Nor does it find anything when the region is listed twice. -/
example : ∃ ctx, build twiceListed = .ok ctx ∧ Verification.violations ctx ⟨1⟩ = .ok [] ∧
    ctx.walk (.noting fun seen op => seen ++ [op] : Visitor (List OpId) Empty) (.op ⟨1⟩) [] =
      .ok (none, [⟨1⟩, ⟨0⟩, ⟨0⟩]) :=
  ⟨_, rfl, rfl, rfl⟩

end Context

end NestedIR
