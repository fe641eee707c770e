import NestedIR.Proofs.Context.Unfolding
import NestedIR.Proofs.Pass.Rules

/-! Verification goes through a list of checks, and reports those that fail in its order. -/

namespace NestedIR

open Relation

namespace Verification

/-- One rule at one place, and what is reported if it is broken. -/
structure Check where
  /-- Whether the rule is kept. -/
  kept : Bool
  /-- What breaks the rule otherwise. -/
  violation : Violation

/-- One violation for each check that fails, in order. -/
def failures (checks : List Check) : List Violation :=
  (checks.filter fun check => !check.kept).map Check.violation

/-- The checks of an operation at a position of a block, with all that is listed around it. -/
def placeChecks (ctx : Context) (region : RegionId) (block : BlockId) (position : Nat) (op : OpId)
    (data : Operation) : List Check :=
  ⟨data.parentBlock = some block, .opParent block op data.parentBlock⟩ ::
  ⟨data.successors.isEmpty || position + 1 = (ctx.listed (.block block)).length,
    .successorsBeforeEnd block op⟩ ::
  data.successors.map fun target =>
    ⟨Entity.block target ∈ ctx.listed (.region region), .successorOutsideRegion op target region⟩

/-- The checks of an entity at the end of a way down. There are none at the start of the way. -/
def checks (ctx : Context) (occurrence : Occurrence) : List Check :=
  match occurrence.way, occurrence.entity with
  | (.op op, _) :: _, .region region => (ctx.region region).toOption.toList.map fun data =>
    ⟨data.parentOp = some op, .regionParent op region data.parentOp⟩
  | (.region region, _) :: _, .block block => (ctx.block block).toOption.toList.map fun data =>
    ⟨data.parentRegion = some region, .blockParent region block data.parentRegion⟩
  | (.block block, position) :: (.region region, _) :: _, .op op =>
    (ctx.op op).toOption.toList.flatMap (placeChecks ctx region block position op)
  | _, _ => []

/-- What is reported of some occurrences. -/
def report (ctx : Context) (occurrences : List Occurrence) : List Violation :=
  failures (occurrences.flatMap (checks ctx))

section Failures

/-- One check fails as its rule is broken. -/
theorem failures_cons (rule : Bool) (violation : Violation) (rest : List Check) :
    failures (⟨rule, violation⟩ :: rest) = require rule violation ++ failures rest := by
  cases rule <;> rfl

/-- Checks that come one after the other fail one after the other. -/
theorem failures_append (front back : List Check) :
    failures (front ++ back) = failures front ++ failures back := by
  simp [failures]

/-- Checks that come with the items of a list fail with these items. -/
theorem failures_flatMap {α : Type} (items : List α) (checks : α → List Check) :
    failures (items.flatMap checks) = items.flatMap fun item => failures (checks item) := by
  simp [failures, List.filter_flatMap, List.map_flatMap]

end Failures

variable {ctx : Context}

/-- An occurrence is reported in front of what follows it. -/
theorem report_cons (occurrence : Occurrence) (rest : List Occurrence) :
    report ctx (occurrence :: rest) = failures (checks ctx occurrence) ++ report ctx rest := by
  rw [report, List.flatMap_cons, failures_append, report]

/-- What the first of some members unfolds into is reported in front of the others. -/
theorem report_unfoldMembers_cons (depth : Nat) (way : List (Entity × Nat))
    (entity member : Entity) (position : Nat) (rest : List (Entity × Nat)) :
    report ctx (ctx.unfoldMembers depth way entity ((member, position) :: rest)) =
      report ctx (ctx.unfoldWithin depth ((entity, position) :: way) member) ++
        report ctx (ctx.unfoldMembers depth way entity rest) := by
  rw [Context.unfoldMembers, List.flatMap_cons, report, List.flatMap_append, failures_append]
  rfl

/-- Items that are answered by what is reported of them are answered by what is reported of all. -/
theorem exists_mapM_eq_report {α : Type} {request : α → Except Fault (List Violation)}
    {wrap : α → Entity} {depth : Nat} {way : List (Entity × Nat)} {entity : Entity}
    {items : List α} (each : ∀ item ∈ items, ∀ position, request item =
      .ok (report ctx (ctx.unfoldWithin depth ((entity, position) :: way) (wrap item))))
    (first : Nat) :
    ∃ parts, items.mapM request = .ok parts ∧ parts.flatten =
      report ctx (ctx.unfoldMembers depth way entity ((items.map wrap).zipIdx first)) := by
  -- The places are counted on from the first item to the next.
  induction items generalizing first with
  | nil => exact ⟨[], rfl, rfl⟩
  | cons item rest ih =>
    obtain ⟨parts, mapped, same⟩ :=
      ih (fun other listed => each other (by simp [listed])) (first + 1)
    refine ⟨report ctx (ctx.unfoldWithin depth ((entity, first) :: way) (wrap item)) :: parts,
      ?_, ?_⟩
    · rw [List.mapM_cons, each item (by simp) first, mapped]
      rfl
    · rw [List.map_cons, List.zipIdx_cons, report_unfoldMembers_cons, ← same, List.flatten_cons]

/-- An operation fails the checks at its place as the rules there are broken. -/
theorem failures_placeChecks {region : RegionId} {blocks : List BlockId} {block : BlockId}
    {front rest : List OpId} {op : OpId} {data : Operation}
    (listedBlocks : ctx.listed (.region region) = blocks.map .block)
    (listedOps : ctx.listed (.block block) = (front ++ op :: rest).map .op) :
    failures (placeChecks ctx region block front.length op data) =
      checkPlace region blocks block rest.isEmpty op data := by
  -- The last check asks the place for what the walk asks the rest of the list.
  have last : (front.length + 1 = (ctx.listed (.block block)).length) = (rest.isEmpty = true) := by
    rw [listedOps, List.isEmpty_iff_length_eq_zero]
    simp only [List.length_map, List.length_append, List.length_cons, eq_iff_iff]
    omega
  -- Blocks are listed in the region as entities.
  have inside (target : BlockId) :
      (Entity.block target ∈ ctx.listed (.region region)) = (target ∈ blocks) := by
    simp [listedBlocks]
  -- There is one check for each target, in the order of the targets.
  have targets : failures (data.successors.map fun target => (⟨target ∈ blocks,
      .successorOutsideRegion op target region⟩ : Check)) = data.successors.flatMap fun target =>
        require (target ∈ blocks) (.successorOutsideRegion op target region) := by
    rw [← List.flatMap_pure_eq_map, failures_flatMap]
    exact List.flatMap_congr fun target _ => (failures_cons _ _ []).trans (List.append_nil _)
  simp only [placeChecks, failures_cons, checkPlace, inside, last, targets, List.append_assoc,
    Bool.decide_eq_true]

/-- A check of an operation answers with what is reported of everything inside it. -/
def Answers (ctx : Context) (check : OpId → Except Fault (List Violation)) (depth : Nat)
    (op : OpId) : Prop :=
  ∀ way, check op =
    .ok (report ctx (ctx.unfoldMembers depth way (.op op) (ctx.listed (.op op)).zipIdx))

section Levels

variable {check : OpId → Except Fault (List Violation)} {depth outer : Nat}
  {way : List (Entity × Nat)}

/-- The operations of a block are checked in order, each in front of what it contains. -/
theorem checkOps_eq_report {region : RegionId} {blocks : List BlockId} {block : BlockId}
    {front rest : List OpId} (listedBlocks : ctx.listed (.region region) = blocks.map .block)
    (listedOps : ctx.listed (.block block) = (front ++ rest).map .op)
    (each : ∀ op ∈ rest, (∃ data, ctx.op op = .ok data) ∧ Answers ctx check depth op) :
    checkOps ctx check region blocks block rest =
      .ok (report ctx (ctx.unfoldMembers (depth + 1) ((.region region, outer) :: way) (.block block)
        ((rest.map .op).zipIdx front.length))) := by
  -- The front grows by each checked operation, so that places are counted from the start.
  induction rest generalizing front with
  | nil => rfl
  | cons op rest ih =>
    obtain ⟨⟨data, found⟩, answers⟩ := each op (by simp)
    have listedRest : ctx.listed (.block block) = (front ++ [op] ++ rest).map .op := by
      simp [listedOps]
    have later := ih listedRest fun other listed => each other (by simp [listed])
    rw [List.length_append, List.length_singleton] at later
    -- The checks of an operation depend on the block and on the place that it is reached by.
    have here :
        checks ctx ⟨(.block block, front.length) :: (.region region, outer) :: way, .op op⟩ =
          placeChecks ctx region block front.length op data := by
      simp [checks, found, Except.toOption]
    rw [checkOps, found, answers ((.block block, front.length) :: (.region region, outer) :: way),
      later, List.map_cons, List.zipIdx_cons, report_unfoldMembers_cons, Context.unfoldWithin_succ,
      report_cons, here, failures_placeChecks listedBlocks listedOps]
    rfl

/-- A block is checked in front of its operations. -/
theorem checkBlock_eq_report {region : RegionId} {blocks : List BlockId} {block : BlockId}
    {data : Block} (listedBlocks : ctx.listed (.region region) = blocks.map .block)
    (found : ctx.block block = .ok data)
    (each : ∀ op ∈ data.ops, (∃ data, ctx.op op = .ok data) ∧ Answers ctx check depth op) :
    checkBlock ctx check region blocks block =
      .ok (report ctx (ctx.unfoldWithin (depth + 2) ((.region region, outer) :: way)
        (.block block))) := by
  -- No operation has been checked yet.
  have listedOps : ctx.listed (.block block) = ([] ++ data.ops).map .op :=
    Context.listed_eq (bind_eq_ok.mpr ⟨data, found, rfl⟩)
  -- The only check of a block is whether it records the region that lists it.
  have here : checks ctx ⟨(.region region, outer) :: way, .block block⟩ =
      [⟨data.parentRegion = some region, .blockParent region block data.parentRegion⟩] := by
    simp [checks, found, Except.toOption]
  rw [Context.unfoldWithin_succ, report_cons, here, failures_cons, checkBlock, found, listedOps]
  show (checkOps ctx check region blocks block data.ops >>= _) = _
  rw [checkOps_eq_report listedBlocks listedOps each]
  exact congrArg Except.ok (congrArg (· ++ _) (List.append_nil _).symm)

/-- A region is checked in front of its blocks. -/
theorem checkRegion_eq_report {op : OpId} {region : RegionId} {data : Region}
    (found : ctx.region region = .ok data)
    (each : ∀ block ∈ data.blocks, ∃ target, ctx.block block = .ok target ∧
      ∀ inner ∈ target.ops, (∃ data, ctx.op inner = .ok data) ∧ Answers ctx check depth inner) :
    checkRegion ctx check op region =
      .ok (report ctx
        -- The region is known, and so are the blocks that it lists.
        (ctx.unfoldWithin (depth + 3) ((.op op, outer) :: way) (.region region))) := by
  have listedBlocks : ctx.listed (.region region) = data.blocks.map .block :=
    -- The only check of a region is whether it records the operation that owns it.
    Context.listed_eq (bind_eq_ok.mpr ⟨data, found, rfl⟩)
  have here : checks ctx ⟨(.op op, outer) :: way, .region region⟩ =
      [⟨data.parentOp = some op, .regionParent op region data.parentOp⟩] := by
    -- Each block is checked at the place at which the region lists it.
    simp [checks, found, Except.toOption]
  have blocks : ∀ block ∈ data.blocks, ∀ position, checkBlock ctx check region data.blocks block =
      .ok (report ctx (ctx.unfoldWithin (depth + 2)
        ((.region region, position) :: (.op op, outer) :: way) (.block block))) := by
    intro block inBlocks position
    obtain ⟨target, foundBlock, inner⟩ := each block inBlocks
    exact checkBlock_eq_report listedBlocks foundBlock inner
  obtain ⟨parts, checked, same⟩ := exists_mapM_eq_report blocks 0
  rw [Context.unfoldWithin_succ, report_cons, here, failures_cons, checkRegion, found, listedBlocks,
    ← same]
  show (data.blocks.mapM (checkBlock ctx check region data.blocks) >>= _) = _
  rw [checked]
  exact congrArg Except.ok (congrArg (· ++ _) (List.append_nil _).symm)

end Levels

/-- Everything that an operation contains is checked in the order in which it unfolds. -/
theorem checkBelow_eq_report {depth : Nat} {op : OpId} (fits : ctx.Fits depth (.op op)) :
    Answers ctx (checkBelow ctx depth) (3 * depth) op := by
  -- One level of operations takes one step of the depth of the check, and three of containment.
  induction depth generalizing op with
  | zero => cases fits
  | succ depth ih =>
    intro way
    obtain ⟨data, found⟩ := fits.exists_op
    have listedRegions : ctx.listed (.op op) = data.regions.map .region :=
      Context.listed_eq (bind_eq_ok.mpr ⟨data, found, rfl⟩)
    -- Each region is checked as it unfolds, and in its blocks each operation is by the induction.
    have regions : ∀ region ∈ data.regions, ∀ position,
        checkRegion ctx (checkBelow ctx depth) op region = .ok (report ctx
          (ctx.unfoldWithin (3 * depth + 3) ((.op op, position) :: way) (.region region))) := by
      intro region inRegions position
      have fitsRegion := fits.of_contains (Context.contains_op.mpr
        ⟨data, region, found, inRegions, rfl⟩)
      obtain ⟨regionData, foundRegion⟩ := fitsRegion.exists_region
      refine checkRegion_eq_report foundRegion fun block inBlocks => ?_
      have fitsBlock := fitsRegion.inner (Context.contains_region.mpr
        ⟨regionData, block, foundRegion, inBlocks, rfl⟩)
      obtain ⟨target, foundBlock⟩ := fitsBlock.exists_block
      refine ⟨target, foundBlock, fun inner inOps => ?_⟩
      have fitsInner := fitsBlock.inner (Context.contains_block.mpr
        ⟨target, inner, foundBlock, inOps, rfl⟩)
      exact ⟨fitsInner.exists_op, ih fitsInner⟩
    -- The parts are put together in the order of the regions.
    obtain ⟨parts, checked, same⟩ := exists_mapM_eq_report regions 0
    rw [checkBelow, found, listedRegions, Nat.mul_succ, ← same]
    show (data.regions.mapM (checkRegion ctx (checkBelow ctx depth) op) >>= _) = _
    rw [checked]
    rfl

/-- Verification of an operation that fits comes to an end. -/
theorem exists_checkBelow {depth : Nat} {op : OpId} (fits : ctx.Fits depth (.op op)) :
    ∃ found, checkBelow ctx depth op = .ok found :=
  ⟨_, checkBelow_eq_report fits []⟩

/-- What verification finds below an operation is what is reported of all that it unfolds into. -/
theorem violations_eq_report {root : OpId} (known : ctx.KnownBelow (.op root))
    (acyclic : ctx.AcyclicBelow (.op root)) :
    violations ctx root = .ok (report ctx (ctx.unfolding (.op root))) := by
  have fits := Context.fits_depthBound known acyclic
  have enough : ctx.depthBound ≤ 3 * ctx.depthBound := by omega
  -- Nothing is checked of the root itself.
  rw [Context.unfolding_eq_cons fits enough, report_cons]
  exact checkBelow_eq_report fits []

section Root

variable {root : OpId} {change : Operation → Operation}

/-- An operation lists the same after a change that keeps its regions. -/
theorem members_modifyOp (keeps : ∀ data, (change data).regions = data.regions) (entity : Entity) :
    (ctx.modifyOp root change).members entity = ctx.members entity := by
  -- Only operations are changed, and of an operation only the regions are listed.
  cases entity with
  | op op =>
    show ((ctx.modifyOp root change).op op >>= _) = (ctx.op op >>= _)
    rw [Context.op_modifyOp_eq_map]
    cases ctx.op op with
    | error fault => rfl
    | ok data =>
      show Except.ok (List.map _ (if op = root then change data else data).regions) = _
      split
      · rw [keeps]
        rfl
      · rfl
  | region region => rfl
  | block block => rfl

/-- The checks after a change to the root are those before it, wherever the root is not listed. -/
theorem checks_modifyOp (keeps : ∀ data, (change data).regions = data.regions)
    {occurrence : Occurrence} (apart : occurrence.entity = .op root → occurrence.way = []) :
    checks (ctx.modifyOp root change) occurrence = checks ctx occurrence := by
  -- Lists stay, so that only the data of an operation could be checked differently.
  have listed (entity : Entity) : (ctx.modifyOp root change).listed entity = ctx.listed entity := by
    rw [Context.listed, members_modifyOp keeps, Context.listed]
  rw [checks, checks]
  -- Only where an operation is listed in a block is there a check that reads its data.
  split
  · rfl
  · rfl
  · rename_i block position region outer rest op way isOp
    have other : op ≠ root := by
      rintro rfl
      cases way.symm.trans (apart isOp)
    have same : (ctx.modifyOp root change).op op = ctx.op op := by
      rw [Context.op_modifyOp, if_neg other]
    rw [same]
    exact List.flatMap_congr fun data _ => by simp only [placeChecks, listed]
  · rfl

/-- Verification does not look at what the root records, apart from its regions. -/
theorem violations_modifyOp (known : ctx.KnownBelow (.op root))
    (acyclic : ctx.AcyclicBelow (.op root)) (keeps : ∀ data, (change data).regions = data.regions) :
    violations (ctx.modifyOp root change) root = violations ctx root := by
  have contains : (ctx.modifyOp root change).Contains = ctx.Contains := by
    funext outer inner
    rw [Context.Contains, members_modifyOp keeps, Context.Contains]
  have unfolds : (ctx.modifyOp root change).unfolding (.op root) = ctx.unfolding (.op root) := by
    have bound : (ctx.modifyOp root change).depthBound = ctx.depthBound := by
      simp [Context.depthBound, Context.modifyOp]
    rw [Context.unfolding, bound]
    refine Context.unfoldWithin_congr (fun entity => ?_) _ _ _
    rw [Context.listed, members_modifyOp keeps, Context.listed]
  have knownAfter : (ctx.modifyOp root change).KnownBelow (.op root) := by
    intro inner down
    rw [members_modifyOp keeps]
    exact known inner (contains ▸ down)
  have acyclicAfter : (ctx.modifyOp root change).AcyclicBelow (.op root) := by
    rw [Context.AcyclicBelow, contains]
    exact acyclic
  rw [violations_eq_report knownAfter acyclicAfter, violations_eq_report known acyclic, unfolds]
  refine congrArg (fun checked => Except.ok (failures checked)) ?_
  refine List.flatMap_congr fun occurrence member => checks_modifyOp keeps fun isRoot => ?_
  -- Below itself the root is not listed, as there is no cycle.
  rw [Context.unfolding, Context.depthBound_eq, Context.unfoldWithin_succ] at member
  rcases List.mem_cons.mp member with rfl | below
  · rfl
  · obtain ⟨inner, position, isItem, below⟩ := Context.mem_unfoldMembers_iff.mp below
    have path := Context.reaches_of_mem_unfoldWithin below
    exact absurd (TransGen.head' (Context.contains_of_mem_zipIdx isItem) (isRoot ▸ path))
      (acyclic _ .refl)

end Root

/--
An operation keeps the structural rules when every region it lists records it, every block of such
a region records the region, and every operation of such a block records the block, leads on only
if it is the last one there, and then only to blocks that the region lists.
-/
def KeepsRules (ctx : Context) (op : OpId) : Prop :=
  ∀ data region listed, ctx.op op = .ok data → region ∈ data.regions →
    ctx.region region = .ok listed → listed.parentOp = some op ∧
      ∀ block target, block ∈ listed.blocks → ctx.block block = .ok target →
        target.parentRegion = some region ∧
          ∀ index inner placed, target.ops[index]? = some inner → ctx.op inner = .ok placed →
            placed.parentBlock = some block ∧
              (placed.successors ≠ [] → index + 1 = target.ops.length) ∧
                ∀ successor ∈ placed.successors, successor ∈ listed.blocks

/-- An operation obeys the rules exactly when it keeps them, where all that it contains fits. -/
theorem rules_iff_keepsRules {depth : Nat} {op : OpId} (fits : ctx.Fits depth (.op op)) :
    Rules ctx (fun _ => True) op ↔ KeepsRules ctx op := by
  constructor
  -- The region, the block and the position of an operation lead through the nested rules to it.
  · intro rules data region listed found inRegions foundRegion
    obtain ⟨again, foundAgain, regions⟩ := rules
    cases found.symm.trans foundAgain
    obtain ⟨again, foundAgain, owner, blocks⟩ := regions region inRegions
    cases foundRegion.symm.trans foundAgain
    refine ⟨owner, fun block target inBlocks foundBlock => ?_⟩
    obtain ⟨again, foundAgain, records, places⟩ := blocks block inBlocks
    cases foundBlock.symm.trans foundAgain
    refine ⟨records, fun index inner placed here foundInner => ?_⟩
    obtain ⟨short, rfl⟩ := List.getElem?_eq_some_iff.mp here
    obtain ⟨again, foundAgain, place, -⟩ := places target.ops[index] (target.ops.drop (index + 1))
      (List.drop_eq_getElem_cons short ▸ List.drop_suffix index target.ops)
    cases foundInner.symm.trans foundAgain
    -- What is left behind the position is empty exactly at the end of the block.
    refine ⟨place.owner, fun leads => ?_, place.targets⟩
    have nothing := List.drop_eq_nil_iff.mp (place.last.resolve_left leads)
    omega
  -- Everything that the rules speak of is known, because it fits.
  · intro keeps
    obtain ⟨data, found⟩ := fits.exists_op
    refine ⟨data, found, fun region inRegions => ?_⟩
    have fitsRegion := fits.inner (Context.contains_op.mpr ⟨data, region, found, inRegions, rfl⟩)
    obtain ⟨listed, foundRegion⟩ := fitsRegion.exists_region
    obtain ⟨owner, blocks⟩ := keeps data region listed found inRegions foundRegion
    refine ⟨listed, foundRegion, owner, fun block inBlocks => ?_⟩
    have fitsBlock := fitsRegion.inner (Context.contains_region.mpr
      ⟨listed, block, foundRegion, inBlocks, rfl⟩)
    obtain ⟨target, foundBlock⟩ := fitsBlock.exists_block
    obtain ⟨records, places⟩ := blocks block target inBlocks foundBlock
    refine ⟨target, foundBlock, records, fun inner rest suffix => ?_⟩
    obtain ⟨front, split⟩ := suffix
    have inOps : inner ∈ target.ops := by simp [← split]
    have fitsInner := fitsBlock.inner (Context.contains_block.mpr
      ⟨target, inner, foundBlock, inOps, rfl⟩)
    obtain ⟨placed, foundInner⟩ := fitsInner.exists_op
    -- An operation in front of the rest stands at the position that the front leaves.
    obtain ⟨recordsBlock, last, targets⟩ := places front.length inner placed (by simp [← split])
      foundInner
    refine ⟨placed, foundInner, ⟨recordsBlock, ?_, targets⟩, trivial⟩
    by_contra neither
    obtain ⟨leads, more⟩ := not_or.mp neither
    have atEnd := last leads
    simp only [← split, List.length_append, List.length_cons] at atEnd
    exact more (List.eq_nil_of_length_eq_zero (by omega))

/--
Verification finds nothing exactly where all operations that can be reached keep the structural
rules. It reports one violation for each check that fails, in the order of the listing, and there
is no check of what the root records itself, apart from its regions.
-/
theorem violations_of_known {root : OpId} (known : ctx.KnownBelow (.op root))
    (acyclic : ctx.AcyclicBelow (.op root)) :
    (violations ctx root = .ok [] ↔
      ∀ op, ReflTransGen ctx.Contains (.op root) (.op op) → KeepsRules ctx op) ∧
    violations ctx root = .ok (failures ((ctx.unfolding (.op root)).flatMap (checks ctx))) ∧
    ctx.preorder (.op root) = .ok ((ctx.unfolding (.op root)).map Occurrence.entity) ∧
    ∀ change : Operation → Operation, (∀ data, (change data).regions = data.regions) →
      violations (ctx.modifyOp root change) root = violations ctx root := by
  -- The first part restates the rules for each operation by itself, and the others are shown above.
  refine ⟨violations_eq_nil_iff.trans ?_, violations_eq_report known acyclic,
    Context.preorder_eq_unfolding known acyclic, fun change => violations_modifyOp known acyclic⟩
  rw [and_iff_right acyclic]
  exact forall_congr' fun op => forall_congr' fun down =>
    rules_iff_keepsRules ((Context.fits_depthBound known acyclic).of_reaches down)

/-- Requests that make a loop, cut its first operation off, and let both branch out of the loop. -/
def strayBranch : List Request :=
  [.addBlock {}, .addOp { name := .bare "first" }, .appendOp ⟨0⟩ ⟨0⟩,
    .addOp { name := .bare "last" }, .appendOp ⟨0⟩ ⟨1⟩, .addRegion { blocks := [⟨0⟩] },
    .addOp { name := .bare "loop", regions := [⟨0⟩] }, .addBlock {},
    .editOp ⟨0⟩ (.setParentBlock none), .editOp ⟨0⟩ (.setSuccessors [⟨1⟩]),
    .editOp ⟨2⟩ (.setSuccessors [⟨1⟩])]

/-- Three checks of the first operation fail, and the branch of the loop itself is no concern. -/
theorem violations_of_known_strayBranch :
    ∃ ctx, Context.build strayBranch = .ok ctx ∧ ctx.KnownBelow (.op ⟨2⟩) ∧
      ctx.AcyclicBelow (.op ⟨2⟩) ∧
      violations ctx ⟨2⟩ = .ok [.opParent ⟨0⟩ ⟨0⟩ none, .successorsBeforeEnd ⟨0⟩ ⟨0⟩,
        .successorOutsideRegion ⟨0⟩ ⟨1⟩ ⟨0⟩] ∧
      failures ((ctx.unfolding (.op ⟨2⟩)).flatMap (checks ctx)) = [.opParent ⟨0⟩ ⟨0⟩ none,
        .successorsBeforeEnd ⟨0⟩ ⟨0⟩, .successorOutsideRegion ⟨0⟩ ⟨1⟩ ⟨0⟩] ∧
      (¬ ∀ op, ReflTransGen ctx.Contains (.op ⟨2⟩) (.op op) → KeepsRules ctx op) ∧
      violations (ctx.modifyOp ⟨2⟩ fun data => { data with successors := [] }) ⟨2⟩ =
        violations ctx ⟨2⟩ := by
  -- The program is built and verified as a whole.
  obtain ⟨ctx, built, listed, found⟩ : ∃ ctx, Context.build strayBranch = .ok ctx ∧
      (∃ listing, ctx.preorder (.op ⟨2⟩) = .ok listing) ∧
        violations ctx ⟨2⟩ = .ok [.opParent ⟨0⟩ ⟨0⟩ none, .successorsBeforeEnd ⟨0⟩ ⟨0⟩,
          .successorOutsideRegion ⟨0⟩ ⟨1⟩ ⟨0⟩] := ⟨_, rfl, ⟨_, rfl⟩, rfl⟩
  -- The listing is what shows that verification starts from something known and without cycles.
  obtain ⟨known, acyclic⟩ := Context.preorder_ok_iff.mp listed
  obtain ⟨keeps, reported, -, unchanged⟩ := violations_of_known known acyclic
  refine ⟨ctx, built, known, acyclic, found, Except.ok.inj (reported.symm.trans found),
    fun all => ?_, unchanged _ fun _ => rfl⟩
  cases found.symm.trans (keeps.mpr all)

end Verification

end NestedIR
