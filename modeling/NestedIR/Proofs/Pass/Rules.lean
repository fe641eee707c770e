import NestedIR.Proofs.Context.Nesting

/-! Verification finds nothing exactly where all rules hold and containment has no cycle. -/

namespace NestedIR

open Relation

/-- Every list of answers is empty exactly when all of them together are. -/
theorem flatten_mapM_eq_nil_iff {α β : Type} {request : α → Except Fault (List β)}
    {items : List α} :
    (∃ parts, items.mapM request = .ok parts ∧ parts.flatten = []) ↔
      ∀ item ∈ items, request item = .ok [] := by
  -- The answer for the first item comes in front of those for the rest.
  induction items with
  | nil => simp [List.mapM_nil, Pure.pure, Except.pure]
  | cons first rest ih =>
    rw [List.forall_mem_cons, ← ih]
    simp only [List.mapM_cons, bind_eq_ok]
    constructor
    · intro mapped
      obtain ⟨_, ⟨head, answered, tail, remaining, made⟩, empty⟩ := mapped
      cases made
      obtain ⟨emptyHead, emptyTail⟩ := List.append_eq_nil_iff.mp empty
      exact ⟨emptyHead ▸ answered, tail, remaining, emptyTail⟩
    · intro both
      obtain ⟨answered, tail, remaining, empty⟩ := both
      exact ⟨[] :: tail, ⟨[], answered, tail, remaining, rfl⟩, empty⟩

namespace Verification

variable {ctx : Context} {below other : OpId → Prop}

/-- The rules for an operation in front of the rest of a block, whose region has some blocks. -/
structure PlaceRules (block : BlockId) (blocks : List BlockId) (rest : List OpId)
    (data : Operation) : Prop where
  /-- The operation records the block. -/
  owner : data.parentBlock = some block
  /-- Control may leave the block at its last operation only. -/
  last : data.successors = [] ∨ rest = []
  /-- Control may pass to blocks of the region only. -/
  targets : ∀ target ∈ data.successors, target ∈ blocks

/-- Every operation that is listed obeys the rules for its place, and has a property. -/
def OpsRules (ctx : Context) (below : OpId → Prop) (blocks : List BlockId) (block : BlockId)
    (ops : List OpId) : Prop :=
  ∀ op rest, (op :: rest) <:+ ops →
    ∃ data, ctx.op op = .ok data ∧ PlaceRules block blocks rest data ∧ below op

/-- A block records its region, and what it lists obeys the rules and has a property. -/
def BlockRules (ctx : Context) (below : OpId → Prop) (region : RegionId)
    (blocks : List BlockId) (block : BlockId) : Prop :=
  ∃ data, ctx.block block = .ok data ∧ data.parentRegion = some region ∧
    OpsRules ctx below blocks block data.ops

/-- A region records its operation, and its blocks obey the rules. -/
def RegionRules (ctx : Context) (below : OpId → Prop) (op : OpId) (region : RegionId) : Prop :=
  ∃ data, ctx.region region = .ok data ∧ data.parentOp = some op ∧
    ∀ block ∈ data.blocks, BlockRules ctx below region data.blocks block

/-- All that an operation lists is known and obeys the rules, and what it holds has a property. -/
def Rules (ctx : Context) (below : OpId → Prop) (op : OpId) : Prop :=
  ∃ data, ctx.op op = .ok data ∧ ∀ region ∈ data.regions, RegionRules ctx below op region

/-- Every operation that can be reached from one obeys the rules. -/
def RulesBelow (ctx : Context) (root : OpId) : Prop :=
  ∀ op, ReflTransGen ctx.Contains (.op root) (.op op) → Rules ctx (fun _ => True) op

/-- No violation comes of a rule exactly when it is kept. -/
theorem require_eq_nil_iff {rule : Bool} {violation : Violation} :
    require rule violation = [] ↔ rule = true := by
  cases rule <;> simp [require]

/-- An operation gives no violation at its place exactly when it obeys the rules there. -/
theorem checkPlace_eq_nil_iff {region : RegionId} {blocks : List BlockId} {block : BlockId}
    {rest : List OpId} {op : OpId} {data : Operation} :
    checkPlace region blocks block rest.isEmpty op data = [] ↔
      PlaceRules block blocks rest data := by
  -- Each of the three parts of the check is one rule.
  simp only [checkPlace, List.append_eq_nil_iff, List.flatMap_eq_nil_iff, require_eq_nil_iff,
    Bool.or_eq_true, List.isEmpty_iff, decide_eq_true_eq]
  constructor
  · intro kept
    obtain ⟨⟨owner, last⟩, targets⟩ := kept
    exact ⟨owner, last, targets⟩
  · intro rules
    exact ⟨⟨rules.owner, rules.last⟩, rules.targets⟩

/-- The operations of a block give no violation exactly when they obey the rules. -/
theorem checkOps_eq_nil_iff {check : OpId → Except Fault (List Violation)} {region : RegionId}
    {blocks : List BlockId} {block : BlockId} {ops : List OpId} :
    checkOps ctx check region blocks block ops = .ok [] ↔
      OpsRules ctx (fun op => check op = .ok []) blocks block ops := by
  -- An operation with what follows it is either the whole list or comes later in it.
  induction ops with
  | nil =>
    refine iff_of_true rfl fun op rest suffix => ?_
    cases List.suffix_nil.mp suffix
  | cons first rest ih =>
    have split : OpsRules ctx (fun op => check op = .ok []) blocks block (first :: rest) ↔
        (∃ data, ctx.op first = .ok data ∧ PlaceRules block blocks rest data ∧
          check first = .ok []) ∧ OpsRules ctx (fun op => check op = .ok []) blocks block rest := by
      constructor
      · intro rules
        refine ⟨rules first rest (List.suffix_refl _), fun op later suffix => ?_⟩
        exact rules op later (List.suffix_cons_iff.mpr (.inr suffix))
      · intro rules op later suffix
        rcases List.suffix_cons_iff.mp suffix with same | suffix
        · cases same
          exact rules.1
        · exact rules.2 op later suffix
    rw [split, ← ih]
    -- The report is empty when each of its parts is.
    simp only [checkOps, bind_eq_ok]
    constructor
    · intro checked
      obtain ⟨data, found, contents, checkedBelow, others, checkedRest, made⟩ := checked
      have empty := Except.ok.inj made
      simp only [List.append_eq_nil_iff] at empty
      obtain ⟨⟨place, rfl⟩, rfl⟩ := empty
      exact ⟨⟨data, found, checkPlace_eq_nil_iff.mp place, checkedBelow⟩, checkedRest⟩
    · intro rules
      obtain ⟨⟨data, found, place, checkedBelow⟩, checkedRest⟩ := rules
      refine ⟨data, found, [], checkedBelow, [], checkedRest, ?_⟩
      rw [checkPlace_eq_nil_iff.mpr place]
      rfl

/-- A block gives no violation exactly when it obeys the rules. -/
theorem checkBlock_eq_nil_iff {check : OpId → Except Fault (List Violation)} {region : RegionId}
    {blocks : List BlockId} {block : BlockId} :
    checkBlock ctx check region blocks block = .ok [] ↔
      BlockRules ctx (fun op => check op = .ok []) region blocks block := by
  -- The owner of the block is checked before its operations are.
  simp only [checkBlock, BlockRules, bind_eq_ok]
  constructor
  · intro checked
    obtain ⟨data, found, others, checkedOps, made⟩ := checked
    have empty := Except.ok.inj made
    simp only [List.append_eq_nil_iff, require_eq_nil_iff, decide_eq_true_eq] at empty
    obtain ⟨owner, rfl⟩ := empty
    exact ⟨data, found, owner, checkOps_eq_nil_iff.mp checkedOps⟩
  · intro rules
    obtain ⟨data, found, owner, places⟩ := rules
    refine ⟨data, found, [], checkOps_eq_nil_iff.mpr places, ?_⟩
    rw [require_eq_nil_iff.mpr (decide_eq_true owner)]
    rfl

/-- A region gives no violation exactly when it obeys the rules. -/
theorem checkRegion_eq_nil_iff {check : OpId → Except Fault (List Violation)} {op : OpId}
    {region : RegionId} :
    checkRegion ctx check op region = .ok [] ↔
      RegionRules ctx (fun op => check op = .ok []) op region := by
  -- The owner of the region is checked before its blocks are.
  simp only [checkRegion, RegionRules, bind_eq_ok, ← checkBlock_eq_nil_iff,
    ← flatten_mapM_eq_nil_iff]
  constructor
  · intro checked
    obtain ⟨data, found, parts, checkedBlocks, made⟩ := checked
    have empty := Except.ok.inj made
    simp only [List.append_eq_nil_iff, require_eq_nil_iff, decide_eq_true_eq] at empty
    exact ⟨data, found, empty.1, parts, checkedBlocks, empty.2⟩
  · intro rules
    obtain ⟨data, found, owner, parts, checkedBlocks, empty⟩ := rules
    refine ⟨data, found, parts, checkedBlocks, ?_⟩
    rw [require_eq_nil_iff.mpr (decide_eq_true owner), empty]
    rfl

/-- An operation gives no violation exactly when it obeys the rules and what it holds gives none. -/
theorem checkBelow_succ_eq_nil_iff {depth : Nat} {op : OpId} :
    checkBelow ctx (depth + 1) op = .ok [] ↔
      Rules ctx (fun inner => checkBelow ctx depth inner = .ok []) op := by
  -- The violations of all regions are put together.
  simp only [checkBelow, Rules, bind_eq_ok, ← checkRegion_eq_nil_iff, ← flatten_mapM_eq_nil_iff]
  constructor
  · intro checked
    obtain ⟨data, found, parts, checkedRegions, made⟩ := checked
    exact ⟨data, found, parts, checkedRegions, Except.ok.inj made⟩
  · intro rules
    obtain ⟨data, found, parts, checkedRegions, empty⟩ := rules
    exact ⟨data, found, parts, checkedRegions, congrArg Except.ok empty⟩

namespace Rules

/-- The rules do not depend on the property of what is held, which may be any that it has. -/
theorem imp {op : OpId} (rules : Rules ctx below op)
    (holds : ∀ block inner, ctx.Holds op block inner → below inner → other inner) :
    Rules ctx other op := by
  -- Only the property of an operation in the list of a block changes.
  obtain ⟨data, found, regions⟩ := rules
  refine ⟨data, found, fun region inRegions => ?_⟩
  obtain ⟨listed, known, owner, blocks⟩ := regions region inRegions
  refine ⟨listed, known, owner, fun block inBlocks => ?_⟩
  obtain ⟨target, knownBlock, records, places⟩ := blocks block inBlocks
  refine ⟨target, knownBlock, records, fun inner rest suffix => ?_⟩
  obtain ⟨placed, foundInner, place, has⟩ := places inner rest suffix
  have inOps : inner ∈ target.ops := suffix.subset (List.mem_cons_self ..)
  have held : ctx.Holds op block inner := Context.holds_iff.mpr
    ⟨data, region, listed, target, found, inRegions, known, inBlocks, knownBlock, inOps⟩
  exact ⟨placed, foundInner, place, holds block inner held has⟩

/-- What an operation holds has the property, and records the block in which it is held. -/
theorem of_holds {op inner : OpId} {block : BlockId} (rules : Rules ctx below op)
    (holds : ctx.Holds op block inner) :
    below inner ∧ ∃ data, ctx.op inner = .ok data ∧ data.parentBlock = some block := by
  obtain ⟨data, region, listed, target, found, inRegions, known, inBlocks, knownBlock, inOps⟩ :=
    Context.holds_iff.mp holds
  -- The rules speak of the same data.
  obtain ⟨data', found', regions⟩ := rules
  cases found.symm.trans found'
  obtain ⟨listed', known', -, blocks⟩ := regions region inRegions
  cases known.symm.trans known'
  obtain ⟨target', knownBlock', -, places⟩ := blocks block inBlocks
  cases knownBlock.symm.trans knownBlock'
  obtain ⟨front, rest, split⟩ := List.append_of_mem inOps
  obtain ⟨placed, foundInner, place, has⟩ := places inner rest ⟨front, split.symm⟩
  exact ⟨has, placed, foundInner, place.owner⟩

end Rules

/-- Where verification finds nothing, there is no cycle and all rules hold. -/
theorem fits_and_rules_of_checkBelow {depth : Nat} {op : OpId}
    (checked : checkBelow ctx depth op = .ok []) :
    ctx.Fits (3 * depth) (.op op) ∧ RulesBelow ctx op := by
  -- One level of operations takes one step of the depth of the check, and three of containment.
  induction depth generalizing op with
  | zero => cases checked
  | succ depth ih =>
    have rules := checkBelow_succ_eq_nil_iff.mp checked
    obtain ⟨data, found, regions⟩ := checkBelow_succ_eq_nil_iff.mp checked
    constructor
    · refine ⟨_, bind_eq_ok.mpr ⟨data, found, rfl⟩, fun member listed => ?_⟩
      obtain ⟨region, inRegions, rfl⟩ := List.mem_map.mp listed
      obtain ⟨blocks, known, -, blockRules⟩ := regions region inRegions
      refine ⟨_, bind_eq_ok.mpr ⟨blocks, known, rfl⟩, fun member listed => ?_⟩
      obtain ⟨block, inBlocks, rfl⟩ := List.mem_map.mp listed
      obtain ⟨target, knownBlock, -, -⟩ := blockRules block inBlocks
      refine ⟨_, bind_eq_ok.mpr ⟨target, knownBlock, rfl⟩, fun member listed => ?_⟩
      obtain ⟨inner, inOps, rfl⟩ := List.mem_map.mp listed
      have holds : ctx.Holds op block inner := Context.holds_iff.mpr
        ⟨data, region, blocks, target, found, inRegions, known, inBlocks, knownBlock, inOps⟩
      exact (ih (rules.of_holds holds).1).1
    · intro inner down
      rcases reflTransGen_iff_eq_or_transGen.mp down with same | path
      · cases same
        exact rules.imp fun _ _ _ _ => trivial
      · -- The way down goes through an operation that is held directly.
        obtain ⟨mid, ⟨block, holds⟩, rest⟩ :=
          TransGen.head'_iff.mp (Context.transGen_nests_iff.mpr path)
        exact (ih (rules.of_holds holds).1).2 inner (Context.reflTransGen_of_nests rest)

/-- Where all rules hold and the depth is enough, verification finds nothing. -/
theorem checkBelow_eq_nil_of_rules {depth : Nat} {op : OpId} (fits : ctx.Fits depth (.op op))
    (rules : RulesBelow ctx op) : checkBelow ctx depth op = .ok [] := by
  -- What an operation holds is checked with one step less, in which it fits.
  induction depth generalizing op with
  | zero => cases fits
  | succ depth ih =>
    refine checkBelow_succ_eq_nil_iff.mpr ((rules op .refl).imp fun block inner holds _ => ?_)
    refine ih (fits.of_holds holds) fun deeper down => rules deeper ?_
    exact ReflTransGen.trans holds.transGen.to_reflTransGen down

/-- Where all rules hold, everything that can be reached is known. -/
theorem RulesBelow.known {root : OpId} (rules : RulesBelow ctx root) :
    ctx.KnownBelow (.op root) := by
  -- A region or a block is known by the rules for the operation that leads to it.
  have reached {last : OpId} (nested : ReflTransGen ctx.Nests root last) :
      Rules ctx (fun _ => True) last := rules last (Context.reflTransGen_of_nests nested)
  have ofOp {op : OpId} (rulesOp : Rules ctx (fun _ => True) op) :
      ∃ listed, ctx.members (.op op) = .ok listed := by
    obtain ⟨data, found, -⟩ := rulesOp
    exact ⟨_, bind_eq_ok.mpr ⟨data, found, rfl⟩⟩
  intro entity down
  rcases reflTransGen_iff_eq_or_transGen.mp down with rfl | path
  · exact ofOp (rules root .refl)
  · have leads := Context.leads_of_transGen path
    cases entity with
    | op op => exact ofOp (rules op down)
    | region region =>
      obtain ⟨last, nested, toRegion⟩ := leads
      obtain ⟨data, _, found, inRegions, same⟩ := Context.contains_op.mp toRegion
      cases same
      obtain ⟨data', found', regions⟩ := reached nested
      cases found.symm.trans found'
      obtain ⟨listed, known, -⟩ := regions region inRegions
      exact ⟨_, bind_eq_ok.mpr ⟨listed, known, rfl⟩⟩
    | block block =>
      obtain ⟨last, nested, region, toRegion, toBlock⟩ := leads
      obtain ⟨data, _, found, inRegions, same⟩ := Context.contains_op.mp toRegion
      cases same
      obtain ⟨listed, _, known, inBlocks, same⟩ := Context.contains_region.mp toBlock
      cases same
      obtain ⟨data', found', regions⟩ := reached nested
      cases found.symm.trans found'
      obtain ⟨listed', known', -, blocks⟩ := regions region inRegions
      cases known.symm.trans known'
      obtain ⟨target, knownBlock, -⟩ := blocks block inBlocks
      exact ⟨_, bind_eq_ok.mpr ⟨target, knownBlock, rfl⟩⟩

/-- Verification finds nothing exactly where there is no cycle and all rules hold. -/
theorem violations_eq_nil_iff {root : OpId} :
    violations ctx root = .ok [] ↔ ctx.AcyclicBelow (.op root) ∧ RulesBelow ctx root := by
  constructor
  · intro checked
    obtain ⟨fits, rules⟩ := fits_and_rules_of_checkBelow checked
    exact ⟨fits.below.2, rules⟩
  · intro both
    have fits := Context.fits_depthBound both.2.known both.1
    exact checkBelow_eq_nil_of_rules fits both.2

end Verification

end NestedIR
