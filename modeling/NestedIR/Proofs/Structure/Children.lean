import NestedIR.Inspection.Child
import NestedIR.Proofs.Structure.Sources

/-! The children that are reported are the operations of some lines of the dump, in order. -/

namespace NestedIR

namespace Line

/-- Whether a line is the summary of a region at an indentation. -/
def isRegionAt (depth : UInt64) : Line → Bool
  | region indent _ => indent == depth
  | _ => false

/-- Whether a line is the summary of an operation at an indentation. -/
def isOpAt (depth : UInt64) : Line → Bool
  | op indent .. => indent == depth
  | _ => false

/-- Whether a line comes between the summary of an operation and its regions. -/
def isDetail : Line → Bool
  | attributesHeader .. => true
  | entry .. => true
  | regionsHeader .. => true
  | _ => false

/-- A line that tells a detail is no summary of a region. -/
theorem isRegionAt_of_isDetail {line : Line} (detail : line.isDetail) (depth : UInt64) :
    line.isRegionAt depth = false := by
  cases line <;> simp_all [isDetail, isRegionAt]

/-- A line that tells a detail is no summary of an operation. -/
theorem isOpAt_of_isDetail {line : Line} (detail : line.isDetail) (depth : UInt64) :
    line.isOpAt depth = false := by
  cases line <;> simp_all [isDetail, isOpAt]

/-- A line that stands elsewhere is no summary of a region at the indentation. -/
theorem isRegionAt_of_ne {line : Line} {depth : UInt64} (elsewhere : line.depth ≠ depth) :
    line.isRegionAt depth = false := by
  cases line <;> simp_all [Line.depth, isRegionAt]

/-- A line that stands elsewhere is no summary of an operation at the indentation. -/
theorem isOpAt_of_ne {line : Line} {depth : UInt64} (elsewhere : line.depth ≠ depth) :
    line.isOpAt depth = false := by
  cases line <;> simp_all [Line.depth, isOpAt]

end Line

/-- The name of a child, followed by its symbol when one is reported. -/
def Child.label (child : Child) : String :=
  match child.symbol with
  | some (_, some symbol) => child.name ++ "@" ++ symbol
  | _ => child.name

/--
The operation lines three levels below a root, of those between the first region line one level
below it and the second one.
-/
def firstRegionOps (indent : UInt64) (sourced : List (Line × Option OpId)) :
    List (Line × Option OpId) :=
  (((sourced.dropWhile fun entry => !entry.1.isRegionAt (indent + 1)).drop 1).takeWhile
    fun entry => !entry.1.isRegionAt (indent + 1)).filter fun entry => entry.1.isOpAt (indent + 3)

namespace Context

variable {ctx : Context} {overflow : Overflow}

/-- A line of the dump is about a child, and agrees with what is reported of it. -/
structure Reports (ctx : Context) (depth : UInt64) (child : Child) (entry : Line × Option OpId) :
    Prop where
  /-- The line is that of the child. -/
  source : entry.2 = some child.op
  /-- The name and the namespace are those of the description. -/
  described : ∃ description, ctx.describe child.op = .ok description ∧
    child.name = description.name ∧ child.namespaceText = description.namespaceText
  /-- The line has the label of the child. -/
  labeled : ∃ operands results attributes regions successors,
    entry.1 = .op depth child.label operands results attributes regions successors

/-- The label of a description is that of the child. -/
theorem label_describe {op : OpId} {data : Operation} :
    (data.describe ctx op).label =
      Child.label ⟨op, data.name.toText, data.namespaceText ctx.dialects, data.symbolInfo?⟩ := by
  -- A symbol counts only where the operation is of a kind that defines one.
  rw [Description.label, Child.label, Operation.describe]
  obtain _ | ⟨kind, _ | symbol⟩ := data.symbolInfo? <;> rfl

/-- A described child is reported by the summary of the operation. -/
theorem reports_of_describeChild {op : OpId} {depth : UInt64} {child : Child} {summary : Line}
    {details : List Line} (named : ctx.describeChild op = .ok child)
    (own : ctx.opLines op depth overflow = .ok (summary, details)) :
    ctx.Reports depth child (summary, some op) := by
  -- Both are made from the data of the operation.
  obtain ⟨data, found, made⟩ := bind_eq_ok.mp named
  obtain ⟨again, foundAgain, madeLines⟩ := bind_eq_ok.mp own
  obtain ⟨inner, -, madeLines⟩ := bind_eq_ok.mp madeLines
  cases found.symm.trans foundAgain
  cases made
  cases madeLines
  refine ⟨rfl, ⟨data.describe ctx op, bind_eq_ok.mpr ⟨data, found, rfl⟩, rfl, rfl⟩, ?_⟩
  rw [label_describe]
  exact ⟨_, _, _, _, _, rfl⟩

/-- The lines that an entity begins with are a summary at its indentation, and details. -/
theorem isDetail_ownLines {entity : Entity} {indent : UInt64} {own : Line × List Line}
    (found : ctx.ownLines indent overflow entity = .ok own) :
    own.1.depth = indent ∧ ∀ line ∈ own.2, line.isDetail := by
  cases entity with
  | op op =>
    -- Below the summary come the attributes, if there are any, and the header of the regions.
    obtain ⟨data, -, made⟩ := bind_eq_ok.mp found
    obtain ⟨inner, -, made⟩ := bind_eq_ok.mp made
    cases made
    refine ⟨rfl, fun line listed => ?_⟩
    rcases List.mem_append.mp listed with ofAttributes | ofRegions
    · rw [Description.attributeLines] at ofAttributes
      split at ofAttributes
      · cases ofAttributes
      · rcases List.mem_cons.mp ofAttributes with rfl | entry
        · rfl
        · obtain ⟨item, -, rfl⟩ := List.mem_map.mp entry
          rfl
    · split at ofRegions
      · cases ofRegions
      · cases List.mem_singleton.mp ofRegions
        rfl
  | region region =>
    obtain ⟨data, -, made⟩ := bind_eq_ok.mp found
    cases made
    exact ⟨rfl, by simp⟩
  | block block =>
    obtain ⟨data, -, made⟩ := bind_eq_ok.mp found
    obtain ⟨successors, -, made⟩ := bind_eq_ok.mp made
    cases made
    exact ⟨rfl, by simp⟩

/-- There are words enough for the levels of an entity, so that no two levels share one. -/
def LevelsApart (ctx : Context) (entity : Entity) : Prop :=
  ∃ levels, levels < UInt64.size ∧ ctx.IndentsWithin levels entity

/-- Where the levels of an entity are apart, those of its members are. -/
theorem LevelsApart.of_mem {entity member : Entity} {listed : List Entity}
    (apart : ctx.LevelsApart entity) (members : ctx.members entity = .ok listed)
    (isListed : member ∈ listed) : ctx.LevelsApart member := by
  obtain ⟨levels, few, within⟩ := apart
  obtain ⟨less, rfl, inside⟩ := within.of_listed (by rwa [listed_eq members])
  exact ⟨less, by omega, inside⟩

/-- What an entity is dumped in are details, and summaries some levels further in. -/
theorem exists_level_of_sourced {depth levels : Nat} {indent : UInt64} {entity : Entity}
    {sourced : List (Line × Option OpId)} (within : ctx.IndentsWithin levels entity)
    (made : ctx.sourcedWithin overflow depth indent entity = .ok sourced)
    {entry : Line × Option OpId} (member : entry ∈ sourced) :
    entry.1.isDetail ∨ ∃ level, level ≤ levels ∧ entry.1.depth = indent + .ofNat level := by
  -- Members stand one level further down, and what is in them is deeper still.
  induction depth generalizing levels indent entity sourced with
  | zero => cases made
  | succ depth ih =>
    obtain ⟨own, listed, first, members, -, part, each, rfl⟩ := sourcedWithin_eq_ok made
    obtain ⟨summary, details⟩ := isDetail_ownLines first
    rcases List.mem_append.mp member with ofOwn | inside
    · rcases List.mem_cons.mp ofOwn with rfl | detail
      · exact .inr ⟨0, Nat.zero_le _, by rw [summary]; exact (UInt64.add_zero indent).symm⟩
      · obtain ⟨line, isDetail, rfl⟩ := List.mem_map.mp detail
        exact .inl (details line isDetail)
    · obtain ⟨inner, isListed, here⟩ := List.mem_flatMap.mp inside
      obtain ⟨less, rfl, withinInner⟩ := within.of_listed (by rwa [listed_eq members])
      rcases ih withinInner (each inner isListed) here with detail | ⟨level, le, same⟩
      · exact .inl detail
      · refine .inr ⟨level + 1, by omega, ?_⟩
        rw [same, UInt64.add_assoc, UInt64.add_comm 1, UInt64.ofNat_add]
        rfl

/-- No summary of what is inside an entity stands where the entity does. -/
theorem LevelsApart.depth_ne {depth : Nat} {indent : UInt64} {entity inner : Entity}
    {listed : List Entity} (apart : ctx.LevelsApart entity)
    (members : ctx.members entity = .ok listed) (isListed : inner ∈ listed)
    {sourced : List (Line × Option OpId)}
    (made : ctx.sourcedWithin overflow depth (indent + 1) inner = .ok sourced)
    {entry : Line × Option OpId} (member : entry ∈ sourced) :
    entry.1.isDetail ∨ entry.1.depth ≠ indent := by
  obtain ⟨levels, few, within⟩ := apart
  obtain ⟨less, rfl, inside⟩ := within.of_listed (by rwa [listed_eq members])
  rcases exists_level_of_sourced inside made member with detail | ⟨level, le, same⟩
  · exact .inl detail
  · refine .inr fun again => ?_
    -- Back at the same word, there would be as many levels as words.
    have numbers := congrArg UInt64.toNat (same.symm.trans again)
    simp only [UInt64.toNat_add, UInt64.toNat_ofNat', UInt64.toNat_one] at numbers
    have word : indent.toNat < UInt64.size := indent.toNat_lt
    have : UInt64.size = 18446744073709551616 := rfl
    omega

/-- The summary of an operation is one of an operation at its indentation, and none of a region. -/
theorem isOpAt_opLines {op : OpId} {indent : UInt64} {own : Line × List Line}
    (found : ctx.opLines op indent overflow = .ok own) :
    own.1.isOpAt indent ∧ ∀ depth, own.1.isRegionAt depth = false := by
  obtain ⟨data, -, made⟩ := bind_eq_ok.mp found
  obtain ⟨inner, -, made⟩ := bind_eq_ok.mp made
  cases made
  exact ⟨by simp [Line.isOpAt], fun _ => rfl⟩

/-- Of the lines of an operation, only its summary is one of an operation at its indentation. -/
theorem filter_isOpAt_sourced {depth : Nat} {indent : UInt64} {op : OpId}
    {sourced : List (Line × Option OpId)} (apart : ctx.LevelsApart (.op op))
    (made : ctx.sourcedWithin overflow depth indent (.op op) = .ok sourced) :
    ∃ summary details, ctx.opLines op indent overflow = .ok (summary, details) ∧
      (sourced.filter fun entry => entry.1.isOpAt indent) = [(summary, some op)] := by
  cases depth with
  | zero => cases made
  | succ depth =>
    obtain ⟨own, listed, first, members, -, part, each, rfl⟩ := sourcedWithin_eq_ok made
    obtain ⟨-, details⟩ := isDetail_ownLines first
    refine ⟨own.1, own.2, first, ?_⟩
    -- Neither a detail nor anything deeper is taken.
    have noDetail : ((own.2.map (·, none)).filter
        fun entry : Line × Option OpId => entry.1.isOpAt indent) = [] := by
      refine List.filter_eq_nil_iff.mpr fun entry member => ?_
      obtain ⟨line, listedLine, rfl⟩ := List.mem_map.mp member
      simp [Line.isOpAt_of_isDetail (details line listedLine)]
    have nothingDeeper :
        ((listed.flatMap part).filter fun entry => entry.1.isOpAt indent) = [] := by
      refine List.filter_eq_nil_iff.mpr fun entry member => ?_
      obtain ⟨inner, isListed, here⟩ := List.mem_flatMap.mp member
      rcases apart.depth_ne members isListed (each inner isListed) here with detail | elsewhere
      · simp [Line.isOpAt_of_isDetail detail]
      · simp [Line.isOpAt_of_ne elsewhere]
    have summary : own.1.isOpAt indent := (isOpAt_opLines first).1
    rw [List.filter_append, nothingDeeper, List.append_nil, List.filter_cons, noDetail]
    simp [summary, Entity.op?]

/-- Operations described one after the other are reported by their summaries, in the same order. -/
theorem forall₂_reports {depth : Nat} {indent : UInt64} {ops : List OpId}
    {part : OpId → List (Line × Option OpId)} (apart : ∀ op ∈ ops, ctx.LevelsApart (.op op))
    (each : ∀ op ∈ ops, ctx.sourcedWithin overflow depth indent (.op op) = .ok (part op))
    {children : List Child} (named : ops.mapM ctx.describeChild = .ok children) :
    List.Forall₂ (ctx.Reports indent) children
      ((ops.flatMap part).filter fun entry => entry.1.isOpAt indent) := by
  -- Each operation leaves exactly one line, so that the lists go on side by side.
  induction ops generalizing children with
  | nil =>
    cases named
    exact .nil
  | cons first rest ih =>
    rw [List.mapM_cons] at named
    obtain ⟨child, namedFirst, named⟩ := bind_eq_ok.mp named
    obtain ⟨others, namedRest, made⟩ := bind_eq_ok.mp named
    cases made
    obtain ⟨summary, details, own, only⟩ :=
      filter_isOpAt_sourced (apart first (by simp)) (each first (by simp))
    rw [List.flatMap_cons, List.filter_append, only]
    exact .cons (reports_of_describeChild namedFirst own)
      (ih (fun op listed => apart op (by simp [listed]))
        (fun op listed => each op (by simp [listed])) namedRest)

/-- The children in a block are reported by the operation lines right below that of the block. -/
theorem forall₂_reports_block {depth : Nat} {indent : UInt64} {block : BlockId}
    {sourced : List (Line × Option OpId)} (apart : ctx.LevelsApart (.block block))
    (made : ctx.sourcedWithin overflow depth indent (.block block) = .ok sourced)
    {children : List Child}
    (named : (do (← ctx.block block).ops.mapM ctx.describeChild) = .ok children) :
    List.Forall₂ (ctx.Reports (indent + 1)) children
      (sourced.filter fun entry => entry.1.isOpAt (indent + 1)) := by
  cases depth with
  | zero => cases made
  -- The block is known, and its own line is not one of an operation.
  | succ depth =>
    obtain ⟨own, listed, first, members, -, part, each, rfl⟩ := sourcedWithin_eq_ok made
    obtain ⟨data, known, first⟩ := bind_eq_ok.mp first
    obtain ⟨successors, -, madeOwn⟩ := bind_eq_ok.mp first
    obtain ⟨again, knownAgain, listing⟩ := bind_eq_ok.mp members
    obtain ⟨target, knownTarget, named⟩ := bind_eq_ok.mp named
    cases known.symm.trans knownAgain
    cases known.symm.trans knownTarget
    cases madeOwn
    cases listing
    rw [List.flatMap_map]
    -- The lines of each operation begin with its summary, and the rest stands further in.
    have isListed (op : OpId) (inOps : op ∈ data.ops) : Entity.op op ∈ data.ops.map Entity.op :=
      List.mem_map.mpr ⟨op, inOps, rfl⟩
    exact forall₂_reports (fun op inOps => apart.of_mem members (isListed op inOps))
      (fun op inOps => each (.op op) (isListed op inOps)) named

/--
The lines of a region begin with its summary, and no other of them is one of a region at its
indentation.

The children in the region are reported by the operation lines two levels below.
-/
theorem sourced_region {depth : Nat} {indent : UInt64} {region : RegionId}
    {sourced : List (Line × Option OpId)} (apart : ctx.LevelsApart (.region region))
    (made : ctx.sourcedWithin overflow depth indent (.region region) = .ok sourced) :
    ∃ head tail, sourced = head :: tail ∧ head.1.isRegionAt indent ∧
      (∀ entry ∈ tail, entry.1.isRegionAt indent = false) ∧
      ∀ data children, ctx.region region = .ok data →
        (data.blocks.mapM fun block => do
          (← ctx.block block).ops.mapM ctx.describeChild) = .ok children →
        List.Forall₂ (ctx.Reports (indent + 2)) children.flatten
          (tail.filter fun entry => entry.1.isOpAt (indent + 2)) := by
  cases depth with
  | zero => cases made
  | succ depth =>
    obtain ⟨own, listed, first, members, -, part, each, rfl⟩ := sourcedWithin_eq_ok made
    obtain ⟨data, known, madeOwn⟩ := bind_eq_ok.mp first
    obtain ⟨again, knownAgain, listing⟩ := bind_eq_ok.mp members
    cases known.symm.trans knownAgain
    cases madeOwn
    cases listing
    refine ⟨(.region indent data.blocks.length, none),
      data.blocks.flatMap fun block => part (.block block), by rw [List.flatMap_map]; rfl,
      by simp [Line.isRegionAt], fun entry member => ?_, fun found children same named => ?_⟩
    · -- Blocks stand one level further down.
      obtain ⟨block, inBlocks, here⟩ := List.mem_flatMap.mp member
      have isListed : Entity.block block ∈ data.blocks.map Entity.block :=
        List.mem_map.mpr ⟨block, inBlocks, rfl⟩
      rcases apart.depth_ne members isListed (each (.block block) isListed) here with
        detail | elsewhere
      · exact Line.isRegionAt_of_isDetail detail indent
      · exact Line.isRegionAt_of_ne elsewhere
    · cases known.symm.trans same
      obtain ⟨child, rfl, namedEach⟩ := exists_map_of_mapM named
      rw [← List.flatMap_def, List.filter_flatMap]
      refine forall₂_flatMap fun block inBlocks => ?_
      have isListed : Entity.block block ∈ data.blocks.map Entity.block :=
        List.mem_map.mpr ⟨block, inBlocks, rfl⟩
      have reports := forall₂_reports_block (apart.of_mem members isListed)
        (each (.block block) isListed) (namedEach block inBlocks)
      rwa [UInt64.add_assoc] at reports

/-- From lists that all begin with an item at which the taking stops, nothing is taken. -/
theorem takeWhile_flatMap_eq_nil {α β : Type} {items : List α} {part : α → List β}
    {goes : β → Bool}
    (begins : ∀ item ∈ items, ∃ head tail, part item = head :: tail ∧ goes head = false) :
    (items.flatMap part).takeWhile goes = [] := by
  cases items with
  | nil => rfl
  | cons first rest =>
    obtain ⟨head, tail, same, stops⟩ := begins first (by simp)
    rw [List.flatMap_cons, same, List.cons_append, List.takeWhile_cons_of_neg (by simp [stops])]

/--
The lines between the first region line one level below an operation and the second one are those of
the first region, without its summary. There are none without regions.
-/
theorem firstRegionOps_sourced {depth : Nat} {indent : UInt64} {op : OpId} {data : Operation}
    (found : ctx.op op = .ok data) (apart : ctx.LevelsApart (.op op))
    {sourced : List (Line × Option OpId)}
    (made : ctx.sourcedWithin overflow (depth + 1) indent (.op op) = .ok sourced) :
    (data.regions = [] → firstRegionOps indent sourced = []) ∧
      ∀ body others, data.regions = body :: others → ∃ head tail,
        ctx.sourcedWithin overflow depth (indent + 1) (.region body) = .ok (head :: tail) ∧
          firstRegionOps indent sourced = tail.filter fun entry => entry.1.isOpAt (indent + 3) := by
  obtain ⟨own, listed, first, members, -, part, each, rfl⟩ := sourcedWithin_eq_ok made
  obtain ⟨again, foundAgain, listing⟩ := bind_eq_ok.mp members
  cases found.symm.trans foundAgain
  cases listing
  -- The lines of the operation itself are passed over.
  have passed : ∀ entry ∈ (own.1, (Entity.op op).op?) :: own.2.map (·, none),
      (!entry.1.isRegionAt (indent + 1)) = true := by
    intro entry member
    rcases List.mem_cons.mp member with rfl | detail
    · simp [(isOpAt_opLines first).2]
    · obtain ⟨line, listedLine, rfl⟩ := List.mem_map.mp detail
      simp [Line.isRegionAt_of_isDetail ((isDetail_ownLines first).2 line listedLine)]
  have isListed (region : RegionId) (inRegions : region ∈ data.regions) :
      Entity.region region ∈ data.regions.map Entity.region :=
    List.mem_map.mpr ⟨region, inRegions, rfl⟩
  have begins (region : RegionId) (inRegions : region ∈ data.regions) :=
    sourced_region (apart.of_mem members (isListed region inRegions))
      (each (.region region) (isListed region inRegions))
  rw [firstRegionOps, List.dropWhile_append_of_pos passed, List.flatMap_map]
  constructor
  · intro none
    simp [none]
  · intro body others split
    rw [split] at begins ⊢
    obtain ⟨head, tail, same, isRegion, noRegion, -⟩ := begins body (by simp)
    refine ⟨head, tail, ?_, ?_⟩
    · rw [← same]
      exact each (.region body) (by simp [split])
    · -- The taking stops at the next region, if there is one.
      have stops : (others.flatMap fun region => part (.region region)).takeWhile
          (fun entry => !entry.1.isRegionAt (indent + 1)) = [] := by
        refine takeWhile_flatMap_eq_nil fun region inOthers => ?_
        obtain ⟨head, tail, same, isRegion, -⟩ := begins region (by simp [inOthers])
        exact ⟨head, tail, same, by simp [isRegion]⟩
      rw [List.flatMap_cons, same, List.cons_append,
        List.dropWhile_cons_of_neg (by simp [isRegion]), List.drop_one, List.tail_cons,
        List.takeWhile_append_of_pos fun entry member => by simp [noRegion entry member], stops,
        List.append_nil]

/-- The children of an operation below which everything is known are found. -/
theorem exists_children {depth : Nat} {root : OpId} (fits : ctx.Fits depth (.op root)) :
    ∃ children, ctx.children root = .ok children := by
  -- Only the first region is looked into, and everything in it is known.
  obtain ⟨data, found⟩ := fits.exists_op
  cases regions : data.regions with
  | nil => exact ⟨[], bind_eq_ok.mpr ⟨data, found, by rw [regions]; rfl⟩⟩
  | cons body others =>
    have inBody : ctx.Contains (.op root) (.region body) :=
      contains_op.mpr ⟨data, body, found, by simp [regions], rfl⟩
    obtain ⟨listed, known⟩ := (fits.inner inBody).exists_region
    have each : ∀ block ∈ listed.blocks, ∃ found, (do
        (← ctx.block block).ops.mapM ctx.describeChild) = .ok found := by
      intro block inBlocks
      have fitsBlock := (fits.inner inBody).inner
        (contains_region.mpr ⟨listed, block, known, inBlocks, rfl⟩)
      obtain ⟨target, knownBlock⟩ := fitsBlock.exists_block
      have all : ∃ found, target.ops.mapM ctx.describeChild = .ok found := by
        refine mapM_ok_iff.mpr fun op inOps => ?_
        obtain ⟨child, foundChild⟩ := (fitsBlock.inner
          (contains_block.mpr ⟨target, op, knownBlock, inOps, rfl⟩)).exists_op
        exact ⟨_, bind_eq_ok.mpr ⟨child, foundChild, rfl⟩⟩
      obtain ⟨found, mapped⟩ := all
      exact ⟨found, bind_eq_ok.mpr ⟨target, knownBlock, mapped⟩⟩
    obtain ⟨parts, mapped⟩ := mapM_ok_iff.mpr each
    exact ⟨parts.flatten, bind_eq_ok.mpr ⟨data, found, by
      rw [regions]
      exact bind_eq_ok.mpr ⟨listed, known, bind_eq_ok.mpr ⟨parts, mapped, rfl⟩⟩⟩⟩

/-- The children of a root are reported by the operation lines of its first region. -/
theorem forall₂_reports_children {depth : Nat} {indent : UInt64} {root : OpId}
    {sourced : List (Line × Option OpId)} (apart : ctx.LevelsApart (.op root))
    (made : ctx.sourcedWithin overflow depth indent (.op root) = .ok sourced)
    {children : List Child} (named : ctx.children root = .ok children) :
    List.Forall₂ (ctx.Reports (indent + 3)) children (firstRegionOps indent sourced) := by
  cases depth with
  | zero => cases made
  | succ depth =>
    -- The root is known, and without a region it has no children.
    obtain ⟨data, found, named⟩ := bind_eq_ok.mp named
    obtain ⟨none, some⟩ := firstRegionOps_sourced found apart made
    cases regions : data.regions with
    | nil =>
      rw [regions] at named
      cases named
      rw [none regions]
      exact .nil
    | cons body others =>
      -- The children are those of the blocks of the first region, block by block.
      rw [regions] at named
      obtain ⟨target, known, named⟩ := bind_eq_ok.mp named
      obtain ⟨parts, namedBlocks, made⟩ := bind_eq_ok.mp named
      cases made
      obtain ⟨head, tail, inBody, same⟩ := some body others regions
      -- The first region comes in its own lines, which end where the others begin.
      have inRegions : ctx.Contains (.op root) (.region body) :=
        contains_op.mpr ⟨data, body, found, by simp [regions], rfl⟩
      obtain ⟨listed, members, isListed⟩ := inRegions
      obtain ⟨_, _, split, -, -, reports⟩ :=
        sourced_region (apart.of_mem members isListed) inBody
      cases split
      rw [same]
      -- The operations stand two levels below the line of the region, and so three below the root.
      have reported := reports target parts known namedBlocks
      rwa [UInt64.add_assoc] at reported

/--
The levels of a dump are apart where it has room in a build that checks its sums, and with
references of 32 bits in any build.
-/
theorem levelsApart_of_hasRoom {root : OpId} (acyclic : ctx.AcyclicBelow (.op root))
    {indent : UInt64} (room : ctx.HasRoom overflow (.op root) indent)
    (decided : overflow = .stops ∨ ctx.Addressable) : ctx.LevelsApart (.op root) := by
  -- Room for all lines is less than all words, and references of 32 bits name far fewer levels.
  rcases decided with stops | addressable
  · have words : 0 < UInt64.size := by decide
    exact ⟨UInt64.size - 1 - indent.toNat, by omega, room stops⟩
  · have few : 3 * UInt32.size + 1 < UInt64.size := by decide
    exact ⟨ctx.depthBound, addressable.depthBound_le.trans_lt few,
      indentsWithin_of_shallow (shallow_depthBound acyclic)⟩

/--
Where no type is among its own parameters and no operation below a root is inside itself, a dump is
made exactly where everything below the root is known and has room. Then the children of the root
are, in order and number, the operations of those lines that stand three levels below the root
between the first region line one level below it and the second one. Their names, namespaces and
symbols are those of the descriptions and of the lines. In a build whose sums wrap around, an
indentation comes again after as many levels as there are words, which references of 32 bits are too
few for.
-/
theorem children_reports_of_streams (wellFounded : WellFounded ctx.types.IsParameter) {root : OpId}
    (acyclic : ctx.AcyclicBelow (.op root)) (overflow : Overflow) (indent : UInt64) :
    ((∃ lines, ctx.Streams root indent lines overflow) ↔
        ctx.KnownBelow (.op root) ∧ ctx.HasRoom overflow (.op root) indent) ∧
      ∀ lines, ctx.Streams root indent lines overflow → (overflow = .stops ∨ ctx.Addressable) →
        ∃ children sourced,
          ctx.children root = .ok children ∧ sourced.map Prod.fst = lines ∧
          (∀ limit, lines.length ≤ limit →
            ctx.firstSourced limit root indent overflow = .ok sourced) ∧
          List.Forall₂ (ctx.Reports (indent + 3)) children (firstRegionOps indent sourced) := by
  have streamsWhereKnown := exists_streams_iff wellFounded acyclic overflow indent
  refine ⟨streamsWhereKnown, fun lines streams decided => ?_⟩
  obtain ⟨known, room⟩ := streamsWhereKnown.mp ⟨lines, streams⟩
  have fits := fits_depthBound known acyclic
  obtain ⟨children, named⟩ := exists_children fits
  obtain ⟨sourced, made⟩ := exists_sourcedWithin fits room
  -- With more lines asked for than there are of either kind, both are given in full.
  have same : sourced.map Prod.fst = lines := by
    have all := ctx.takeSourced_lines overflow (max sourced.length lines.length)
      [.entity (.op root) indent]
    rw [← firstSourced, firstSourced_of_within made (le_max_left _ _), ← firstLines,
      streams.begins, List.take_of_length_le (le_max_right _ _)] at all
    exact Except.ok.inj all
  refine ⟨children, sourced, named, same, fun limit enough => ?_,
    forall₂_reports_children (levelsApart_of_hasRoom acyclic room decided) made named⟩
  rw [← same, List.length_map] at enough
  exact firstSourced_of_within made enough

/-- Requests that make a module of a function, a bare operation, and another one behind. -/
def moduleWithChildren : List Request :=
  [.addOp { name := .bare "call" }, .addBlock { ops := [⟨0⟩] }, .addRegion { blocks := [⟨0⟩] },
    .addOp { name := OpKind.func.opName, regions := [⟨0⟩], symbol := some "main" },
    .addOp { name := .bare "loop", symbol := some "lost" },
    .addBlock { ops := [⟨1⟩] }, .addBlock { ops := [⟨2⟩] },
    .addRegion { blocks := [⟨1⟩, ⟨2⟩] }, .addOp { name := .bare "behind" },
    .addBlock { ops := [⟨3⟩] }, .addRegion { blocks := [⟨3⟩] },
    .addOp { name := OpKind.module.opName, regions := [⟨1⟩, ⟨2⟩] }]

/--
The function and the bare operation are the children, each with the line that summarizes it, also
where the indentation wraps around on the way to them.
-/
theorem children_reports_of_streams_moduleWithChildren :
    ∃ ctx, build moduleWithChildren = .ok ctx ∧ WellFounded ctx.types.IsParameter ∧
      ctx.AcyclicBelow (.op ⟨4⟩) ∧ ctx.Addressable ∧
      ∃ lines, ctx.Streams ⟨4⟩ 18446744073709551614 lines .wraps ∧ ∃ children sourced,
        ctx.children ⟨4⟩ = .ok children ∧ sourced.map Prod.fst = lines ∧
        (∀ limit, lines.length ≤ limit →
          ctx.firstSourced limit ⟨4⟩ 18446744073709551614 .wraps = .ok sourced) ∧
        children.map Child.label = ["func@main", "loop"] ∧
        List.Forall₂ (ctx.Reports 1) children (firstRegionOps 18446744073709551614 sourced) := by
  -- The labels are computed, and the tables are small enough for their numbers to be references.
  obtain ⟨ctx, built, types, few, listed, labels⟩ : ∃ ctx, build moduleWithChildren = .ok ctx ∧
      ctx.types.entries = #[] ∧
      (ctx.ops.size = 5 ∧ ctx.regions.size = 3 ∧ ctx.blocks.size = 4) ∧
      (∃ listing, ctx.preorder (.op ⟨4⟩) = .ok listing) ∧
      (ctx.children ⟨4⟩).map (List.map Child.label) = .ok ["func@main", "loop"] :=
    ⟨_, rfl, rfl, ⟨rfl, rfl, rfl⟩, ⟨_, rfl⟩, by decide +kernel⟩
  have wellFounded : WellFounded ctx.types.IsParameter :=
    TypeTable.wellFounded_of_plain (by simp [types])
  have addressable : ctx.Addressable := by
    obtain ⟨ops, regions, blocks⟩ := few
    exact ⟨by rw [ops]; decide, by rw [regions]; decide, by rw [blocks]; decide⟩
  -- The program is known and without cycles, as it can be listed.
  obtain ⟨known, acyclic⟩ := preorder_ok_iff.mp listed
  obtain ⟨streamsWhereKnown, reports⟩ :=
    children_reports_of_streams wellFounded acyclic .wraps 18446744073709551614
  -- Where sums wrap around there is always room, so that the dump is made.
  obtain ⟨lines, streams⟩ := streamsWhereKnown.mpr ⟨known, hasRoom_wraps _ _⟩
  obtain ⟨children, sourced, named, same, given, reported⟩ :=
    reports lines streams (.inr addressable)
  rw [named, Except.map, Except.ok.injEq] at labels
  exact ⟨ctx, built, wellFounded, acyclic, addressable, lines, streams, children, sourced, named,
    same, given, labels, reported⟩

end Context

end NestedIR
