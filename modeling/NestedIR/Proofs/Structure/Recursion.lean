import NestedIR.Proofs.Context.Listing
import NestedIR.Proofs.TypeTable
import NestedIR.Structure.Dump

/-! The lines that come from a stack one by one are those of a dump by recursion. -/

namespace NestedIR.Context

open Relation

variable {ctx : Context} {overflow : Overflow}

/-- The lines of a block, given those of an operation. -/
def dumpBlock (ctx : Context) (overflow : Overflow)
    (below : UInt64 → OpId → Except Fault (List Line)) (indent : UInt64) (block : BlockId) :
    Except Fault (List Line) := do
  let data ← ctx.block block
  let inner ← overflow.inner indent data.ops
  let successors ← ctx.successors block
  let ops ← data.ops.mapM (below inner)
  return .block indent data.arguments.length successors.length data.ops.length :: ops.flatten

/-- The lines of a region, given those of an operation. -/
def dumpRegion (ctx : Context) (overflow : Overflow)
    (below : UInt64 → OpId → Except Fault (List Line)) (indent : UInt64) (region : RegionId) :
    Except Fault (List Line) := do
  let data ← ctx.region region
  let inner ← overflow.inner indent data.blocks
  let blocks ← data.blocks.mapM (ctx.dumpBlock overflow below inner)
  return .region indent data.blocks.length :: blocks.flatten

/-- The lines of an operation, given those of the operations nested in it. -/
def dumpNested (ctx : Context) (overflow : Overflow)
    (below : UInt64 → OpId → Except Fault (List Line)) (indent : UInt64) (op : OpId) :
    Except Fault (List Line) := do
  let data ← ctx.op op
  let attributes := data.attributes.entries
  let inner ← overflow.inner indent data.regions
  let innerEntry ← overflow.inner indent attributes
  let summary := Line.op indent (data.describe ctx op).label data.operands.length
    data.results.length attributes.length data.regions.length data.successors.length
  let entries := if attributes.isEmpty then []
    else .attributesHeader indent attributes.length ::
      attributes.map fun (key, value) => .entry innerEntry key (value.renderOrTag ctx)
  let header := if data.regions.isEmpty then [] else [.regionsHeader indent data.regions.length]
  let regions ← data.regions.mapM (ctx.dumpRegion overflow below inner)
  return summary :: entries ++ header ++ regions.flatten

/-- The lines of an operation by recursion, down to a depth. -/
def dumpOp (ctx : Context) (overflow : Overflow) :
    Nat → UInt64 → OpId → Except Fault (List Line)
  | 0, _, op => .error (.containmentCycle (.op op))
  | depth + 1, indent, op => ctx.dumpNested overflow (ctx.dumpOp overflow depth) indent op

/-- All lines of an operation by recursion, with its summary at an indentation. -/
def recursiveDump (ctx : Context) (overflow : Overflow) (indent : UInt64) (op : OpId) :
    Except Fault (List Line) :=
  ctx.dumpOp overflow ctx.depthBound indent op

/-- The lines of an entity, given those of an operation. -/
def dumpEntity (ctx : Context) (overflow : Overflow)
    (below : UInt64 → OpId → Except Fault (List Line)) (indent : UInt64) :
    Entity → Except Fault (List Line)
  | .op op => below indent op
  | .region region => ctx.dumpRegion overflow below indent region
  | .block block => ctx.dumpBlock overflow below indent block

/-- The lines that an entity begins with, and those of its members in order. -/
def linesInOrder (ctx : Context) (overflow : Overflow)
    (below : UInt64 → OpId → Except Fault (List Line)) (indent : UInt64) (entity : Entity) :
    Except Fault (List Line) := do
  let listed ← ctx.members entity
  let inner ← overflow.inner indent listed
  let own ← ctx.ownLines indent overflow entity
  let parts ← listed.mapM (ctx.dumpEntity overflow below inner)
  return own.1 :: own.2 ++ parts.flatten

/-- A dump of an operation goes on with its regions. -/
theorem dumpNested_eq (below : UInt64 → OpId → Except Fault (List Line)) (indent : UInt64)
    (op : OpId) :
    ctx.dumpNested overflow below indent op = ctx.linesInOrder overflow below indent (.op op) := by
  -- The description has the texts of the attributes, one for each of them.
  rw [dumpNested, linesInOrder, ownLines, opLines, members]
  cases ctx.op op with
  | error fault => rfl
  | ok data =>
    have texts : (data.describe ctx op).attributes =
        data.attributes.entries.map fun entry => (entry.1, entry.2.renderOrTag ctx) := rfl
    change (overflow.inner indent data.regions >>= _) =
      (overflow.inner indent (data.regions.map Entity.region) >>= _)
    rw [Overflow.inner_map]
    cases overflow.inner indent data.regions with
    | error fault => rfl
    | ok inner =>
      change (overflow.inner indent data.attributes.entries >>= _) =
        ((overflow.inner indent (data.describe ctx op).attributes >>= _) >>= _)
      rw [texts, Overflow.inner_map]
      cases overflow.inner indent data.attributes.entries with
      | error fault => rfl
      | ok innerEntry =>
        change (data.regions.mapM (ctx.dumpRegion overflow below inner) >>= _) =
          ((data.regions.map Entity.region).mapM (ctx.dumpEntity overflow below inner) >>= _)
        rw [List.mapM_map]
        change _ = (data.regions.mapM (ctx.dumpRegion overflow below inner) >>= _)
        cases data.regions.mapM (ctx.dumpRegion overflow below inner) with
        | error fault => rfl
        | ok parts =>
          change Except.ok _ = Except.ok _
          simp [texts, Description.attributeLines, Function.comp_def]

/-- A dump of a region goes on with its blocks. -/
theorem dumpRegion_eq (below : UInt64 → OpId → Except Fault (List Line)) (indent : UInt64)
    (region : RegionId) :
    ctx.dumpRegion overflow below indent region =
      ctx.linesInOrder overflow below indent (.region region) := by
  -- The summary of a region cannot fail once the region is known.
  rw [dumpRegion, linesInOrder, ownLines, members]
  cases ctx.region region with
  | error fault => rfl
  | ok data =>
    change (overflow.inner indent data.blocks >>= _) =
      (overflow.inner indent (data.blocks.map Entity.block) >>= _)
    rw [Overflow.inner_map]
    cases overflow.inner indent data.blocks with
    | error fault => rfl
    | ok inner =>
      change (data.blocks.mapM (ctx.dumpBlock overflow below inner) >>= _) =
        ((data.blocks.map Entity.block).mapM (ctx.dumpEntity overflow below inner) >>= _)
      rw [List.mapM_map]
      rfl

/-- A dump of a block goes on with its operations. -/
theorem dumpBlock_eq (below : UInt64 → OpId → Except Fault (List Line)) (indent : UInt64)
    (block : BlockId) :
    ctx.dumpBlock overflow below indent block =
      ctx.linesInOrder overflow below indent (.block block) := by
  -- The summary of a block may still fail to find its last operation.
  rw [dumpBlock, linesInOrder, ownLines, members]
  cases ctx.block block with
  | error fault => rfl
  | ok data =>
    change (overflow.inner indent data.ops >>= _) =
      (overflow.inner indent (data.ops.map Entity.op) >>= _)
    rw [Overflow.inner_map]
    cases overflow.inner indent data.ops with
    | error fault => rfl
    | ok inner =>
      change (ctx.successors block >>= _) = ((ctx.successors block >>= _) >>= _)
      cases ctx.successors block with
      | error fault => rfl
      | ok successors =>
        change (data.ops.mapM (below inner) >>= _) =
          ((data.ops.map Entity.op).mapM (ctx.dumpEntity overflow below inner) >>= _)
        rw [List.mapM_map]
        rfl

/-- A dump with some depth begins with the lines of the entity, and its members follow. -/
theorem dumpEntity_succ (depth : Nat) (indent : UInt64) (entity : Entity) :
    ∃ below, depth ≤ below ∧
      ctx.dumpEntity overflow (ctx.dumpOp overflow (depth + 1)) indent entity =
        ctx.linesInOrder overflow (ctx.dumpOp overflow below) indent entity := by
  -- Only operations take a step of depth.
  cases entity with
  | op op => exact ⟨depth, Nat.le_refl depth, dumpNested_eq _ indent op⟩
  | region region => exact ⟨depth + 1, Nat.le_succ depth, dumpRegion_eq _ indent region⟩
  | block block => exact ⟨depth + 1, Nat.le_succ depth, dumpBlock_eq _ indent block⟩

/-- A stack produces what is known of it: lines from the first on, or a fault behind some. -/
structure Produces (ctx : Context) (overflow : Overflow) (stack : List Pending)
    (outcome : Except Fault (List Line)) : Prop where
  /-- With enough lines asked for, the answer is the whole outcome. -/
  ends : ∃ enough, ∀ limit, enough ≤ limit → ctx.takeLines overflow limit stack = outcome
  /-- Without a fault, fewer lines asked for are the first ones. -/
  begins : ∀ lines, outcome = .ok lines →
    ∀ limit, ctx.takeLines overflow limit stack = .ok (lines.take limit)

/-- The lines of two dumps, one after the other. -/
def joined (first second : Except Fault (List Line)) : Except Fault (List Line) := do
  return (← first) ++ (← second)

/-- Of three dumps it makes no difference which two are put together first. -/
theorem joined_assoc (first second third : Except Fault (List Line)) :
    joined (joined first second) third = joined first (joined second third) := by
  cases first <;> cases second <;> cases third <;>
    simp [joined, Bind.bind, Except.bind, Pure.pure, Except.pure]

/-- Nothing in front of a dump leaves it as it is. -/
theorem joined_nil (outcome : Except Fault (List Line)) : joined (.ok []) outcome = outcome := by
  cases outcome <;> rfl

/-- Nothing behind a dump leaves it as it is. -/
theorem joined_ok_nil (outcome : Except Fault (List Line)) : joined outcome (.ok []) = outcome := by
  cases outcome <;> simp [joined, Bind.bind, Except.bind, Pure.pure, Except.pure]

namespace Produces

/-- The empty stack produces nothing. -/
theorem nil : ctx.Produces overflow [] (.ok []) := by
  refine ⟨⟨0, fun limit _ => ?_⟩, fun lines made limit => ?_⟩
  · cases limit <;> rfl
  · cases made
    cases limit <;> rfl

/-- A stack whose top expands into a line produces it before what the rest produces. -/
theorem line {top : Pending} {line : Line} {more rest : List Pending}
    {outcome : Except Fault (List Line)} (expanded : ctx.expand overflow top = .ok (line, more))
    (produces : ctx.Produces overflow (more ++ rest) outcome) :
    ctx.Produces overflow (top :: rest) (joined (.ok [line]) outcome) := by
  have next : ctx.nextLine overflow (top :: rest) = .ok (some (line, more ++ rest)) :=
    bind_eq_ok.mpr ⟨(line, more), expanded, rfl⟩
  have step (limit : Nat) : ctx.takeLines overflow (limit + 1) (top :: rest) =
      joined (.ok [line]) (ctx.takeLines overflow limit (more ++ rest)) := by
    rw [takeLines, next]
    rfl
  -- One line is taken first, and the limit on the others is one less.
  refine ⟨?_, fun lines made limit => ?_⟩
  · obtain ⟨enough, ends⟩ := produces.ends
    refine ⟨enough + 1, fun limit le => ?_⟩
    obtain ⟨less, rfl⟩ : ∃ less, limit = less + 1 := ⟨limit - 1, by omega⟩
    rw [step, ends less (by omega)]
  · cases outcome with
    | error fault => cases made
    | ok others =>
      cases made
      cases limit with
      | zero => rfl
      | succ limit =>
        rw [step, produces.begins others rfl limit]
        rfl

/-- A stack whose top cannot be expanded produces the fault at once. -/
theorem fault {top : Pending} {fault : Fault} {rest : List Pending}
    (refused : ctx.expand overflow top = .error fault) :
    ctx.Produces overflow (top :: rest) (.error fault) := by
  -- One step is enough to come to the fault, and no lines are made.
  refine ⟨⟨1, fun limit le => ?_⟩, fun lines made => by cases made⟩
  obtain ⟨less, rfl⟩ : ∃ less, limit = less + 1 := ⟨limit - 1, by omega⟩
  rw [takeLines, nextLine, refused]
  rfl

/-- Lines that are known already are produced as they are. -/
theorem lines (known : List Line) {rest : List Pending} {outcome : Except Fault (List Line)}
    (produces : ctx.Produces overflow rest outcome) :
    ctx.Produces overflow (known.map .line ++ rest) (joined (.ok known) outcome) := by
  -- A known line leaves nothing to be expanded.
  induction known with
  | nil => rwa [joined_nil]
  | cons first others ih =>
    have expanded : ctx.expand overflow (.line first) = .ok (first, []) := rfl
    have more := line expanded ih
    rwa [← joined_assoc] at more

end Produces

/-- A pending item dumps some lines when it produces them in front of what the rest produces. -/
def Dumps (ctx : Context) (overflow : Overflow) (top : Pending)
    (dump : Except Fault (List Line)) : Prop :=
  ∀ rest outcome, ctx.Produces overflow rest outcome →
    ctx.Produces overflow (top :: rest) (joined dump outcome)

namespace Dumps

/-- Items that dump their lines do so one after the other. -/
theorem each {α : Type} {items : List α} {pending : α → Pending}
    {dump : α → Except Fault (List Line)}
    (dumps : ∀ item ∈ items, ctx.Dumps overflow (pending item) (dump item))
    {rest : List Pending} {outcome : Except Fault (List Line)}
    (produces : ctx.Produces overflow rest outcome) :
    ctx.Produces overflow (items.map pending ++ rest)
      (joined ((items.mapM dump).map List.flatten) outcome) := by
  -- The first item is in front of a stack that starts with the others.
  induction items with
  | nil =>
    change ctx.Produces overflow rest (joined (.ok []) outcome)
    rwa [joined_nil]
  | cons first others ih =>
    have later := ih fun item listed => dumps item (by simp [listed])
    have all := dumps first (by simp) _ _ later
    rw [← joined_assoc] at all
    have parts : ((first :: others).mapM dump).map List.flatten =
        joined (dump first) ((others.mapM dump).map List.flatten) := by
      rw [List.mapM_cons]
      cases dump first with
      | error fault => rfl
      | ok head => cases others.mapM dump <;> rfl
    rwa [parts]

/-- An entity dumps its own lines in front of those of its members, if these dump theirs. -/
theorem entity {below : UInt64 → OpId → Except Fault (List Line)} {indent : UInt64}
    {entity : Entity} (dumps : ∀ member, ctx.Contains entity member →
      ctx.Dumps overflow (.entity member (indent + 1))
        (ctx.dumpEntity overflow below (indent + 1) member)) :
    ctx.Dumps overflow (.entity entity indent) (ctx.linesInOrder overflow below indent entity) := by
  -- The stack and the recursion look at the same things first, and fail at the same one.
  intro rest outcome produces
  rw [linesInOrder]
  cases members : ctx.members entity with
  | error fault => exact Produces.fault (bind_eq_error.mpr (.inl members))
  | ok listed =>
    change ctx.Produces overflow _ (joined (overflow.inner indent listed >>= _) _)
    cases further : overflow.inner indent listed with
    | error fault =>
      exact Produces.fault (bind_eq_error.mpr (.inr ⟨listed, members,
        bind_eq_error.mpr (.inl further)⟩))
    | ok inner =>
      change ctx.Produces overflow _ (joined (ctx.ownLines indent overflow entity >>= _) _)
      cases own : ctx.ownLines indent overflow entity with
      | error fault =>
        exact Produces.fault (bind_eq_error.mpr (.inr ⟨listed, members,
          bind_eq_error.mpr (.inr ⟨inner, further, bind_eq_error.mpr (.inl own)⟩)⟩))
      | ok lines =>
        have expanded : ctx.expand overflow (.entity entity indent) = .ok (lines.1,
            lines.2.map .line ++ listed.map fun member => .entity member inner) :=
          bind_eq_ok.mpr ⟨listed, members, bind_eq_ok.mpr ⟨inner, further,
            bind_eq_ok.mpr ⟨lines, own, rfl⟩⟩⟩
        cases Overflow.eq_of_inner further
        -- The lines of the entity stand above its members on the stack.
        have below :=
          each (fun member isListed => dumps member ⟨listed, members, isListed⟩) produces
        have all := Produces.lines lines.2 below
        rw [← List.append_assoc] at all
        have whole := Produces.line expanded all
        rw [← joined_assoc, ← joined_assoc] at whole
        have same (parts : Except Fault (List (List Line))) :
            joined (joined (.ok [lines.1]) (.ok lines.2)) (parts.map List.flatten) =
              (parts >>= fun parts => Except.ok (lines.1 :: lines.2 ++ parts.flatten)) := by
          cases parts <;> rfl
        rwa [same] at whole

/-- Without a cycle below it, an entity dumps what the recursion gives, faults included. -/
theorem of_shallow {depth enough : Nat} {entity : Entity}
    (shallow : Shallow ctx.Contains depth entity) (le : depth ≤ enough) (overflow : Overflow)
    (indent : UInt64) :
    ctx.Dumps overflow (.entity entity indent)
      (ctx.dumpEntity overflow (ctx.dumpOp overflow enough) indent entity) := by
  -- Members are one step further down, and the recursion has one step less left at most.
  induction depth generalizing enough entity indent with
  | zero => cases shallow
  | succ depth ih =>
    obtain ⟨left, rfl⟩ : ∃ left, enough = left + 1 := ⟨enough - 1, by omega⟩
    obtain ⟨below, more, same⟩ := ctx.dumpEntity_succ left indent entity
    rw [same]
    exact Dumps.entity fun member contains => ih (shallow member contains) (by omega) (indent + 1)

end Dumps

/-- Without a cycle below it, an operation on the stack produces what the recursion gives. -/
theorem produces_recursiveDump {root : OpId} (acyclic : ctx.AcyclicBelow (.op root))
    (overflow : Overflow) (indent : UInt64) :
    ctx.Produces overflow [.entity (.op root) indent]
      (ctx.recursiveDump overflow indent root) := by
  -- Nothing else is on the stack.
  have produces : ctx.Produces overflow [.entity (.op root) indent]
      (joined (ctx.recursiveDump overflow indent root) (.ok [])) :=
    Dumps.of_shallow (shallow_depthBound acyclic) (Nat.le_refl _) overflow indent [] (.ok []) .nil
  rwa [joined_ok_nil] at produces

/-- Once the depth is enough, more of it makes no difference to a dump by recursion. -/
theorem dumpEntity_congr {depth first second : Nat} {entity : Entity}
    (shallow : Shallow ctx.Contains depth entity) (le : depth ≤ first) (leToo : depth ≤ second)
    (indent : UInt64) :
    ctx.dumpEntity overflow (ctx.dumpOp overflow first) indent entity =
      ctx.dumpEntity overflow (ctx.dumpOp overflow second) indent entity := by
  -- The stack produces both, and it produces one outcome only.
  obtain ⟨enough, ends⟩ := (Dumps.of_shallow shallow le overflow indent [] _ .nil).ends
  obtain ⟨enoughToo, endsToo⟩ := (Dumps.of_shallow shallow leToo overflow indent [] _ .nil).ends
  have same := (ends _ (Nat.le_max_left enough enoughToo)).symm.trans
    (endsToo _ (Nat.le_max_right enough enoughToo))
  rwa [joined_ok_nil, joined_ok_nil] at same

/-- Without a cycle, the dump by recursion of an operation is put together from such dumps. -/
theorem recursiveDump_eq {root : OpId} (acyclic : ctx.AcyclicBelow (.op root))
    (overflow : Overflow) (indent : UInt64) :
    ctx.recursiveDump overflow indent root =
      ctx.dumpNested overflow (ctx.recursiveDump overflow) indent root := by
  -- The regions of the operation leave one step of depth that is not needed.
  obtain ⟨rest, bound⟩ : ∃ rest, ctx.depthBound = rest + 1 := ⟨_, ctx.depthBound_eq⟩
  have shallow := shallow_depthBound acyclic
  have deep : ctx.recursiveDump overflow = ctx.dumpOp overflow (rest + 1) := by
    rw [← bound]
    rfl
  rw [bound] at shallow
  rw [deep, dumpOp, dumpNested_eq, dumpNested_eq, linesInOrder, linesInOrder]
  cases members : ctx.members (.op root) with
  | error fault => rfl
  | ok listed =>
    have same (inner : UInt64) :
        listed.mapM (ctx.dumpEntity overflow (ctx.dumpOp overflow rest) inner) =
          listed.mapM (ctx.dumpEntity overflow (ctx.dumpOp overflow (rest + 1)) inner) :=
      mapM_congr fun member isListed =>
        dumpEntity_congr (shallow member ⟨listed, members, isListed⟩) (Nat.le_refl rest)
          (Nat.le_succ rest) inner
    change (overflow.inner indent listed >>= fun inner =>
      ctx.ownLines indent overflow (.op root) >>= fun own =>
        listed.mapM (ctx.dumpEntity overflow (ctx.dumpOp overflow rest) inner) >>= fun parts =>
          pure (own.1 :: own.2 ++ parts.flatten)) = _
    simp only [same]
    rfl

end NestedIR.Context
