import NestedIR.Proofs.Structure.Recursion

/-! In a build that checks its sums, a dump ends exactly where words are left for all its lines. -/

namespace NestedIR

/-- A list with an item that fails is given up where all the others have answers. -/
theorem mapM_eq_error {α β : Type} {request : α → Except Fault β} {items : List α} {fault : Fault}
    (each : ∀ item ∈ items, (∃ answer, request item = .ok answer) ∨ request item = .error fault)
    (failed : ∃ item ∈ items, request item = .error fault) : items.mapM request = .error fault := by
  -- The first item either fails, or it leaves the one that fails among the others.
  induction items with
  | nil =>
    obtain ⟨item, listed, -⟩ := failed
    cases listed
  | cons first rest ih =>
    rw [List.mapM_cons]
    refine bind_eq_error.mpr ?_
    rcases each first (by simp) with ⟨answer, answered⟩ | here
    · obtain ⟨item, listed, here⟩ := failed
      rcases List.mem_cons.mp listed with rfl | later
      · cases answered.symm.trans here
      · have remaining := ih (fun other isListed => each other (by simp [isListed]))
          ⟨item, later, here⟩
        exact .inr ⟨answer, answered, bind_eq_error.mpr (.inl remaining)⟩
    · exact .inl here

namespace Context

variable {ctx : Context} {overflow : Overflow}

/-- The attributes of an entity, which only operations have. -/
def attributesOf (ctx : Context) : Entity → List (String × Attribute)
  | .op op => ((ctx.op op).toOption.map fun data => data.attributes.entries).getD []
  | .region _ => []
  | .block _ => []

/-- No line of an entity stands more than a number of levels further in than its first line. -/
def IndentsWithin (ctx : Context) : Nat → Entity → Prop
  | 0, entity => ctx.listed entity = [] ∧ ctx.attributesOf entity = []
  | levels + 1, entity => ∀ member ∈ ctx.listed entity, ctx.IndentsWithin levels member

/-- In a build that checks its sums, a word is left for each level of the lines of an entity. -/
def HasRoom (ctx : Context) (overflow : Overflow) (entity : Entity) (indent : UInt64) : Prop :=
  overflow = .stops → ctx.IndentsWithin (UInt64.size - 1 - indent.toNat) entity

/-- Where sums wrap around, there is always room. -/
theorem hasRoom_wraps (entity : Entity) (indent : UInt64) : ctx.HasRoom .wraps entity indent :=
  nofun

/-- Of the lines that an entity begins with, only those of its attributes are indented by a sum. -/
theorem ownLines_eq (overflow : Overflow) (indent : UInt64) (entity : Entity) :
    ctx.ownLines indent overflow entity =
      overflow.inner indent (ctx.attributesOf entity) >>= fun _ =>
        ctx.ownLines indent .wraps entity := by
  cases entity with
  | op op =>
    rw [ownLines, ownLines, opLines, opLines, attributesOf]
    cases ctx.op op with
    | error fault => rfl
    | ok data =>
      have attributes : (data.describe ctx op).attributes =
          data.attributes.entries.map fun entry => (entry.1, entry.2.renderOrTag ctx) := rfl
      change (overflow.inner indent (data.describe ctx op).attributes >>= _) =
        (overflow.inner indent data.attributes.entries >>= fun _ =>
          Overflow.wraps.inner indent (data.describe ctx op).attributes >>= _)
      rw [attributes, Overflow.inner_map, Overflow.inner_wraps]
      -- A sum that is no fault is the next word in both builds.
      cases further : overflow.inner indent data.attributes.entries with
      | error fault => rfl
      | ok inner =>
        cases Overflow.eq_of_inner further
        rfl
  | region region => rfl
  | block block => rfl

/-- The lines that an entity begins with do not depend on the build where there are any. -/
theorem ownLines_wraps {entity : Entity} {indent : UInt64} {own : Line × List Line}
    (made : ctx.ownLines indent overflow entity = .ok own) :
    ctx.ownLines indent .wraps entity = .ok own := by
  rw [ownLines_eq] at made
  obtain ⟨_, -, made⟩ := bind_eq_ok.mp made
  exact made

/-- A build that checks its sums takes the same lines, as far as it gets. -/
theorem takeLines_wraps {limit : Nat} {stack : List Pending} {lines : List Line}
    (taken : ctx.takeLines overflow limit stack = .ok lines) :
    ctx.takeLines .wraps limit stack = .ok lines := by
  -- Each sum that is no fault is the next word in every build.
  have expanded {top : Pending} {next : Line × List Pending}
      (made : ctx.expand overflow top = .ok next) : ctx.expand .wraps top = .ok next := by
    cases top with
    | line line => exact made
    | entity entity indent =>
      obtain ⟨listed, members, made⟩ := bind_eq_ok.mp made
      obtain ⟨inner, further, made⟩ := bind_eq_ok.mp made
      obtain ⟨own, first, made⟩ := bind_eq_ok.mp made
      cases Overflow.eq_of_inner further
      exact bind_eq_ok.mpr ⟨listed, members, bind_eq_ok.mpr ⟨_, Overflow.inner_wraps ..,
        bind_eq_ok.mpr ⟨own, ownLines_wraps first, made⟩⟩⟩
  induction limit generalizing stack lines with
  | zero => exact taken
  | succ limit ih =>
    cases stack with
    | nil => exact taken
    | cons top rest =>
      obtain ⟨next, named, taken⟩ := bind_eq_ok.mp taken
      obtain ⟨⟨line, more⟩, made, same⟩ := bind_eq_ok.mp named
      cases same
      obtain ⟨others, takenRest, same⟩ := bind_eq_ok.mp taken
      cases same
      exact bind_eq_ok.mpr ⟨_, bind_eq_ok.mpr ⟨_, expanded made, rfl⟩,
        bind_eq_ok.mpr ⟨others, ih takenRest, rfl⟩⟩

/-- The lines that an entity begins with are known where it fits. -/
theorem exists_ownLines {depth : Nat} {entity : Entity} (fits : ctx.Fits depth entity)
    (indent : UInt64) : ∃ own, ctx.ownLines indent .wraps entity = .ok own := by
  cases entity with
  | op op =>
    obtain ⟨data, found⟩ := fits.exists_op
    exact ⟨_, bind_eq_ok.mpr ⟨data, found, bind_eq_ok.mpr ⟨_, Overflow.inner_wraps .., rfl⟩⟩⟩
  | region region =>
    obtain ⟨data, found⟩ := fits.exists_region
    exact ⟨_, bind_eq_ok.mpr ⟨data, found, rfl⟩⟩
  | block block =>
    obtain ⟨data, found⟩ := fits.exists_block
    -- The last operation tells the successors, and it fits as well.
    have successors : ∃ targets, ctx.successors block = .ok targets := by
      cases last : data.ops.getLast? with
      | none => exact ⟨[], bind_eq_ok.mpr ⟨data, found, by rw [last]; rfl⟩⟩
      | some op =>
        have listed := List.mem_of_getLast? last
        obtain ⟨opData, foundOp⟩ :=
          (fits.inner (contains_block.mpr ⟨data, op, found, listed, rfl⟩)).exists_op
        exact ⟨opData.successors, bind_eq_ok.mpr ⟨data, found, by
          rw [last]
          exact bind_eq_ok.mpr ⟨opData, foundOp, rfl⟩⟩⟩
    obtain ⟨targets, targeted⟩ := successors
    exact ⟨_, bind_eq_ok.mpr ⟨data, found, bind_eq_ok.mpr ⟨targets, targeted, rfl⟩⟩⟩

/-- An entity has room when its attributes and members have a word, and its members have room. -/
theorem hasRoom_iff (entity : Entity) (indent : UInt64) :
    ctx.HasRoom overflow entity indent ↔
      overflow.inner indent (ctx.listed entity) = .ok (indent + 1) ∧
        overflow.inner indent (ctx.attributesOf entity) = .ok (indent + 1) ∧
          ∀ member ∈ ctx.listed entity, ctx.HasRoom overflow member (indent + 1) := by
  have below : indent.toNat < UInt64.size := indent.toNat_lt
  rw [Overflow.inner_eq, Overflow.inner_eq]
  cases overflow with
  | wraps => simp [HasRoom]
  | stops =>
    simp only [HasRoom, true_implies, true_and]
    by_cases last : UInt64.size ≤ indent.toNat + 1
    · -- Behind the greatest word there must be nothing.
      have none : UInt64.size - 1 - indent.toNat = 0 := by omega
      rw [none, IndentsWithin]
      simp +contextual [last]
    · -- There is a next word, and one level less is left behind it.
      obtain ⟨levels, left⟩ : ∃ levels, UInt64.size - 1 - indent.toNat = levels + 1 :=
        ⟨UInt64.size - 1 - indent.toNat - 1, by omega⟩
      have sum : (indent + 1).toNat = indent.toNat + 1 := by
        rw [UInt64.toNat_add]
        exact Nat.mod_eq_of_lt (not_le.mp last)
      have next : UInt64.size - 1 - (indent + 1).toNat = levels := by omega
      rw [left, IndentsWithin, next]
      simp [last]

/-- Levels that are enough for the lines of an entity are enough when there are more of them. -/
theorem IndentsWithin.mono {levels more : Nat} {entity : Entity}
    (within : ctx.IndentsWithin levels entity) (le : levels ≤ more) :
    ctx.IndentsWithin more entity := by
  -- Members get by with one level less on both sides.
  induction levels generalizing more entity with
  | zero =>
    cases more with
    | zero => exact within
    | succ more => simp [IndentsWithin, within.1]
  | succ levels ih =>
    obtain ⟨rest, rfl⟩ : ∃ rest, more = rest + 1 := ⟨more - 1, by omega⟩
    exact fun member isListed => ih (within member isListed) (by omega)

/-- The members of an entity get by with one level less than the entity itself. -/
theorem IndentsWithin.of_listed {levels : Nat} {entity member : Entity}
    (within : ctx.IndentsWithin levels entity) (isListed : member ∈ ctx.listed entity) :
    ∃ less, levels = less + 1 ∧ ctx.IndentsWithin less member := by
  cases levels with
  | zero => simp [within.1] at isListed
  | succ less => exact ⟨less, rfl, within member isListed⟩

/-- Where every way down is shorter than a depth, there are no more levels than that. -/
theorem indentsWithin_of_shallow {depth : Nat} {entity : Entity}
    (shallow : Shallow ctx.Contains depth entity) : ctx.IndentsWithin depth entity := by
  -- What has no members may still have attributes, which take the last level.
  induction depth generalizing entity with
  | zero => cases shallow
  | succ depth ih => exact fun member isListed => ih (shallow member (mem_listed_iff.mp isListed))

/-- The entities of each kind are numbered by words of 32 bits, as references to them are. -/
structure Addressable (ctx : Context) : Prop where
  /-- Operations have such numbers. -/
  ops : ctx.ops.size ≤ UInt32.size
  /-- Regions have such numbers. -/
  regions : ctx.regions.size ≤ UInt32.size
  /-- Blocks have such numbers. -/
  blocks : ctx.blocks.size ≤ UInt32.size

/-- With references of 32 bits, no way down is longer than there are entities to number. -/
theorem Addressable.depthBound_le (addressable : ctx.Addressable) :
    ctx.depthBound ≤ 3 * UInt32.size + 1 := by
  have ops := addressable.ops
  have regions := addressable.regions
  have blocks := addressable.blocks
  rw [depthBound]
  omega

/-- With references of 32 bits, only indentations close to the greatest word are without room. -/
theorem Addressable.hasRoom (addressable : ctx.Addressable) {entity : Entity}
    (acyclic : ctx.AcyclicBelow entity) {indent : UInt64}
    (early : indent.toNat + 3 * UInt32.size + 1 < UInt64.size) :
    ctx.HasRoom overflow entity indent := by
  intro _
  have bound := addressable.depthBound_le
  exact (indentsWithin_of_shallow (shallow_depthBound acyclic)).mono (by omega)

/-- What fits is dumped by recursion where it has room, and elsewhere a sum is too large. -/
theorem dumpEntity_of_fits {depth enough : Nat} {entity : Entity} (fits : ctx.Fits depth entity)
    (le : depth ≤ enough) (overflow : Overflow) (indent : UInt64) :
    (ctx.HasRoom overflow entity indent → ∃ lines,
        ctx.dumpEntity overflow (ctx.dumpOp overflow enough) indent entity = .ok lines) ∧
      (¬ ctx.HasRoom overflow entity indent →
        ctx.dumpEntity overflow (ctx.dumpOp overflow enough) indent entity =
          .error .sumTooLarge) := by
  -- Members fit into one step less, which the recursion has left for them.
  induction depth generalizing enough entity indent with
  | zero => cases fits
  | succ depth ih =>
    obtain ⟨left, rfl⟩ : ∃ left, enough = left + 1 := ⟨enough - 1, by omega⟩
    obtain ⟨below, more, same⟩ := ctx.dumpEntity_succ left indent entity
    obtain ⟨own, first⟩ := exists_ownLines fits indent
    obtain ⟨listed, members, inside⟩ := fits
    have each (member : Entity) (isListed : member ∈ listed) (indent : UInt64) :=
      ih (inside member isListed) (show depth ≤ below by omega) indent
    rw [same, hasRoom_iff, listed_eq members]
    constructor
    · rintro ⟨further, furtherEntry, room⟩
      obtain ⟨parts, mapped⟩ := mapM_ok_iff.mpr fun member isListed =>
        (each member isListed (indent + 1)).1 (room member isListed)
      refine ⟨_, bind_eq_ok.mpr ⟨listed, members, bind_eq_ok.mpr ⟨_, further,
        bind_eq_ok.mpr ⟨own, ?_, bind_eq_ok.mpr ⟨parts, mapped, rfl⟩⟩⟩⟩⟩
      rw [ownLines_eq, furtherEntry]
      exact first
    · intro noRoom
      refine bind_eq_error.mpr (.inr ⟨listed, members, bind_eq_error.mpr ?_⟩)
      -- The first sum that is too large may be one for the members, for the attributes, or deeper.
      rcases overflow.inner_cases indent listed with further | tooLarge
      · refine .inr ⟨_, further, bind_eq_error.mpr ?_⟩
        rw [ownLines_eq]
        rcases overflow.inner_cases indent (ctx.attributesOf entity) with furtherEntry | tooLarge
        · refine .inr ⟨own, bind_eq_ok.mpr ⟨_, furtherEntry, first⟩, bind_eq_error.mpr (.inl ?_)⟩
          obtain ⟨member, isListed, crowded⟩ : ∃ member ∈ listed,
              ¬ ctx.HasRoom overflow member (indent + 1) := by
            by_contra all
            push Not at all
            exact noRoom ⟨further, furtherEntry, all⟩
          refine mapM_eq_error (fun other isOther => ?_)
            ⟨member, isListed, (each member isListed (indent + 1)).2 crowded⟩
          by_cases room : ctx.HasRoom overflow other (indent + 1)
          · exact .inl ((each other isOther (indent + 1)).1 room)
          · exact .inr ((each other isOther (indent + 1)).2 room)
        · exact .inl (bind_eq_error.mpr (.inl tooLarge))
      · exact .inl tooLarge

end Context

end NestedIR
