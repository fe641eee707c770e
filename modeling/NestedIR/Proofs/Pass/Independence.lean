import NestedIR.Proofs.Pass.Mirror
import NestedIR.Proofs.Pass.Targets

/-! Canonicalization does to each of two independent operations what it does to it alone. -/

namespace NestedIR

open Relation

namespace Context

variable {ctx : Context} {first second : OpId}

/--
Nothing strictly below an operation reads what something strictly below another one defines.

The arguments of blocks are no such thing. They may be read, as no rewrite changes them.
-/
def ReadsNothingOf (ctx : Context) (reader other : OpId) : Prop :=
  ∀ user data value known definer index, TransGen ctx.Contains (.op reader) (.op user) →
    ctx.op user = .ok data → value ∈ data.operands → ctx.value value = .ok known →
      known.definition = .result definer index → ¬ TransGen ctx.Contains (.op other) (.op definer)

/-- Neither of two operations contains the other one, and neither reads anything of the other. -/
structure Independent (ctx : Context) (first second : OpId) : Prop where
  /-- The first one does not contain the second one. -/
  outside : ¬ ReflTransGen ctx.Contains (.op first) (.op second)
  /-- The second one does not contain the first one. -/
  outside' : ¬ ReflTransGen ctx.Contains (.op second) (.op first)
  /-- The first one reads nothing of the second one. -/
  reads : ctx.ReadsNothingOf first second
  /-- The second one reads nothing of the first one. -/
  reads' : ctx.ReadsNothingOf second first

/-- It does not matter which of the two comes first. -/
theorem Independent.symm (independent : ctx.Independent first second) :
    ctx.Independent second first :=
  ⟨independent.outside', independent.outside, independent.reads', independent.reads⟩

/-- The operations that define what the operations of a listing read. -/
def definersRead (ctx : Context) (listing : List Entity) : List OpId :=
  (listing.filterMap Entity.op?).flatMap fun op =>
    (ctx.op op).toOption.toList.flatMap fun data => data.operands.filterMap fun value =>
      match ctx.value value with
      | .ok ⟨.result definer _, _⟩ => some definer
      | _ => none

/-- Nothing in one listing is read in another one if none of it defines what is read there. -/
theorem readsNothingOf_of_listings {listing listing' : List Entity}
    (listed : ctx.preorder (.op first) = .ok listing)
    (listed' : ctx.preorder (.op second) = .ok listing')
    (apart : ∀ definer ∈ ctx.definersRead listing, .op definer ∉ listing') :
    ctx.ReadsNothingOf first second := by
  intro user data value known definer index below found read foundValue defines path
  -- What is read below the first operation is read in its listing.
  have isUser := (mem_preorderWithin_iff listed).mpr below.to_reflTransGen
  refine apart definer ?_ ((mem_preorderWithin_iff listed').mpr path.to_reflTransGen)
  obtain ⟨definition, type⟩ := known
  cases defines
  refine List.mem_flatMap.mpr ⟨user, List.mem_filterMap.mpr ⟨_, isUser, rfl⟩,
    List.mem_flatMap.mpr ⟨data, by simp [found, Except.toOption], ?_⟩⟩
  exact List.mem_filterMap.mpr ⟨value, read, by rw [foundValue]⟩

/-- Two operations are independent if neither is listed or read in the listing of the other. -/
theorem Independent.of_listings {listing listing' : List Entity}
    (listed : ctx.preorder (.op first) = .ok listing)
    (listed' : ctx.preorder (.op second) = .ok listing')
    (outside : .op second ∉ listing ∧ .op first ∉ listing')
    (apart : ∀ definer ∈ ctx.definersRead listing, .op definer ∉ listing')
    (apart' : ∀ definer ∈ ctx.definersRead listing', .op definer ∉ listing) :
    ctx.Independent first second where
  -- What is inside an operation is what its listing shows.
  outside path := outside.1 ((mem_preorderWithin_iff listed).mpr path)
  outside' path := outside.2 ((mem_preorderWithin_iff listed').mpr path)
  reads := readsNothingOf_of_listings listed listed' apart
  reads' := readsNothingOf_of_listings listed' listed apart'

/-- An entity is strictly below an operation, or it is an operation that is not known yet. -/
def Inside (ctx : Context) (root : OpId) (entity : Entity) : Prop :=
  TransGen ctx.Contains (.op root) entity ∨ ∃ op, entity = .op op ∧ ctx.ops.size ≤ op.index

end Context

/-- Two operations that do not contain each other are apart. -/
theorem Sound.apart {discarded : OpId → Prop} {ctx : Context} (sound : Sound discarded ctx)
    {first second : OpId} (outside : ¬ ReflTransGen ctx.Contains (.op first) (.op second))
    (outside' : ¬ ReflTransGen ctx.Contains (.op second) (.op first)) :
    ctx.Apart (.op first) (.op second) := by
  -- Nothing has two owners, so that two ways down to one entity go the same last steps.
  intro inner down
  induction down with
  | refl => exact outside'
  | tail above contains ih =>
    intro path
    rcases ReflTransGen.cases_tail path with rfl | ⟨owner, pathAbove, holds⟩
    · exact outside (above.tail contains)
    · cases sound.owner_unique contains holds
      exact ih pathAbove

namespace Evolves

variable {touched : OpId → Prop} {ctx ctx' : Context}

/-- No value goes away. -/
theorem values_size_le (evolves : Evolves touched ctx ctx') :
    ctx.values.size ≤ ctx'.values.size := by
  refine Nat.not_lt.mp fun fewer => ?_
  obtain ⟨data, found⟩ := @Context.exists_value_of_lt ctx ⟨ctx'.values.size⟩ fewer
  exact Context.value_ne_next (evolves.value_known found) rfl

/-- A known operation is inside nothing after a change that it was not inside before. -/
theorem not_reaches (evolves : Evolves touched ctx ctx') {outer : Entity} {op : OpId}
    {data : Operation} (found : ctx.op op = .ok data)
    (outside : ¬ ReflTransGen ctx.Contains outer (.op op)) :
    ¬ ReflTransGen ctx'.Contains outer (.op op) := by
  intro path
  -- A known operation is not among the entities that are new, and the others were inside before.
  rcases reflTransGen_iff_eq_or_transGen.mp path with same | path
  · exact outside (same ▸ .refl)
  · rcases evolves.transGen_contains path with before | ⟨_, same, new⟩
    · exact outside before.to_reflTransGen
    · cases same
      exact absurd (Context.index_lt_of_op found) (Nat.not_lt.mpr new)

end Evolves

/-- What a change leaves alone of what is strictly below an operation. -/
structure Spares (root : OpId) (ctx ctx' : Context) : Prop where
  /-- Operations stay as they are. -/
  op_eq : ∀ {op data}, TransGen ctx.Contains (.op root) (.op op) → ctx.op op = .ok data →
    ctx'.op op = .ok data
  /-- Results keep their uses. -/
  mem_usesOf_iff : ∀ {op data value}, TransGen ctx.Contains (.op root) (.op op) →
    ctx.op op = .ok data → value ∈ data.results →
      ∀ use, use ∈ ctx'.usesOf value ↔ use ∈ ctx.usesOf value

/-- What replaces something of one of two independent operations spares the other one. -/
theorem Spares.replaces {touched : OpId → Prop} {ctx mid last : Context} {root other op : OpId}
    {heir : Option OpId} {moved : ValueId → ValueId} (spares : Spares root ctx mid)
    (tidy : Tidy ctx) (independent : ctx.Independent root other)
    (evolves : Evolves touched ctx mid) (replaces : Replaces op heir moved mid last)
    (replaced : ∀ data, ctx.op op = .ok data → TransGen ctx.Contains (.op other) (.op op)) :
    Spares root ctx last := by
  obtain ⟨gone, sound⟩ := tidy.sound
  -- What is inside one of the operations is not the one that is replaced in the other.
  have differs {inner : OpId} (below : TransGen ctx.Contains (.op root) (.op inner)) :
      inner ≠ op := by
    rintro rfl
    obtain ⟨data, -, found, -⟩ := sound.attached_below below
    exact sound.apart independent.outside independent.outside' _ below.to_reflTransGen
      (replaced data found).to_reflTransGen
  constructor
  · intro inner data below found
    -- Operands that the replaced operation does not define stay.
    have operands : mid.moveOperands moved inner data.operands = data.operands := by
      refine List.ext_getElem? fun index => ?_
      rw [Context.getElem?_moveOperands]
      cases held : data.operands[index]? with
      | none => rfl
      | some value =>
        have read := List.mem_of_getElem? held
        obtain ⟨known, foundValue⟩ := tidy.known found read
        have stays : moved value = value := by
          refine replaces.moved_other (evolves.value_known foundValue) fun place defines => ?_
          obtain ⟨definer, foundDefiner, -⟩ := tidy.definer foundValue defines
          exact independent.reads inner data value known op place below found read foundValue
            defines (replaced definer foundDefiner)
        simp [stays]
    have foundLast := replaces.op_known (spares.op_eq below found)
    rw [operands, if_neg (differs below)] at foundLast
    exact foundLast
  -- The uses of what is defined inside are by operations that are not replaced.
  · intro inner data value below found isResult use
    obtain ⟨known, index, foundValue, defines⟩ := tidy.defined found isResult
    rw [replaces.mem_usesOf_known (evolves.value_known foundValue) defines,
      spares.mem_usesOf_iff below found isResult]
    refine ⟨fun kept => kept.2.2, fun listed => ⟨?_, differs below, listed⟩⟩
    -- What uses the value was known before, and is not below the other operation.
    rintro rfl
    obtain ⟨user, foundUser, held⟩ :=
      Context.operand?_eq_some_iff.mp ((sound.uses.mem_iff value use).mp listed).1
    exact independent.reads' use.user user value known inner index (replaced user foundUser)
      foundUser (List.mem_of_getElem? held) foundValue defines below

/-- Rewrites within one of two independent operations spare the other one. -/
theorem Spares.of_rewrites {ctx ctx' : Context} {root other : OpId} (tidy : Tidy ctx)
    (independent : ctx.Independent root other) (rewrites : Rewrites (ctx.Within other) ctx ctx') :
    Spares root ctx ctx' := by
  induction rewrites with
  | refl => exact ⟨fun _ found => found, fun _ _ _ _ => .rfl⟩
  | tail before step ih =>
    obtain ⟨op, within, rewrite⟩ := step
    have earlier : Rewrites (ctx.Within other) ctx _ := before
    obtain ⟨gone, sound⟩ := (tidy.rewrites earlier).sound
    obtain ⟨heir, moved, replaces⟩ := rewrite.exists_replaces sound
    -- What is rewritten is new, or strictly below the other operation from the beginning.
    exact ih.replaces tidy independent earlier.evolves replaces fun data found =>
      within.resolve_right (Nat.not_le.mpr (Context.index_lt_of_op found))

namespace Renaming

/-- The names that keep what is known in a program and pass over what another one has on top. -/
def between (ctx ctx' : Context) : Renaming where
  op op := if op.index < ctx.ops.size then op else ⟨op.index + (ctx'.ops.size - ctx.ops.size)⟩
  value value :=
    if value.index < ctx.values.size then value
    else ⟨value.index + (ctx'.values.size - ctx.values.size)⟩
  op_injective := by
    rintro ⟨first⟩ ⟨second⟩ same
    dsimp only at same
    split at same <;> split at same <;> simp only [OpId.mk.injEq] at same ⊢ <;> omega
  value_injective := by
    rintro ⟨first⟩ ⟨second⟩ same
    dsimp only at same
    split at same <;> split at same <;> simp only [ValueId.mk.injEq] at same ⊢ <;> omega

variable {ctx ctx' : Context}

/-- Known operations keep their names. -/
theorem between_op {op : OpId} (known : op.index < ctx.ops.size) :
    (between ctx ctx').op op = op := if_pos known

/-- Known values keep their names. -/
theorem between_value {value : ValueId} (known : value.index < ctx.values.size) :
    (between ctx ctx').value value = value := if_pos known

end Renaming

/-- Rewrites within one of two independent operations are passed over inside the other one. -/
theorem Mirrors.of_rewrites {ctx ctx' : Context} {root other : OpId} (tidy : Tidy ctx)
    (independent : ctx.Independent root other) (rewrites : Rewrites (ctx.Within other) ctx ctx') :
    Mirrors (.between ctx ctx') (ctx.Inside root) ctx ctx' := by
  obtain ⟨gone, sound⟩ := tidy.sound
  -- Types, regions and the lists of blocks outside stay as they are.
  have leaves := tidy.leaves rewrites
  have apart := sound.apart independent.outside independent.outside'
  have spares := Spares.of_rewrites tidy independent rewrites
  -- What is inside and known is below the root.
  have below {op : OpId} {data : Operation} (inside : ctx.Inside root (.op op))
      (found : ctx.op op = .ok data) : TransGen ctx.Contains (.op root) (.op op) := by
    refine inside.resolve_right ?_
    rintro ⟨_, same, new⟩
    cases same
    exact absurd (Context.index_lt_of_op found) (Nat.not_lt.mpr new)
  constructor
  case types_eq => exact leaves.types_eq
  case regions_eq => exact leaves.regions_eq
  -- More numbers are given out after the rewrites, and none that was given out before.
  case fresh_op =>
    intro more
    have fewer := rewrites.evolves.size_le
    simp only [Renaming.between]
    rw [if_neg (by simp)]
    simp only [OpId.mk.injEq]
    omega
  case fresh_value =>
    intro more
    have fewer := rewrites.evolves.values_size_le
    simp only [Renaming.between]
    rw [if_neg (by simp)]
    simp only [ValueId.mk.injEq]
    omega
  case inside_new => exact fun op new => .inr ⟨op, rfl, new⟩
  case value_known =>
    -- A value keeps its name and its definition, as its definer is known.
    intro value data found
    rw [Renaming.between_value (Context.index_lt_of_value found),
      rewrites.evolves.value_known found]
    obtain ⟨definition, type⟩ := data
    cases definition with
    | argument block index => rfl
    | result op index =>
      obtain ⟨definer, foundDefiner, -⟩ := tidy.definer found rfl
      simp [Renaming.data, Renaming.between_op (Context.index_lt_of_op foundDefiner)]
  case op_known =>
    intro op data found
    rw [Renaming.between_op (Context.index_lt_of_op found)]
    obtain ⟨data', found', alike⟩ := leaves.shown op data found
    refine ⟨data', found', alike.name, alike.attributes, alike.regions, fun inside => ?_⟩
    -- What is read and defined inside is known, and so keeps its name.
    have keeps (values : List ValueId)
        (known : ∀ value ∈ values, ∃ old, ctx.value value = .ok old) :
        values.map (Renaming.between ctx ctx').value = values := by
      refine (List.map_congr_left fun value listed => ?_).trans (List.map_id values)
      obtain ⟨old, foundValue⟩ := known value listed
      exact Renaming.between_value (Context.index_lt_of_value foundValue)
    have operands := keeps data.operands fun value read => tidy.known found read
    have results := keeps data.results fun value isResult => by
      obtain ⟨known, -, foundValue, -⟩ := tidy.defined found isResult
      exact ⟨known, foundValue⟩
    rw [Renaming.operation, operands, results]
    exact Except.ok.inj (found'.symm.trans (spares.op_eq (below inside found) found))
  case block_known =>
    intro block data inside found
    -- A block inside lists what it has listed, under the same names.
    have path : TransGen ctx.Contains (.op root) (.block block) := inside.resolve_right (by simp)
    have stays := leaves.block found fun op listed => sound.not_within
      (fun around => apart _ path.to_reflTransGen around.to_reflTransGen)
      (Context.contains_block.mpr ⟨data, op, found, listed, rfl⟩)
    have ops : data.ops.map (Renaming.between ctx ctx').op = data.ops := by
      refine (List.map_congr_left fun op listed => ?_).trans (List.map_id data.ops)
      obtain ⟨known, foundOp, -⟩ := sound.ops.recorded found listed
      exact Renaming.between_op (Context.index_lt_of_op foundOp)
    rw [stays, ops]
  case mem_usesOf_iff =>
    intro op data value inside found isResult slot
    obtain ⟨known, -, foundValue, -⟩ := tidy.defined found isResult
    rw [Renaming.between_value (Context.index_lt_of_value foundValue),
      spares.mem_usesOf_iff (below inside found) found isResult]
    -- Users are known, and so keep their names.
    have keeps (use : Use) (listed : use ∈ ctx.usesOf value) :
        (Renaming.between ctx ctx').use use = use := by
      obtain ⟨user, foundUser, -⟩ :=
        Context.operand?_eq_some_iff.mp ((sound.uses.mem_iff value use).mp listed).1
      rw [Renaming.use, Renaming.between_op (Context.index_lt_of_op foundUser)]
    constructor
    · exact fun listed => ⟨slot, listed, keeps slot listed⟩
    · rintro ⟨use, listed, rfl⟩
      rwa [keeps use listed]

/--
Rewrites within two independent operations, in either order.

What they leave of each operation in one order mirrors what they leave of it in the other order.
-/
structure Crossing (first second : OpId) (ctx mid mid' last last' : Context) : Prop where
  /-- The program is tidy in the beginning. -/
  tidy : Tidy ctx
  /-- The operations are independent. -/
  independent : ctx.Independent first second
  /-- Everything below the first operation is known. -/
  fits : ctx.Fits ctx.depthBound (.op first)
  /-- Everything below the second operation is known. -/
  fits' : ctx.Fits ctx.depthBound (.op second)
  /-- In one order, the first operation comes first. -/
  before : Rewrites (ctx.Within first) ctx mid
  /-- In this order, the second operation comes next. -/
  after : Rewrites (mid.Within second) mid last
  /-- In the other order, the second operation comes first. -/
  before' : Rewrites (ctx.Within second) ctx mid'
  /-- In this order, the first operation comes next. -/
  after' : Rewrites (mid'.Within first) mid' last'
  /-- What is left of the first operation when it comes first is mirrored when it comes next. -/
  mirrors : Mirrors (.between ctx mid') (ctx.Inside first) mid last'
  /-- What is left of the second operation when it comes first is mirrored when it comes next. -/
  mirrors' : Mirrors (.between ctx mid) (ctx.Inside second) mid' last

/-- Entities that correspond in two orders. Only operations that are new have two names. -/
inductive Corresponds (ctx mid mid' : Context) : Entity → Entity → Prop where
  /-- A region corresponds to itself. -/
  | region (region : RegionId) : Corresponds ctx mid mid' (.region region) (.region region)
  /-- A block corresponds to itself. -/
  | block (block : BlockId) : Corresponds ctx mid mid' (.block block) (.block block)
  /-- What is known when the first operation has come first has a name in the other order. -/
  | first {op : OpId} (known : op.index < mid.ops.size) :
    Corresponds ctx mid mid' (.op op) (.op ((Renaming.between ctx mid').op op))
  /-- What is known when the second operation has come first has a name in the other order. -/
  | second {op : OpId} (known : op.index < mid'.ops.size) :
    Corresponds ctx mid mid' (.op ((Renaming.between ctx mid).op op)) (.op op)

/-- What is known in the beginning corresponds to itself. -/
theorem Corresponds.of_known {ctx mid mid' : Context} {op : OpId} (known : op.index < ctx.ops.size)
    (le : ctx.ops.size ≤ mid.ops.size) : Corresponds ctx mid mid' (.op op) (.op op) := by
  have named : Corresponds ctx mid mid' (.op op) (.op ((Renaming.between ctx mid').op op)) :=
    .first (known.trans_le le)
  rwa [Renaming.between_op known] at named

namespace Crossing

variable {first second op op' : OpId} {ctx mid mid' last last' : Context}

/-- It does not matter which of the two orders is the first one. -/
theorem symm (crossing : Crossing first second ctx mid mid' last last') :
    Crossing second first ctx mid' mid last' last where
  -- Each field has its counterpart for the other order.
  tidy := crossing.tidy
  independent := crossing.independent.symm
  fits := crossing.fits'
  fits' := crossing.fits
  before := crossing.before'
  after := crossing.after'
  before' := crossing.before
  after' := crossing.after
  mirrors := crossing.mirrors'
  mirrors' := crossing.mirrors

/-- What is left when the first operation has come first is tidy. -/
theorem tidy_mid (crossing : Crossing first second ctx mid mid' last last') : Tidy mid :=
  crossing.tidy.rewrites crossing.before

/-- What stays in the end is what stays first and stays next. -/
theorem leaves (crossing : Crossing first second ctx mid mid' last last') :
    Leaves (fun _ => True) ctx last :=
  (crossing.tidy.leaves (crossing.before.mono fun _ _ => trivial)).trans
    (crossing.tidy_mid.leaves (crossing.after.mono fun _ _ => trivial))

/-- What is known when the first operation has come first appears alike in both orders. -/
theorem exists_alike (crossing : Crossing first second ctx mid mid' last last')
    (known : op.index < mid.ops.size) : ∃ data data', last.op op = .ok data ∧
      last'.op ((Renaming.between ctx mid').op op) = .ok data' ∧ data.Alike data' := by
  by_cases old : op.index < ctx.ops.size
  · rw [Renaming.between_op old]
    obtain ⟨known, found⟩ := Context.exists_op_of_lt old
    obtain ⟨data, foundLast, alike⟩ := crossing.leaves.shown op known found
    obtain ⟨data', foundLast', alike'⟩ := crossing.symm.leaves.shown op known found
    exact ⟨data, data', foundLast, foundLast', alike.symm.trans alike'⟩
  · -- A new operation is inside the first operation, and mirrored there.
    obtain ⟨made, foundMid⟩ := Context.exists_op_of_lt known
    obtain ⟨data, foundLast, alike⟩ :=
      (crossing.tidy_mid.leaves crossing.after).shown op made foundMid
    exact ⟨data, _, foundLast,
      crossing.mirrors.op_inside (.inr ⟨op, rfl, Nat.not_lt.mp old⟩) foundMid,
      alike.symm.trans (Renaming.alike_operation _ made)⟩

/-- Operations that correspond appear alike. -/
theorem shownAs (crossing : Crossing first second ctx mid mid' last last')
    (pair : Corresponds ctx mid mid' (.op op) (.op op')) : last.ShownAs last' op op' := by
  intro data found
  -- What is known of the second operation is what is known of the first one in the other order.
  cases pair with
  | first known =>
    obtain ⟨again, data', foundAgain, found', alike⟩ := crossing.exists_alike known
    cases found.symm.trans foundAgain
    exact ⟨data', found', alike⟩
  | second known =>
    obtain ⟨data', again, found', foundAgain, alike⟩ := crossing.symm.exists_alike known
    cases found.symm.trans foundAgain
    exact ⟨data', found', alike.symm⟩

/-- Blocks outside the second operation stay as they are when that operation comes next. -/
theorem block_stays (crossing : Crossing first second ctx mid mid' last last') {block : BlockId}
    {data : Block} (found : mid.block block = .ok data)
    (outside : ¬ TransGen ctx.Contains (.op second) (.block block)) :
    last.block block = .ok data := by
  -- Containment below the second operation was there before the first one came.
  obtain ⟨gone, sound⟩ := crossing.tidy_mid.sound
  have outsideMid : ¬ TransGen mid.Contains (.op second) (.block block) := by
    intro path
    rcases crossing.before.evolves.transGen_contains path with around | ⟨_, same, -⟩
    -- What is new is an operation, but this is a block.
    · exact outside around
    · cases same
  exact (crossing.tidy_mid.leaves crossing.after).block found fun op listed =>
    sound.not_within outsideMid (Context.contains_block.mpr ⟨data, op, found, listed, rfl⟩)

/-- Blocks in the first operation list in one order what they list in the other, by new names. -/
theorem exists_block_first (crossing : Crossing first second ctx mid mid' last last')
    {block : BlockId} {old : Block} (found : ctx.block block = .ok old)
    (inside : TransGen ctx.Contains (.op first) (.block block)) :
    ∃ data, last.block block = .ok data ∧ last'.block block = .ok
      { data with ops := data.ops.map (Renaming.between ctx mid').op } ∧
        ∀ op ∈ data.ops, op.index < mid.ops.size := by
  -- Nothing is inside both operations, so that only the first one rewrites the block.
  obtain ⟨gone, sound⟩ := crossing.tidy.sound
  obtain ⟨goneMid, soundMid⟩ := crossing.tidy_mid.sound
  have apart := sound.apart crossing.independent.outside crossing.independent.outside'
  obtain ⟨ops, foundMid, -⟩ := crossing.before.evolves.block_known found
  have stays := crossing.block_stays foundMid fun around =>
    apart _ inside.to_reflTransGen around.to_reflTransGen
  refine ⟨_, stays, crossing.mirrors.block_known (.inl inside) foundMid, fun op listed => ?_⟩
  obtain ⟨known, foundOp, -⟩ := soundMid.ops.recorded foundMid listed
  exact Context.index_lt_of_op foundOp

/-- Blocks in neither operation stay in either order. -/
theorem block_outside (crossing : Crossing first second ctx mid mid' last last')
    {block : BlockId} {old : Block} (found : ctx.block block = .ok old)
    (outside : ¬ TransGen ctx.Contains (.op first) (.block block))
    (outside' : ¬ TransGen ctx.Contains (.op second) (.block block)) :
    last.block block = .ok old := by
  -- The first operation leaves the block as it is, and the second one then leaves it too.
  obtain ⟨gone, sound⟩ := crossing.tidy.sound
  have foundMid := (crossing.tidy.leaves crossing.before).block found fun op listed =>
    sound.not_within outside (Context.contains_block.mpr ⟨old, op, found, listed, rfl⟩)
  exact crossing.block_stays foundMid outside'

/-- Blocks list in one order what corresponds to what they list in the other. -/
theorem exists_block (crossing : Crossing first second ctx mid mid' last last') {block : BlockId}
    {data : Block} (found : last.block block = .ok data) :
    ∃ data', last'.block block = .ok data' ∧ data'.arguments.length = data.arguments.length ∧
      List.Forall₂ (fun op op' => Corresponds ctx mid mid' (.op op) (.op op'))
        data.ops data'.ops := by
  -- A block is in the first operation, in the second one or in neither.
  obtain ⟨gone, sound⟩ := crossing.tidy.sound
  have known := Context.index_lt_of_block found
  rw [crossing.after.evolves.blocks_size, crossing.before.evolves.blocks_size] at known
  obtain ⟨old, foundOld⟩ := Context.exists_block_of_lt known
  by_cases inside : TransGen ctx.Contains (.op first) (.block block)
  · obtain ⟨again, foundAgain, found', known⟩ := crossing.exists_block_first foundOld inside
    -- In the first operation, the first order has worked on the names of the beginning.
    cases found.symm.trans foundAgain
    exact ⟨_, found', rfl, List.forall₂_map_right_iff.mpr
      (List.forall₂_same.mpr fun op listed => .first (known op listed))⟩
  · by_cases inside' : TransGen ctx.Contains (.op second) (.block block)
    · obtain ⟨data', found', foundAgain, known⟩ :=
        crossing.symm.exists_block_first foundOld inside'
      -- In the second operation it is the other order that has.
      cases found.symm.trans foundAgain
      exact ⟨data', found', rfl, List.forall₂_map_left_iff.mpr
        (List.forall₂_same.mpr fun op listed => .second (known op listed))⟩
    · cases found.symm.trans (crossing.block_outside foundOld inside inside')
      refine ⟨data, crossing.symm.block_outside foundOld inside' inside, rfl,
        List.forall₂_same.mpr fun op listed => ?_⟩
      -- Outside of both, nothing that is listed has another name.
      obtain ⟨known, foundOp, -⟩ := sound.ops.recorded foundOld listed
      exact .of_known (Context.index_lt_of_op foundOp) crossing.before.evolves.size_le

/-- What both orders leave matches. -/
theorem matches_orders (crossing : Crossing first second ctx mid mid' last last') :
    Context.Matches (Corresponds ctx mid mid') last last' := by
  -- Neither order touches types, dialects or regions.
  have types : last'.types = last.types :=
    crossing.symm.leaves.types_eq.trans crossing.leaves.types_eq.symm
  have dialects : last'.dialects = last.dialects :=
    crossing.symm.leaves.dialects_eq.trans crossing.leaves.dialects_eq.symm
  have regions : last'.regions = last.regions :=
    crossing.symm.leaves.regions_eq.trans crossing.leaves.regions_eq.symm
  -- Operations that correspond show the same data, with the same regions.
  have ops {op op' : OpId} (pair : Corresponds ctx mid mid' (.op op) (.op op')) {face : Face}
      {members : List Entity} (seen : last.face (.op op) = .ok face)
      (listed : last.members (.op op) = .ok members) : last'.face (.op op') = .ok face ∧
        ∃ members', last'.members (.op op') = .ok members' ∧
          List.Forall₂ (Corresponds ctx mid mid') members members' := by
    obtain ⟨data, found, made⟩ := bind_eq_ok.mp listed
    obtain ⟨data', found', alike⟩ := crossing.shownAs pair data found
    cases made
    refine ⟨Context.face_of_shownAs types dialects (crossing.shownAs pair) seen, _,
      bind_eq_ok.mpr ⟨data', found', rfl⟩, ?_⟩
    rw [alike.regions]
    exact List.forall₂_same.mpr (List.forall_mem_map.mpr fun region _ => .region region)
  -- Regions keep their lists, and blocks list what corresponds.
  intro entity entity' pair face members seen listed
  cases pair with
  | first known => exact ops (.first known) seen listed
  | second known => exact ops (.second known) seen listed
  | region region =>
    obtain ⟨data, found, made⟩ := bind_eq_ok.mp listed
    cases made
    have found' := (Context.region_congr regions region).trans found
    refine ⟨?_, _, bind_eq_ok.mpr ⟨data, found', rfl⟩, ?_⟩
    · rw [← seen, Context.face, Context.face, found, found']
    · exact List.forall₂_same.mpr (List.forall_mem_map.mpr fun block _ => .block block)
  | block block =>
    obtain ⟨data, found, made⟩ := bind_eq_ok.mp listed
    cases made
    obtain ⟨data', found', arguments, each⟩ := crossing.exists_block found
    refine ⟨Context.face_of_listed found found' arguments
      (each.imp fun _ _ pair => crossing.shownAs pair) seen, _,
      bind_eq_ok.mpr ⟨data', found', rfl⟩, ?_⟩
    exact List.forall₂_map_left_iff.mpr (List.forall₂_map_right_iff.mpr each)

/-- What is left of the first operation when it comes first stays when the second one comes next. -/
theorem matches_alone (crossing : Crossing first second ctx mid mid' last last') :
    Context.Matches
      (fun entity entity' => entity = entity' ∧ ReflTransGen mid.Contains (.op first) entity)
      mid last := by
  -- Nothing in the first operation is within the second one, also after the first one has changed.
  obtain ⟨gone, sound⟩ := crossing.tidy_mid.sound
  obtain ⟨data, found⟩ := crossing.fits.exists_op
  obtain ⟨data', found'⟩ := crossing.fits'.exists_op
  have evolves := crossing.before.evolves
  have apart := sound.apart (evolves.not_reaches found' crossing.independent.outside)
    (evolves.not_reaches found crossing.independent.outside')
  rintro entity _ ⟨rfl, down⟩ face members seen listed
  -- Without anything that the second operation touches, each entity below keeps face and members.
  obtain ⟨seen', listed'⟩ := (crossing.tidy_mid.leaves crossing.after).keeps seen listed
    fun op isListed => sound.not_within (fun path => apart _ down path.to_reflTransGen)
      ⟨members, listed, isListed⟩
  exact ⟨seen', members, listed', List.forall₂_same.mpr fun member isListed =>
    ⟨rfl, down.tail ⟨members, listed, isListed⟩⟩⟩

end Crossing

namespace Context

variable {ctx ctx' : Context} {op : OpId}

/-- An operation comes in the same lines each time. -/
theorem Streams.unique {indent : UInt64} {lines linesToo : List Line}
    (streams : ctx.Streams op indent lines) (streamsToo : ctx.Streams op indent linesToo) :
    lines = linesToo := by
  -- As many lines as the longer one has are all of either.
  have same := (streams.begins (max lines.length linesToo.length)).symm.trans
    (streamsToo.begins (max lines.length linesToo.length))
  rwa [Except.ok.injEq, List.take_of_length_le (le_max_left _ _),
    List.take_of_length_le (le_max_right _ _)] at same

/-- Where two programs match, an operation that corresponds to itself comes in the same lines. -/
theorem Matches.exists_streams {related : Entity → Entity → Prop}
    (matched : Matches related ctx ctx') (are : related (.op op) (.op op))
    (wellFounded : WellFounded ctx.types.IsParameter) (types : ctx'.types = ctx.types)
    (fits : ctx.Fits ctx.depthBound (.op op)) (fits' : ctx'.Fits ctx'.depthBound (.op op))
    (indent : UInt64) :
    ∃ lines, ctx.Streams op indent lines ∧ ctx'.Streams op indent lines := by
  obtain ⟨shape, found⟩ := exists_shapeWithin fits
  obtain ⟨shape', found'⟩ := exists_shapeWithin fits'
  -- Both shapes are found in the second program, and so come in the same lines there.
  have dumped := dumpEntity_of_shape (matched.shapeWithin are found)
    (le_max_left _ ctx'.depthBound) indent
  have dumped' := dumpEntity_of_shape found' (le_max_right ctx.depthBound _) indent
  have same : shape.lines indent = shape'.lines indent :=
    Except.ok.inj (dumped.symm.trans dumped')
  have acyclic : ctx.AcyclicBelow (.op op) := fits.below.2
  have acyclic' : ctx'.AcyclicBelow (.op op) := fits'.below.2
  refine ⟨shape.lines indent, (streams_iff wellFounded acyclic).mpr
    ((recursiveDump_eq_ok_iff acyclic).mpr ⟨hasRoom_wraps _ _, shape, found, rfl⟩), ?_⟩
  exact (streams_iff (types ▸ wellFounded) acyclic').mpr
    ((recursiveDump_eq_ok_iff acyclic').mpr ⟨hasRoom_wraps _ _, shape', found', same⟩)

end Context

namespace Crossing

variable {first second op : OpId} {ctx mid mid' last last' : Context}

/-- What fits in the beginning fits in the end. -/
theorem fits_last (crossing : Crossing first second ctx mid mid' last last')
    (fits : ctx.Fits ctx.depthBound (.op op)) : last.Fits last.depthBound (.op op) :=
  (crossing.after.evolves.fits (crossing.before.evolves.fits fits)).mono
    (crossing.before.evolves.depthBound_le.trans crossing.after.evolves.depthBound_le)

/-- What is known in the beginning comes in the same lines in both orders. -/
theorem exists_streams (crossing : Crossing first second ctx mid mid' last last')
    (wellFounded : WellFounded ctx.types.IsParameter) (fits : ctx.Fits ctx.depthBound (.op op))
    (indent : UInt64) :
    ∃ lines, last.Streams op indent lines ∧ last'.Streams op indent lines := by
  -- What is known in the beginning has the same name in both orders.
  obtain ⟨data, found⟩ := fits.exists_op
  have pair : Corresponds ctx mid mid' (.op op) (.op op) :=
    .of_known (Context.index_lt_of_op found) crossing.before.evolves.size_le
  exact crossing.matches_orders.exists_streams pair (crossing.leaves.types_eq ▸ wellFounded)
    (crossing.symm.leaves.types_eq.trans crossing.leaves.types_eq.symm) (crossing.fits_last fits)
    (crossing.symm.fits_last fits) indent

/-- The first operation comes in the same lines alone and in both orders. -/
theorem exists_streams_alone (crossing : Crossing first second ctx mid mid' last last')
    (wellFounded : WellFounded ctx.types.IsParameter) (indent : UInt64) :
    ∃ lines, mid.Streams first indent lines ∧ last.Streams first indent lines ∧
      last'.Streams first indent lines := by
  -- The first operation fits, before the second one comes and after that.
  have types : mid.types = ctx.types := (crossing.tidy.leaves crossing.before).types_eq
  have fits : mid.Fits mid.depthBound (.op first) :=
    (crossing.before.evolves.fits crossing.fits).mono crossing.before.evolves.depthBound_le
  obtain ⟨lines, alone, here⟩ := crossing.matches_alone.exists_streams ⟨rfl, .refl⟩
    (types ▸ wellFounded) (crossing.leaves.types_eq.trans types.symm) fits
    (crossing.fits_last crossing.fits) indent
  -- The lines alone are lines in one order, and those are also lines in the other order.
  obtain ⟨linesToo, hereToo, there⟩ := crossing.exists_streams wellFounded crossing.fits indent
  cases here.unique hereToo
  exact ⟨lines, alone, here, there⟩

end Crossing

namespace Canonicalization

variable {σ : Type} {requests : List Request} {ctx : Context} {first second : OpId}

/-- Visits of an operation come to a result where everything that is read is known. -/
theorem exists_iterate_rewrites (tidy : Tidy ctx) {root : OpId}
    (fits : ctx.Fits ctx.depthBound (.op root)) (remaining : Nat) :
    ∃ result ctx', iterate builtinPatterns root remaining ctx = .ok (result, ctx') ∧
      Rewrites (ctx.Within root) ctx ctx' := by
  obtain ⟨gone, sound⟩ := tidy.sound
  have meets : Meets (fun _ => False) (ctx.Within root) ctx
      (iterate builtinPatterns root remaining ctx) :=
    Meets.iterate sound.consistent tidy.reads (.inr fits) remaining
  exact meets.exists_ok

/-- Independent operations are visited in either order with the same results. -/
theorem exists_crossing (tidy : Tidy ctx) (independent : ctx.Independent first second)
    (fits : ctx.Fits ctx.depthBound (.op first)) (fits' : ctx.Fits ctx.depthBound (.op second))
    (remaining : Nat) : ∃ result result' mid mid' last last',
      iterate builtinPatterns first remaining ctx = .ok (result, mid) ∧
      iterate builtinPatterns second remaining mid = .ok (result', last) ∧
      iterate builtinPatterns second remaining ctx = .ok (result', mid') ∧
      iterate builtinPatterns first remaining mid' = .ok (result, last') ∧
      Crossing first second ctx mid mid' last last' := by
  -- Each operation is visited from the beginning, and after the other one.
  have mirrored {root other : OpId} (independent : ctx.Independent root other)
      (fits : ctx.Fits ctx.depthBound (.op root)) {result : Result} {mid mid' : Context}
      (ran : iterate builtinPatterns root remaining ctx = .ok (result, mid))
      (before' : Rewrites (ctx.Within other) ctx mid') : ∃ last',
        iterate builtinPatterns root remaining mid' = .ok (result, last') ∧
        Rewrites (mid'.Within root) mid' last' ∧
        Mirrors (.between ctx mid') (ctx.Inside root) mid last' := by
    have fitsMid := (before'.evolves.fits fits).mono before'.evolves.depthBound_le
    obtain ⟨data, found⟩ := fits.exists_op
    obtain ⟨result', last', ran', after'⟩ :=
      exists_iterate_rewrites (tidy.rewrites before') fitsMid remaining
    obtain ⟨rfl, mirrors⟩ := (Mirrors.of_rewrites tidy independent before').iterate tidy
      (tidy.rewrites before') (Renaming.between_op (Context.index_lt_of_op found)) fits fitsMid
      (fun _ below => .inl below) ran ran'
    exact ⟨last', ran', after', mirrors⟩
  obtain ⟨result, mid, ran, before⟩ := exists_iterate_rewrites tidy fits remaining
  obtain ⟨result', mid', ran', before'⟩ := exists_iterate_rewrites tidy fits' remaining
  obtain ⟨last', ranToo, after', mirrors⟩ := mirrored independent fits ran before'
  obtain ⟨last, ranToo', after, mirrors'⟩ := mirrored independent.symm fits' ran' before
  exact ⟨result, result', mid, mid', last, last', ran, ranToo', ran', ranToo,
    tidy, independent, fits, fits', before, after, before', after', mirrors, mirrors'⟩

/--
Where all operands are known and no type is among its own parameters, two operations that are not
inside themselves, and of which neither contains the other one or reads anything of it, are
canonicalized in either order with the same outcomes, which are those of each of them alone. Each
comes in the lines in which it comes when it is canonicalized alone, and everything else that was
there before, around them or not, comes in the same lines in both orders.
-/
theorem runs_agree_of_independent (plain : ∀ request ∈ requests, request.isEdit = false)
    (built : Context.build requests = .ok ctx)
    (reads : ∀ op data value, ctx.op op = .ok data → value ∈ data.operands →
      ∃ known, ctx.value value = .ok known)
    (wellFounded : WellFounded ctx.types.IsParameter) {data data' : Operation}
    (found : ctx.op first = .ok data) (found' : ctx.op second = .ok data')
    (acyclic : ctx.AcyclicBelow (.op first)) (acyclic' : ctx.AcyclicBelow (.op second))
    (independent : ctx.Independent first second) (config : Config) (notes : σ) :
    ∃ outcome outcome' mid mid' last last',
      (pass config).run first (ctx, notes) = .ok (outcome, mid, notes) ∧
      (pass config).run second (mid, notes) = .ok (outcome', last, notes) ∧
      (pass config).run second (ctx, notes) = .ok (outcome', mid', notes) ∧
      (pass config).run first (mid', notes) = .ok (outcome, last', notes) ∧
      (∀ indent, ∃ lines, mid.Streams first indent lines ∧ last.Streams first indent lines ∧
        last'.Streams first indent lines) ∧
      (∀ indent, ∃ lines, mid'.Streams second indent lines ∧ last.Streams second indent lines ∧
        last'.Streams second indent lines) ∧
      ∀ op known, ctx.op op = .ok known → ctx.AcyclicBelow (.op op) → ∀ indent, ∃ lines,
        last.Streams op indent lines ∧ last'.Streams op indent lines := by
  -- Nothing is dangling in what requests build, and no operand is unknown.
  have tidy : Tidy ctx := ⟨⟨_, .of_build plain built⟩, fun op data value foundOp listed =>
    .inl (reads op data value foundOp listed)⟩
  -- Both orders come to an answer, with the same results.
  obtain ⟨result, result', mid, mid', last, last', ran, ranNext, ran', ranNext', crossing⟩ :=
    exists_crossing tidy independent (Context.fits_of_build plain built found acyclic)
      (Context.fits_of_build plain built found' acyclic') config.maxIterations
  -- A pass reports what its iterations come to.
  have runs {root : OpId} {before after : Context} {result : Result}
      (done : iterate builtinPatterns root config.maxIterations before = .ok (result, after)) :
      (pass config).run root (before, notes) = .ok (outcome config result, after, notes) := by
    rw [run_pass, done]
    rfl
  refine ⟨_, _, mid, mid', last, last', runs ran, runs ranNext, runs ran', runs ranNext',
    crossing.exists_streams_alone wellFounded, fun indent => ?_,
    fun op known foundOp acyclicOp => crossing.exists_streams wellFounded
      (Context.fits_of_build plain built foundOp acyclicOp)⟩
  obtain ⟨lines, alone, there, here⟩ := crossing.symm.exists_streams_alone wellFounded indent
  exact ⟨lines, alone, here, there⟩

/-- Requests for a module of a constant and of two functions that both add it to itself. -/
def siblingSums : List Request :=
  [.internType (.integer 8),
    .addOp { name := OpKind.constant.opName, resultTypes := [⟨0⟩]
             attributes := .ofList [(valueKey, .int 100)] },
    .addOp { name := OpKind.addi.opName, operands := [⟨0⟩, ⟨0⟩], resultTypes := [⟨0⟩] },
    .addOp { name := OpKind.testOp.opName, operands := [⟨1⟩] },
    .addBlock { ops := [⟨1⟩, ⟨2⟩] }, .addRegion { blocks := [⟨0⟩] },
    .addOp { name := OpKind.func.opName, regions := [⟨0⟩], symbol := some "f" },
    .addOp { name := OpKind.addi.opName, operands := [⟨0⟩, ⟨0⟩], resultTypes := [⟨0⟩] },
    .addOp { name := OpKind.testOp.opName, operands := [⟨2⟩] },
    .addBlock { ops := [⟨4⟩, ⟨5⟩] }, .addRegion { blocks := [⟨1⟩] },
    .addOp { name := OpKind.func.opName, regions := [⟨1⟩], symbol := some "g" },
    .addBlock { ops := [⟨0⟩, ⟨3⟩, ⟨6⟩] }, .addRegion { blocks := [⟨2⟩] },
    .addOp { name := OpKind.module.opName, regions := [⟨2⟩] }]

/-- Both sums are folded. The first one becomes another operation in either order. -/
theorem runs_agree_of_independent_siblingSums :
    (∀ request ∈ siblingSums, request.isEdit = false) ∧
      ∃ ctx, Context.build siblingSums = .ok ctx ∧
        (∀ op data value, ctx.op op = .ok data → value ∈ data.operands →
          ∃ known, ctx.value value = .ok known) ∧
        WellFounded ctx.types.IsParameter ∧ ctx.AcyclicBelow (.op ⟨3⟩) ∧
        ctx.AcyclicBelow (.op ⟨6⟩) ∧ ctx.Independent ⟨3⟩ ⟨6⟩ ∧
        ∃ mid mid' last last' block block',
          (pass {}).run ⟨3⟩ (ctx, ()) = .ok (.ok (), mid, ()) ∧
          (pass {}).run ⟨6⟩ (mid, ()) = .ok (.ok (), last, ()) ∧
          (pass {}).run ⟨6⟩ (ctx, ()) = .ok (.ok (), mid', ()) ∧
          (pass {}).run ⟨3⟩ (mid', ()) = .ok (.ok (), last', ()) ∧
          last.block ⟨0⟩ = .ok block ∧ block.ops = [⟨8⟩, ⟨2⟩] ∧
          last'.block ⟨0⟩ = .ok block' ∧ block'.ops = [⟨9⟩, ⟨2⟩] ∧
          ∃ lines, last.Streams ⟨7⟩ 0 lines ∧ last'.Streams ⟨7⟩ 0 lines := by
  -- The operations are known and independent, which is read off their listings.
  obtain ⟨ctx, built, ⟨first, found⟩, ⟨second, found'⟩, ⟨around, foundAround⟩, inside, paramless,
      ⟨listing, listedAround⟩, independent, acyclic, acyclic'⟩ :
      ∃ ctx, Context.build siblingSums = .ok ctx ∧ (∃ data, ctx.op ⟨3⟩ = .ok data) ∧
        (∃ data, ctx.op ⟨6⟩ = .ok data) ∧ (∃ data, ctx.op ⟨7⟩ = .ok data) ∧
        (∀ data ∈ ctx.ops.toList, ∀ value ∈ data.operands, value.index < ctx.values.size) ∧
        (∀ data ∈ ctx.types.entries, data.params = []) ∧
        (∃ listing, ctx.preorder (.op ⟨7⟩) = .ok listing) ∧ ctx.Independent ⟨3⟩ ⟨6⟩ ∧
        ctx.AcyclicBelow (.op ⟨3⟩) ∧ ctx.AcyclicBelow (.op ⟨6⟩) :=
    ⟨_, rfl, ⟨_, rfl⟩, ⟨_, rfl⟩, ⟨_, rfl⟩, by decide, by decide +kernel, ⟨_, rfl⟩,
      .of_listings rfl rfl (by decide +kernel) (by decide +kernel) (by decide +kernel),
      (Context.preorder_ok_iff.mp ⟨_, rfl⟩).2, (Context.preorder_ok_iff.mp ⟨_, rfl⟩).2⟩
  -- All four runs are computed in one go, with the two lists that they leave.
  have ran : (Context.build siblingSums >>= fun ctx => (pass {}).run ⟨3⟩ (ctx, ()) >>= fun mid =>
      (pass {}).run ⟨6⟩ mid.2 >>= fun last => (pass {}).run ⟨6⟩ (ctx, ()) >>= fun mid' =>
        (pass {}).run ⟨3⟩ mid'.2 >>= fun last' => last.2.1.block ⟨0⟩ >>= fun block =>
          (last'.2.1.block ⟨0⟩).map fun block' =>
            ([mid.1, last.1, mid'.1, last'.1], block.ops, block'.ops)) =
      .ok ([.ok (), .ok (), .ok (), .ok ()], [⟨8⟩, ⟨2⟩], [⟨9⟩, ⟨2⟩]) := by decide +kernel
  -- What remains are the hypotheses that are about every operand and every type.
  have plain : ∀ request ∈ siblingSums, request.isEdit = false := by decide
  have acyclicAround := (Context.preorder_ok_iff.mp ⟨_, listedAround⟩).2
  have reads : ∀ op data value, ctx.op op = .ok data → value ∈ data.operands →
      ∃ known, ctx.value value = .ok known := fun op data value foundOp read =>
    Context.exists_value_of_lt (inside data (Context.mem_ops_of_op foundOp) value read)
  have wellFounded := TypeTable.wellFounded_of_plain paramless
  obtain ⟨outcome, outcome', mid, mid', last, last', done, doneNext, done', doneNext', -, -,
      each⟩ := runs_agree_of_independent plain built reads wellFounded found found' acyclic acyclic'
      independent {} ()
  -- The runs that have been computed are those that the theorem speaks of.
  obtain ⟨_, builtToo, ran⟩ := bind_eq_ok.mp ran
  cases built.symm.trans builtToo
  obtain ⟨_, doneToo, ran⟩ := bind_eq_ok.mp ran
  cases done.symm.trans doneToo
  obtain ⟨_, doneToo, ran⟩ := bind_eq_ok.mp ran
  cases doneNext.symm.trans doneToo
  obtain ⟨_, doneToo, ran⟩ := bind_eq_ok.mp ran
  cases done'.symm.trans doneToo
  obtain ⟨_, doneToo, ran⟩ := bind_eq_ok.mp ran
  cases doneNext'.symm.trans doneToo
  obtain ⟨block, known, ran⟩ := bind_eq_ok.mp ran
  obtain ⟨block', known', same⟩ := map_eq_ok.mp ran
  simp only [Prod.mk.injEq, List.cons.injEq] at same
  obtain ⟨⟨rfl, rfl, -⟩, ops, ops'⟩ := same
  exact ⟨plain, ctx, built, reads, wellFounded, acyclic, acyclic', independent, mid, mid', last,
    last', block, block', done, doneNext, done', doneNext', known, ops, known', ops',
    each ⟨7⟩ around foundAround acyclicAround 0⟩

end Canonicalization

end NestedIR
