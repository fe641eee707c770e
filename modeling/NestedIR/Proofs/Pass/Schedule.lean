import NestedIR.Proofs.Context.Listing
import NestedIR.Proofs.Pass.Order

/-! The operations below an entity, in the order of blocks and from the inside to the outside. -/

namespace NestedIR

open Relation

namespace Context

variable {ctx mid : Context} {depth : Nat} {entity inner : Entity} {op : OpId}

/-- The operations inside an entity, down to a depth, each behind those that it contains itself. -/
def turnsWithin (ctx : Context) : Nat → Entity → List OpId
  | 0, _ => []
  | depth + 1, entity => (ctx.listed entity).flatMap fun member =>
    ctx.turnsWithin depth member ++ member.op?.toList

/-- Everything that has a turn is inside the entity, and where the depth is enough, that is all. -/
theorem mem_turnsWithin_iff (fits : ctx.Fits depth entity) :
    op ∈ ctx.turnsWithin depth entity ↔ TransGen ctx.Contains entity (.op op) := by
  -- A way down starts with a member, which is the operation or has it inside.
  induction depth generalizing entity with
  | zero => cases fits
  | succ depth ih =>
    simp only [turnsWithin, List.mem_flatMap, List.mem_append, mem_listed_iff, mem_op?_iff]
    rw [TransGen.head'_iff]
    refine exists_congr fun member => and_congr_right fun contains => ?_
    rw [ih (fits.of_contains contains), reflTransGen_iff_eq_or_transGen, or_comm, eq_comm]

/-- What has its turn for a member can be reached from the member. -/
theorem reaches_of_turn {member : Entity} (fits : ctx.Fits depth member)
    (turn : op ∈ ctx.turnsWithin depth member ++ member.op?.toList) :
    ReflTransGen ctx.Contains member (.op op) := by
  rw [List.mem_append, mem_turnsWithin_iff fits, mem_op?_iff] at turn
  exact reflTransGen_iff_eq_or_transGen.mpr (turn.symm.imp_left Eq.symm)

/-- More depth than is enough shows no more. -/
theorem turnsWithin_of_fits {deeper : Nat} (fits : ctx.Fits depth entity) (le : depth ≤ deeper) :
    ctx.turnsWithin deeper entity = ctx.turnsWithin depth entity := by
  induction depth generalizing deeper entity with
  | zero => cases fits
  | succ depth ih =>
    -- The depth that is left over is left over for each member as well.
    obtain ⟨less, rfl⟩ : ∃ less, deeper = less + 1 := ⟨deeper - 1, by omega⟩
    refine List.flatMap_congr fun member isListed => ?_
    rw [ih (fits.of_contains (mem_listed_iff.mp isListed)) (by omega)]

/-- Everything that can be reached from an entity lists the same in two programs. -/
def SameBelow (ctx mid : Context) (entity : Entity) : Prop :=
  ∀ inner members, ReflTransGen ctx.Contains entity inner → ctx.members inner = .ok members →
    mid.members inner = .ok members

namespace SameBelow

/-- What lists the same below an entity lists the same below what that contains. -/
theorem of_contains (same : ctx.SameBelow mid entity) (contains : ctx.Contains entity inner) :
    ctx.SameBelow mid inner :=
  fun deeper members path => same deeper members (path.head contains)

/-- What is contained is still contained. -/
theorem contains (same : ctx.SameBelow mid entity) (contains : ctx.Contains entity inner) :
    mid.Contains entity inner := by
  obtain ⟨members, known, isListed⟩ := contains
  exact ⟨members, same entity members .refl known, isListed⟩

/-- What lists the same below fits into the same depth. -/
theorem fits (same : ctx.SameBelow mid entity) (fits : ctx.Fits depth entity) :
    mid.Fits depth entity := by
  induction depth generalizing entity with
  | zero => cases fits
  | succ depth ih =>
    obtain ⟨members, known, below⟩ := fits
    refine ⟨members, same entity members .refl known, fun member isListed => ?_⟩
    exact ih (same.of_contains ⟨members, known, isListed⟩) (below member isListed)

/-- What lists the same below has the same turns. -/
theorem turnsWithin (same : ctx.SameBelow mid entity) (fits : ctx.Fits depth entity) :
    mid.turnsWithin depth entity = ctx.turnsWithin depth entity := by
  induction depth generalizing entity with
  | zero => rfl
  | succ depth ih =>
    -- Each member is listed as before, with the same turns of its own.
    obtain ⟨members, known, below⟩ := fits
    have knownMid := same entity members .refl known
    rw [Context.turnsWithin, Context.turnsWithin, listed_eq known, listed_eq knownMid]
    refine List.flatMap_congr fun member isListed => ?_
    rw [ih (same.of_contains ⟨members, known, isListed⟩) (below member isListed)]

end SameBelow

end Context

/-- Of two items of a list without repetitions, only one comes before the other. -/
theorem not_sublist_swap {α : Type} {first second : α} {items : List α} (distinct : items.Nodup)
    (inFront : [first, second].Sublist items) : ¬ [second, first].Sublist items := by
  -- The head is the first of at most one pair, and does not come again.
  induction items with
  | nil => cases inFront
  | cons head rest ih =>
    obtain ⟨fresh, distinctRest⟩ := List.nodup_cons.mp distinct
    intro swapped
    cases inFront with
    | cons _ later =>
      cases swapped with
      | cons _ laterToo => exact ih distinctRest later laterToo
      | cons_cons _ _ => exact fresh (later.subset (by simp))
    | cons_cons _ tail =>
      cases swapped with
      | cons _ laterToo => exact fresh (laterToo.subset (by simp))
      | cons_cons _ _ => exact fresh (tail.subset (by simp))

namespace Sound

variable {discarded : OpId → Prop} {ctx : Context} {depth : Nat} {entity : Entity}

/-- Nothing in a sound program is listed twice. -/
theorem nodup_listed (sound : Sound discarded ctx) (entity : Entity) :
    (ctx.listed entity).Nodup := by
  cases known : ctx.members entity with
  | error fault => simp [Context.listed, known, Except.toOption]
  | ok members =>
    -- Each kind of owner has a list of its own.
    rw [Context.listed_eq known]
    cases entity with
    | op op =>
      obtain ⟨data, found, made⟩ := bind_eq_ok.mp known
      cases made
      exact (sound.regions.nodup found).map fun _ _ => Entity.region.inj
    | region region =>
      obtain ⟨data, found, made⟩ := bind_eq_ok.mp known
      cases made
      exact (sound.blocks.nodup found).map fun _ _ => Entity.block.inj
    | block block =>
      obtain ⟨data, found, made⟩ := bind_eq_ok.mp known
      cases made
      exact (sound.ops.nodup found).map fun _ _ => Entity.op.inj

/-- Members of an entity that have something in common are the same. -/
theorem eq_of_common (sound : Sound discarded ctx) (fits : ctx.Fits depth entity)
    {first second inner : Entity} (contains : ctx.Contains entity first)
    (containsToo : ctx.Contains entity second) (down : ReflTransGen ctx.Contains first inner)
    (path : ReflTransGen ctx.Contains second inner) : first = second := by
  have single : ctx.SingleOwners entity := fun _ _ _ _ _ holds holdsToo =>
    sound.owner_unique holds holdsToo
  exact single.eq_of_common fits.not_transGen contains containsToo down path

end Sound

namespace Context

variable {discarded : OpId → Prop} {ctx : Context} {depth : Nat} {entity : Entity}

/-- What stands in front of an operation is listed before what is or contains the operation. -/
theorem Precedes.exists_members {definer user : OpId} (before : ctx.Precedes definer user) :
    ∃ block anchor, ctx.Contains (.block block) (.op definer) ∧
      ctx.Contains (.block block) (.op anchor) ∧
      [Entity.op definer, .op anchor].Sublist (ctx.listed (.block block)) ∧
      ReflTransGen ctx.Contains (.op anchor) (.op user) := by
  obtain ⟨block, data, anchor, found, inFront, down⟩ := before
  -- The block lists both, and the list of the block is the list of its operations.
  have known : ctx.members (.block block) = .ok (data.ops.map .op) :=
    bind_eq_ok.mpr ⟨data, found, rfl⟩
  have sublist : [Entity.op definer, .op anchor].Sublist (ctx.listed (.block block)) := by
    rw [listed_eq known]
    exact inFront.map Entity.op
  exact ⟨block, anchor, mem_listed_iff.mp (sublist.subset (by simp)),
    mem_listed_iff.mp (sublist.subset (by simp)), sublist, down⟩

/-- What stands behind an operation is inside everything that the operation is inside of. -/
theorem Precedes.inside (sound : Sound discarded ctx) {definer user : OpId}
    (before : ctx.Precedes definer user) (around : TransGen ctx.Contains entity (.op definer)) :
    TransGen ctx.Contains entity (.op user) := by
  -- The last step to the operation is from the block in which both stand.
  obtain ⟨block, anchor, holds, holdsAnchor, -, down⟩ := before.exists_members
  obtain ⟨owner, above, contains⟩ := TransGen.tail'_iff.mp around
  cases sound.owner_unique contains holds
  exact TransGen.trans_left (TransGen.tail' above holdsAnchor) down

/-- Two entities are apart when nothing can be reached from both. -/
def Apart (ctx : Context) (first second : Entity) : Prop :=
  ∀ inner, ReflTransGen ctx.Contains first inner → ¬ ReflTransGen ctx.Contains second inner

/-- The members of an entity are apart from each other. -/
theorem pairwise_members (sound : Sound discarded ctx) {entity : Entity} {members : List Entity}
    (fits : ctx.Fits depth entity) (known : ctx.members entity = .ok members) :
    members.Pairwise ctx.Apart := by
  have distinct : members.Nodup := listed_eq known ▸ sound.nodup_listed entity
  refine distinct.imp_of_mem fun inFirst inSecond differ inner down path => differ ?_
  exact sound.eq_of_common fits ⟨members, known, inFirst⟩ ⟨members, known, inSecond⟩ down path

/-- No operation stands in front of itself or of what is inside it. -/
theorem not_precedes_of_inside (sound : Sound discarded ctx) {definer user : OpId}
    (fits : ctx.Fits depth entity) (contains : ctx.Contains entity (.op definer))
    (inside : ReflTransGen ctx.Contains (.op definer) (.op user)) :
    ¬ ctx.Precedes definer user := by
  intro before
  -- The two members that are listed would be one, which is not listed twice.
  obtain ⟨block, anchor, holds, holdsAnchor, sublist, down⟩ := before.exists_members
  cases sound.owner_unique holds contains
  cases sound.eq_of_common fits contains holdsAnchor inside down
  exact List.not_nodup_pair _ ((sound.nodup_listed _).sublist sublist)

/-- An operation may have its turn in front of another one that is neither inside nor before it. -/
structure MayComeFirst (ctx : Context) (first second : OpId) : Prop where
  /-- No operation has two turns. -/
  ne : first ≠ second
  /-- What an operation contains has its turn before. -/
  apart : ¬ TransGen ctx.Contains (.op first) (.op second)
  /-- What stands in front of an operation has its turn before. -/
  inOrder : ¬ ctx.Precedes second first

/-- What is inside a member may have its turn before the member itself. -/
theorem mayComeFirst_of_inside (sound : Sound discarded ctx) (fits : ctx.Fits depth entity)
    {op inner : OpId} (contains : ctx.Contains entity (.op op))
    (inside : TransGen ctx.Contains (.op op) (.op inner)) : ctx.MayComeFirst inner op where
  ne same := (fits.inner contains).not_transGen (same ▸ inside)
  apart around := (fits.inner contains).not_transGen (inside.trans around)
  inOrder := not_precedes_of_inside sound fits contains inside.to_reflTransGen

/-- What a member leads to may have its turn before what a later member leads to. -/
theorem mayComeFirst_of_members (sound : Sound discarded ctx) (fits : ctx.Fits depth entity)
    {first second : Entity} (inFront : [first, second].Sublist (ctx.listed entity))
    {early late : OpId} (toEarly : ReflTransGen ctx.Contains first (.op early))
    (toLate : ReflTransGen ctx.Contains second (.op late)) : ctx.MayComeFirst early late := by
  have distinct := sound.nodup_listed entity
  have holdsFirst : ctx.Contains entity first := mem_listed_iff.mp (inFront.subset (by simp))
  have holdsSecond : ctx.Contains entity second := mem_listed_iff.mp (inFront.subset (by simp))
  -- The members differ, so that nothing can be reached from both.
  have uncommon {inner : Entity} (down : ReflTransGen ctx.Contains first inner) :
      ¬ ReflTransGen ctx.Contains second inner := by
    intro path
    cases sound.eq_of_common fits holdsFirst holdsSecond down path
    exact List.not_nodup_pair first (distinct.sublist inFront)
  refine ⟨fun same => ?_, fun around => ?_, fun before => ?_⟩
  · exact uncommon toEarly (same ▸ toLate)
  · exact uncommon (toEarly.trans around.to_reflTransGen) toLate
  · obtain ⟨block, anchor, holds, holdsAnchor, sublist, down⟩ := before.exists_members
    rcases ReflTransGen.cases_tail toLate with same | ⟨owner, above, last⟩
    · -- The later one is a member itself, so that the members would be the other way round.
      subst same
      cases sound.owner_unique holds holdsSecond
      cases sound.eq_of_common fits holdsFirst holdsAnchor toEarly down
      exact not_sublist_swap distinct inFront sublist
    · cases sound.owner_unique holds last
      exact uncommon toEarly ((above.tail holdsAnchor).trans down)

/-- Turns come in the order of a block, and from the inside to the outside. -/
theorem pairwise_turnsWithin (sound : Sound discarded ctx) (fits : ctx.Fits depth entity) :
    (ctx.turnsWithin depth entity).Pairwise ctx.MayComeFirst := by
  induction depth generalizing entity with
  | zero => exact .nil
  | succ depth ih =>
    refine List.pairwise_flatMap.mpr ⟨fun member isListed => ?_, ?_⟩
    · -- Within a member, the member itself comes after everything inside it.
      have contains := mem_listed_iff.mp isListed
      have fitsMember := fits.of_contains contains
      refine List.pairwise_append.mpr ⟨ih fitsMember, ?_, fun inner has op shown => ?_⟩
      · cases member <;> simp [Entity.op?]
      · cases mem_op?_iff.mp shown
        exact mayComeFirst_of_inside sound fits contains ((mem_turnsWithin_iff fitsMember).mp has)
    · -- The turns within members come in the order of the members.
      refine List.pairwise_iff_forall_sublist.mpr fun {first second} inFront => ?_
      have holdsFirst := mem_listed_iff.mp (inFront.subset (List.mem_cons_self ..))
      have holdsSecond := mem_listed_iff.mp (inFront.subset (by simp : second ∈ [first, second]))
      exact fun early hasEarly late hasLate => mayComeFirst_of_members sound fits inFront
        (reaches_of_turn (fits.of_contains holdsFirst) hasEarly)
        (reaches_of_turn (fits.of_contains holdsSecond) hasLate)

/--
When an operation has its turn, everything inside it has had its turn, and so has everything with a
turn that stands in front of it. The operation itself has not.
-/
theorem turnsWithin_eq_append (sound : Sound discarded ctx) (fits : ctx.Fits depth entity)
    {front back : List OpId} {op : OpId}
    (split : ctx.turnsWithin depth entity = front ++ op :: back) :
    TransGen ctx.Contains entity (.op op) ∧ op ∉ front ∧
      ∀ other, TransGen ctx.Contains entity (.op other) →
        TransGen ctx.Contains (.op op) (.op other) ∨ ctx.Precedes other op → other ∈ front := by
  have ordered := pairwise_turnsWithin sound fits
  rw [split, List.pairwise_append, List.pairwise_cons] at ordered
  obtain ⟨-, ⟨later, -⟩, across⟩ := ordered
  refine ⟨(mem_turnsWithin_iff fits).mp (by simp [split]), fun inFront => ?_,
    fun other below before => ?_⟩
  · exact (across op inFront op (by simp)).ne rfl
  · have turn := (mem_turnsWithin_iff fits).mpr below
    rw [split, List.mem_append, List.mem_cons] at turn
    rcases turn with inFront | same | behind
    · exact inFront
    · -- The operation is neither inside itself nor in front of itself.
      subst same
      rcases before with inside | before
      · exact absurd inside (fits.below.2 _ below.to_reflTransGen)
      · obtain ⟨owner, above, contains⟩ := TransGen.tail'_iff.mp below
        exact absurd before (not_precedes_of_inside sound (fits.of_reaches above) contains .refl)
    · rcases before with inside | before
      · exact absurd inside (later other behind).apart
      · exact absurd before (later other behind).inOrder

end Context

end NestedIR
