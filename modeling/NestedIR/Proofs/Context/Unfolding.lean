import NestedIR.Proofs.Context.Listing

/-! Containment unfolds into a tree, in which every entity stands at the end of its own way down. -/

namespace NestedIR

open Relation

/-- An entity at the end of a way down, as often as ways lead to it. -/
structure Occurrence where
  /-- What was passed on the way and the position in its list that was taken, the last one first. -/
  way : List (Entity × Nat)
  /-- What the way leads to. -/
  entity : Entity

namespace Occurrence

/-- One occurrence is strictly inside another one when its way leads through the other one. -/
def Inside (inner outer : Occurrence) : Prop := outer.way <:+ inner.way ∧ outer.way ≠ inner.way

instance (inner outer : Occurrence) : Decidable (inner.Inside outer) :=
  inferInstanceAs (Decidable (_ ∧ _))

/-- Of two occurrences, at most one is inside the other one. -/
theorem Inside.asymm {inner outer : Occurrence} (inside : inner.Inside outer) :
    ¬ outer.Inside inner := fun back =>
  inside.2 (inside.1.eq_of_length_le back.1.length_le)

/-- Ways that part at some entity do not come together again. -/
theorem not_inside_of_branches {inner outer : Occurrence} {entity : Entity}
    {way : List (Entity × Nat)} {first second : Nat} (differ : first ≠ second)
    (toOuter : (entity, first) :: way <:+ outer.way)
    (toInner : (entity, second) :: way <:+ inner.way) : ¬ inner.Inside outer := by
  intro inside
  -- Both steps would end the same way, after the same number of others.
  have along := toOuter.trans inside.1
  have same := (List.suffix_of_suffix_length_le along toInner (by simp)).eq_of_length (by simp)
  simp only [List.cons.injEq, Prod.mk.injEq, and_true] at same
  exact differ same.2

end Occurrence

namespace Context

variable {ctx : Context}

/--
What a way leads to and everything below it down to a depth, each in front of what it contains.

What is not known contains nothing.
-/
def unfoldWithin (ctx : Context) : Nat → List (Entity × Nat) → Entity → List Occurrence
  | 0, _, _ => []
  | depth + 1, way, entity => ⟨way, entity⟩ :: (ctx.listed entity).zipIdx.flatMap
      fun (member, position) => ctx.unfoldWithin depth ((entity, position) :: way) member

/-- An entity and everything below it, each in front of what it contains. -/
def unfolding (ctx : Context) (entity : Entity) : List Occurrence :=
  ctx.unfoldWithin ctx.depthBound [] entity

/-- What members of an entity unfold into, one after the other. -/
def unfoldMembers (ctx : Context) (depth : Nat) (way : List (Entity × Nat)) (entity : Entity)
    (members : List (Entity × Nat)) : List Occurrence :=
  members.flatMap fun (member, position) =>
    ctx.unfoldWithin depth ((entity, position) :: way) member

/-- An entity comes in front of what its members unfold into. -/
theorem unfoldWithin_succ (depth : Nat) (way : List (Entity × Nat)) (entity : Entity) :
    ctx.unfoldWithin (depth + 1) way entity =
      ⟨way, entity⟩ :: ctx.unfoldMembers depth way entity (ctx.listed entity).zipIdx := rfl

/-- What members unfold into comes of one of them. -/
theorem mem_unfoldMembers_iff {depth : Nat} {way : List (Entity × Nat)} {entity : Entity}
    {members : List (Entity × Nat)} {occurrence : Occurrence} :
    occurrence ∈ ctx.unfoldMembers depth way entity members ↔ ∃ member position,
      (member, position) ∈ members ∧
        occurrence ∈ ctx.unfoldWithin depth ((entity, position) :: way) member := by
  simp [unfoldMembers]

/-- What stands at a position of the list of an entity is contained in it. -/
theorem contains_of_mem_zipIdx {entity member : Entity} {position : Nat}
    (isItem : (member, position) ∈ (ctx.listed entity).zipIdx) : ctx.Contains entity member :=
  mem_listed_iff.mp (List.fst_mem_of_mem_zipIdx isItem)

/-- Every way in an unfolding starts with the way to what is unfolded. -/
theorem suffix_of_mem_unfoldWithin {depth : Nat} {way : List (Entity × Nat)} {entity : Entity}
    {occurrence : Occurrence} (member : occurrence ∈ ctx.unfoldWithin depth way entity) :
    way <:+ occurrence.way := by
  -- Each level puts one place in front of the way so far.
  induction depth generalizing way entity with
  | zero => cases member
  | succ depth ih =>
    rcases List.mem_cons.mp member with rfl | member
    · exact List.suffix_refl _
    · obtain ⟨inner, position, -, member⟩ := mem_unfoldMembers_iff.mp member
      exact (List.suffix_cons _ _).trans (ih member)

/-- An unfolding shows what can be reached. -/
theorem reaches_of_mem_unfoldWithin {depth : Nat} {way : List (Entity × Nat)} {entity : Entity}
    {occurrence : Occurrence} (member : occurrence ∈ ctx.unfoldWithin depth way entity) :
    ReflTransGen ctx.Contains entity occurrence.entity := by
  -- Each level goes from an entity to what it contains.
  induction depth generalizing way entity with
  | zero => cases member
  | succ depth ih =>
    rcases List.mem_cons.mp member with rfl | member
    · exact .refl
    · obtain ⟨inner, position, isItem, member⟩ := mem_unfoldMembers_iff.mp member
      exact (ih member).head (contains_of_mem_zipIdx isItem)

/-- More depth than is enough unfolds to no more. -/
theorem unfoldWithin_of_fits {depth deeper : Nat} {way : List (Entity × Nat)} {entity : Entity}
    (fits : ctx.Fits depth entity) (le : depth ≤ deeper) :
    ctx.unfoldWithin deeper way entity = ctx.unfoldWithin depth way entity := by
  -- What fits in a depth ends above it, so that more depth is never asked for.
  induction depth generalizing deeper way entity with
  | zero => cases fits
  | succ depth ih =>
    obtain ⟨less, rfl⟩ : ∃ less, deeper = less + 1 := ⟨deeper - 1, by omega⟩
    rw [unfoldWithin_succ, unfoldWithin_succ]
    congr 1
    refine List.flatMap_congr fun item isItem => ?_
    exact ih (fits.of_contains (contains_of_mem_zipIdx isItem)) (by omega)

/-- What is unfolded comes first, and any depth that is enough shows the rest. -/
theorem unfolding_eq_cons {depth : Nat} {entity : Entity} (fits : ctx.Fits ctx.depthBound entity)
    (le : ctx.depthBound ≤ depth) : ctx.unfolding entity =
      ⟨[], entity⟩ :: ctx.unfoldMembers depth [] entity (ctx.listed entity).zipIdx := by
  rw [← unfoldWithin_succ, unfoldWithin_of_fits fits (by omega), unfolding]

/-- Everything below what is unfolded is inside it. -/
theorem inside_of_mem_members {depth : Nat} {way : List (Entity × Nat)} {entity : Entity}
    {members : List (Entity × Nat)} {occurrence : Occurrence}
    (member : occurrence ∈ ctx.unfoldMembers depth way entity members) :
    occurrence.Inside ⟨way, entity⟩ := by
  obtain ⟨inner, position, -, member⟩ := mem_unfoldMembers_iff.mp member
  have along := suffix_of_mem_unfoldWithin member
  refine ⟨(List.suffix_cons _ _).trans along, fun same : way = occurrence.way => ?_⟩
  -- The way to the occurrence is at least one step longer.
  have longer := along.length_le
  rw [← same, List.length_cons] at longer
  omega

/-- What is inside another occurrence is contained in it. -/
theorem transGen_of_inside {depth : Nat} {way : List (Entity × Nat)} {entity : Entity}
    {inner outer : Occurrence} (member : inner ∈ ctx.unfoldWithin depth way entity)
    (memberOuter : outer ∈ ctx.unfoldWithin depth way entity) (inside : inner.Inside outer) :
    TransGen ctx.Contains outer.entity inner.entity := by
  induction depth generalizing way entity with
  | zero => cases member
  | succ depth ih =>
    rcases List.mem_cons.mp member with rfl | below
    · -- Nothing in an unfolding is outside of what is unfolded.
      rcases List.mem_cons.mp memberOuter with rfl | belowOuter
      · exact absurd rfl inside.2
      · exact absurd (inside_of_mem_members belowOuter) inside.asymm
    · obtain ⟨first, position, isItem, below⟩ := mem_unfoldMembers_iff.mp below
      rcases List.mem_cons.mp memberOuter with rfl | belowOuter
      · have contains := contains_of_mem_zipIdx isItem
        exact TransGen.head' contains (reaches_of_mem_unfoldWithin below)
      · obtain ⟨second, other, isOther, belowOuter⟩ := mem_unfoldMembers_iff.mp belowOuter
        -- Both are below the same member, as ways through different ones part.
        have same : position = other := by
          by_contra differ
          exact Occurrence.not_inside_of_branches (Ne.symm differ)
            (suffix_of_mem_unfoldWithin belowOuter) (suffix_of_mem_unfoldWithin below) inside
        subst same
        have item := List.mem_zipIdx_iff_getElem?.mp isItem
        have itemToo := List.mem_zipIdx_iff_getElem?.mp isOther
        simp only [item, Option.some.injEq] at itemToo
        subst itemToo
        exact ih below belowOuter

/-- Where everything is known and fits, the unfolding shows what the listing lists. -/
theorem map_entity_unfoldWithin {depth : Nat} {way : List (Entity × Nat)} {entity : Entity}
    {listing : List Entity} (made : ctx.preorderWithin depth entity = .ok listing) :
    (ctx.unfoldWithin depth way entity).map Occurrence.entity = listing := by
  induction depth generalizing way entity listing with
  | zero => cases made
  | succ depth ih =>
    obtain ⟨listed, members, list, each, rfl⟩ := preorderWithin_eq_ok.mp made
    rw [unfoldWithin_succ, listed_eq members, List.map_cons, unfoldMembers, List.map_flatMap]
    -- Positions matter to the ways alone.
    have shown : listed.zipIdx.flatMap (fun (member, position) => (ctx.unfoldWithin depth
        ((entity, position) :: way) member).map Occurrence.entity) =
          listed.zipIdx.flatMap (fun item => list item.1) := by
      refine List.flatMap_congr fun item isItem => ih (each item.1 ?_)
      exact List.fst_mem_of_mem_zipIdx isItem
    rw [shown, ← List.flatMap_map, List.zipIdx_map_fst]

/-- What is known below an entity without a cycle is listed as it unfolds. -/
theorem preorder_eq_unfolding {entity : Entity} (known : ctx.KnownBelow entity)
    (acyclic : ctx.AcyclicBelow entity) :
    ctx.preorder entity = .ok ((ctx.unfolding entity).map Occurrence.entity) := by
  obtain ⟨listing, listed⟩ := preorder_ok_iff.mpr ⟨known, acyclic⟩
  rw [listed, unfolding, map_entity_unfoldWithin listed]

/-- Programs that list the same unfold to the same. -/
theorem unfoldWithin_congr {ctx' : Context}
    (same : ∀ entity, ctx'.listed entity = ctx.listed entity) (depth : Nat)
    (way : List (Entity × Nat)) (entity : Entity) :
    ctx'.unfoldWithin depth way entity = ctx.unfoldWithin depth way entity := by
  -- The unfolding asks for nothing but the lists.
  induction depth generalizing way entity with
  | zero => rfl
  | succ depth ih =>
    rw [unfoldWithin_succ, unfoldWithin_succ, same]
    congr 1
    exact List.flatMap_congr fun item _ => ih _ _

end Context

end NestedIR
