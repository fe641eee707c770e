import NestedIR.Proofs.Context.Containment
import NestedIR.Proofs.Shallow

/-! Without a cycle, no way down from an entity is longer than there are entities. -/

namespace NestedIR

open Relation

/-- All items of a list have answers exactly when the list as a whole has. -/
theorem mapM_ok_iff {α β : Type} {request : α → Except Fault β} {items : List α} :
    (∃ answers, items.mapM request = .ok answers) ↔
      ∀ item ∈ items, ∃ answer, request item = .ok answer := by
  -- The first item without an answer is the one at which the list is given up.
  induction items with
  | nil => simp [List.mapM_nil, Pure.pure, Except.pure]
  | cons first rest ih =>
    simp only [List.mapM_cons, bind_eq_ok, List.forall_mem_cons, ← ih]
    constructor
    · intro mapped
      obtain ⟨_, head, answered, tail, remaining, -⟩ := mapped
      exact ⟨⟨head, answered⟩, tail, remaining⟩
    · intro both
      obtain ⟨⟨head, answered⟩, tail, remaining⟩ := both
      exact ⟨head :: tail, head, answered, tail, remaining, rfl⟩

namespace Context

variable {ctx : Context}

/-- Everything below an entity is known, and every way down from it is shorter than a depth. -/
def Fits (ctx : Context) : Nat → Entity → Prop
  | 0, _ => False
  | depth + 1, entity =>
    ∃ listed, ctx.members entity = .ok listed ∧ ∀ member ∈ listed, ctx.Fits depth member

/-- Nothing that can be reached from an entity is inside itself. -/
def AcyclicBelow (ctx : Context) (entity : Entity) : Prop :=
  ∀ inner, ReflTransGen ctx.Contains entity inner → ¬ TransGen ctx.Contains inner inner

/-- Everything that can be reached from an entity is known. -/
def KnownBelow (ctx : Context) (entity : Entity) : Prop :=
  ∀ inner, ReflTransGen ctx.Contains entity inner → ∃ listed, ctx.members inner = .ok listed

namespace Fits

/-- What fits into a depth fits into every greater one. -/
theorem mono {depth deeper : Nat} {entity : Entity} (fits : ctx.Fits depth entity)
    (le : depth ≤ deeper) : ctx.Fits deeper entity := by
  -- The greater depth is used up in the same way, with some of it left over.
  induction depth generalizing deeper entity with
  | zero => cases fits
  | succ depth ih =>
    obtain ⟨listed, members, inner⟩ := fits
    obtain ⟨rest, rfl⟩ : ∃ rest, deeper = rest + 1 := ⟨deeper - 1, by omega⟩
    exact ⟨listed, members, fun member isListed => ih (inner member isListed) (by omega)⟩

/-- What an entity contains fits into one step less. -/
theorem of_contains {depth : Nat} {outer inner : Entity} (fits : ctx.Fits (depth + 1) outer)
    (contains : ctx.Contains outer inner) : ctx.Fits depth inner := by
  -- The list that was looked up is the one that lists the inner entity.
  obtain ⟨listed, members, below⟩ := fits
  obtain ⟨again, membersAgain, isListed⟩ := contains
  rw [members] at membersAgain
  cases membersAgain
  exact below inner isListed

/-- What an entity contains fits into the same depth as well. -/
theorem inner {depth : Nat} {outer inner : Entity} (fits : ctx.Fits depth outer)
    (contains : ctx.Contains outer inner) : ctx.Fits depth inner := by
  -- One step less fits into the depth itself as well.
  cases depth with
  | zero => cases fits
  | succ depth => exact (fits.of_contains contains).mono (Nat.le_succ depth)

/-- What can be reached from an entity fits into the same depth. -/
theorem of_reaches {depth : Nat} {entity inner : Entity} (fits : ctx.Fits depth entity)
    (down : ReflTransGen ctx.Contains entity inner) : ctx.Fits depth inner := by
  induction down with
  | refl => exact fits
  | tail _ contains ih => exact ih.inner contains

/-- What fits into some depth has members. -/
theorem exists_members {depth : Nat} {entity : Entity} (fits : ctx.Fits depth entity) :
    ∃ listed, ctx.members entity = .ok listed := by
  cases depth with
  | zero => cases fits
  | succ depth =>
    obtain ⟨listed, members, -⟩ := fits
    exact ⟨listed, members⟩

/-- An operation that fits into some depth is known. -/
theorem exists_op {depth : Nat} {op : OpId} (fits : ctx.Fits depth (.op op)) :
    ∃ data, ctx.op op = .ok data := by
  -- Only a known operation has members.
  obtain ⟨listed, members⟩ := fits.exists_members
  obtain ⟨data, found, -⟩ := bind_eq_ok.mp members
  exact ⟨data, found⟩

/-- A region that fits into some depth is known. -/
theorem exists_region {depth : Nat} {region : RegionId} (fits : ctx.Fits depth (.region region)) :
    ∃ data, ctx.region region = .ok data := by
  -- Only a known region has members.
  obtain ⟨listed, members⟩ := fits.exists_members
  obtain ⟨data, found, -⟩ := bind_eq_ok.mp members
  exact ⟨data, found⟩

/-- A block that fits into some depth is known. -/
theorem exists_block {depth : Nat} {block : BlockId} (fits : ctx.Fits depth (.block block)) :
    ∃ data, ctx.block block = .ok data := by
  -- Only a known block has members.
  obtain ⟨listed, members⟩ := fits.exists_members
  obtain ⟨data, found, -⟩ := bind_eq_ok.mp members
  exact ⟨data, found⟩

/-- What is strictly inside an entity fits into a smaller depth. -/
theorem exists_lt_of_transGen {depth : Nat} {outer inner : Entity} (fits : ctx.Fits depth outer)
    (path : TransGen ctx.Contains outer inner) :
    ∃ smaller < depth, ctx.Fits smaller inner := by
  -- Every step down leaves less depth.
  have step {depth : Nat} {outer inner : Entity} (fits : ctx.Fits depth outer)
      (contains : ctx.Contains outer inner) : ∃ smaller < depth, ctx.Fits smaller inner := by
    cases depth with
    | zero => cases fits
    | succ depth => exact ⟨depth, by omega, fits.of_contains contains⟩
  induction path with
  | single contains => exact step fits contains
  | tail _ contains ih =>
    obtain ⟨smaller, less, fitsMid⟩ := ih
    obtain ⟨smallest, lesser, fitsLast⟩ := step fitsMid contains
    exact ⟨smallest, by omega, fitsLast⟩

/-- What fits into some depth is not inside itself. -/
theorem not_transGen {depth : Nat} {entity : Entity} (fits : ctx.Fits depth entity) :
    ¬ TransGen ctx.Contains entity entity := by
  -- Every way round would come back with less depth left, without end.
  induction depth using Nat.strongRecOn generalizing entity with
  | _ depth ih =>
    intro around
    obtain ⟨smaller, less, fitsAgain⟩ := fits.exists_lt_of_transGen around
    exact ih smaller less fitsAgain around

/-- What fits into some depth has only known entities and no cycle below it. -/
theorem below {depth : Nat} {entity : Entity} (fits : ctx.Fits depth entity) :
    ctx.KnownBelow entity ∧ ctx.AcyclicBelow entity := by
  -- Whatever can be reached fits into the depth, which has both consequences.
  constructor
  · intro inner down
    exact (fits.of_reaches down).exists_members
  · intro inner down
    exact (fits.of_reaches down).not_transGen

end Fits

/-- All known entities. -/
def entities (ctx : Context) : List Entity :=
  (List.range ctx.ops.size).map (fun place => .op ⟨place⟩) ++
    (List.range ctx.regions.size).map (fun place => .region ⟨place⟩) ++
    (List.range ctx.blocks.size).map (fun place => .block ⟨place⟩)

/-- The bound on depth leaves room for all known entities and one more. -/
theorem depthBound_eq (ctx : Context) : ctx.depthBound = ctx.entities.length + 1 := by
  simp [depthBound, entities, Nat.add_assoc]

/-- What has members is among the known entities. -/
theorem mem_entities {entity : Entity} {listed : List Entity}
    (members : ctx.members entity = .ok listed) : entity ∈ ctx.entities := by
  -- What has members is in its table, and the tables are listed one after the other.
  simp only [entities, List.mem_append, List.mem_map, List.mem_range]
  cases entity with
  | op op =>
    obtain ⟨data, found, -⟩ := bind_eq_ok.mp members
    exact .inl (.inl ⟨op.index, index_lt_of_op found, rfl⟩)
  | region region =>
    obtain ⟨data, found, -⟩ := bind_eq_ok.mp members
    exact .inl (.inr ⟨region.index, index_lt_of_region found, rfl⟩)
  | block block =>
    obtain ⟨data, found, -⟩ := bind_eq_ok.mp members
    exact .inr ⟨block.index, index_lt_of_block found, rfl⟩

/-- Without a cycle below it, an entity has room for its members within the bound on depth. -/
theorem shallow_depthBound {entity : Entity} (acyclic : ctx.AcyclicBelow entity) :
    Shallow ctx.Contains ctx.depthBound entity := by
  -- Only known entities contain anything.
  have leadsOn (outer inner : Entity) (contains : ctx.Contains outer inner) :
      outer ∈ ctx.entities := by
    obtain ⟨listed, members, -⟩ := contains
    exact mem_entities members
  rw [depthBound_eq]
  exact Shallow.of_acyclic leadsOn acyclic

/-- Where everything below an entity is known, it fits as soon as every way down is short. -/
theorem fits_of_shallow {depth : Nat} {entity : Entity}
    (shallow : Shallow ctx.Contains depth entity) (known : ctx.KnownBelow entity) :
    ctx.Fits depth entity := by
  -- Both take one step for the members of an entity.
  induction depth generalizing entity with
  | zero => cases shallow
  | succ depth ih =>
    obtain ⟨listed, members⟩ := known entity .refl
    refine ⟨listed, members, fun inner isListed => ?_⟩
    have contains : ctx.Contains entity inner := ⟨listed, members, isListed⟩
    exact ih (shallow inner contains) fun deeper down => known deeper (down.head contains)

/-- What has only known entities and no cycle below it fits into the bound on depth. -/
theorem fits_depthBound {entity : Entity} (known : ctx.KnownBelow entity)
    (acyclic : ctx.AcyclicBelow entity) : ctx.Fits ctx.depthBound entity :=
  fits_of_shallow (shallow_depthBound acyclic) known

/-- An entity and everything below it are listed exactly when they fit into the depth. -/
theorem preorderWithin_ok_iff {depth : Nat} {entity : Entity} :
    (∃ listing, ctx.preorderWithin depth entity = .ok listing) ↔ ctx.Fits depth entity := by
  -- The listing and the depth are used up by the same recursion.
  induction depth generalizing entity with
  | zero => simp [preorderWithin, Fits]
  | succ depth ih =>
    simp only [preorderWithin, Fits, bind_eq_ok, ← ih, ← mapM_ok_iff]
    constructor
    · intro listing
      obtain ⟨_, listed, members, below, mapped, -⟩ := listing
      exact ⟨listed, members, below, mapped⟩
    · intro listing
      obtain ⟨listed, members, below, mapped⟩ := listing
      exact ⟨entity :: below.flatten, listed, members, below, mapped, rfl⟩

/-- Everything below an entity is listed exactly when all of it is known and free of cycles. -/
theorem preorder_ok_iff {entity : Entity} :
    (∃ listing, ctx.preorder entity = .ok listing) ↔
      ctx.KnownBelow entity ∧ ctx.AcyclicBelow entity := by
  rw [preorder, preorderWithin_ok_iff]
  exact ⟨Fits.below, fun below => fits_depthBound below.1 below.2⟩

/-- Where owners and lists agree, what is contained is known. -/
theorem knownBelow_of_owned (ops : OpsOwned ctx) (regions : RegionsOwned ctx)
    (blocks : BlocksOwned ctx) {entity : Entity}
    (known : ∃ listed, ctx.members entity = .ok listed) : ctx.KnownBelow entity := by
  -- An entity that is reached is listed by another, and listed entities are known.
  intro inner down
  rcases ReflTransGen.cases_tail down with rfl | ⟨outer, -, contains⟩
  · exact known
  · cases outer with
    | op op =>
      obtain ⟨data, region, found, listed, rfl⟩ := contains_op.mp contains
      obtain ⟨owned, foundOwned, -⟩ := regions.recorded found listed
      exact ⟨_, bind_eq_ok.mpr ⟨owned, foundOwned, rfl⟩⟩
    | region region =>
      obtain ⟨data, block, found, listed, rfl⟩ := contains_region.mp contains
      obtain ⟨owned, foundOwned, -⟩ := blocks.recorded found listed
      exact ⟨_, bind_eq_ok.mpr ⟨owned, foundOwned, rfl⟩⟩
    | block block =>
      obtain ⟨data, op, found, listed, rfl⟩ := contains_block.mp contains
      obtain ⟨owned, foundOwned, -⟩ := ops.recorded found listed
      exact ⟨_, bind_eq_ok.mpr ⟨owned, foundOwned, rfl⟩⟩

/-- Without direct edits and without a cycle, what is below an operation fits into the bound. -/
theorem fits_of_build {requests : List Request} {ctx : Context}
    (plain : ∀ request ∈ requests, request.isEdit = false) (built : build requests = .ok ctx)
    {op : OpId} {data : Operation} (found : ctx.op op = .ok data)
    (acyclic : ctx.AcyclicBelow (.op op)) : ctx.Fits ctx.depthBound (.op op) := by
  -- Owners agree after such requests, so that what is listed is known.
  obtain ⟨ops, regions⟩ := owned_of_build plain built
  have members : ∃ listed, ctx.members (.op op) = .ok listed :=
    ⟨_, bind_eq_ok.mpr ⟨data, found, rfl⟩⟩
  exact fits_depthBound (knownBelow_of_owned ops regions (.of_build built) members) acyclic

end Context

end NestedIR
