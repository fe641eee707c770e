import Mathlib.Data.List.Duplicate
import NestedIR.Proofs.Context.Nesting
import NestedIR.Traversal

/-! A listing of everything below an entity repeats what the lists on the way down repeat. -/

namespace NestedIR

open Relation

/-- The operation that an entity is, if it is one. -/
def Entity.op? : Entity → Option OpId
  | .op here => some here
  | .region _ => none
  | .block _ => none

/-- A visitor that takes note of every operation and always goes on into what it contains. -/
def Visitor.noting {σ β : Type} (note : σ → OpId → σ) : Visitor σ β := fun op => do
  modify (note · op)
  return .descend

/-- Entities that are the same operation are the same. -/
theorem Entity.eq_of_op? {first second : Entity} {op : OpId} (isOp : first.op? = some op)
    (isOpToo : second.op? = some op) : first = second := by
  cases first <;> cases second <;> simp_all [Entity.op?]

/-- The operation that stands first in a listing comes in front of the others. -/
@[simp] theorem Entity.filterMap_op?_cons (entity : Entity) (rest : List Entity) :
    (entity :: rest).filterMap Entity.op? = entity.op?.toList ++ rest.filterMap Entity.op? := by
  cases entity <;> rfl

/-- Only operations are taken note of, and nothing is passed over. -/
theorem Visitor.advise_noting {σ β : Type} (note : σ → OpId → σ) (entity : Entity) (state : σ) :
    (Visitor.noting note : Visitor σ β).advise entity state =
      .ok (.descend, entity.op?.toList.foldl note state) := by
  cases entity <;> rfl

/-- Items that all have answers are answered one by one. -/
theorem exists_map_of_mapM {ε α β : Type} [Inhabited β] {request : α → Except ε β}
    {items : List α} {answers : List β} (mapped : items.mapM request = .ok answers) :
    ∃ answer : α → β, answers = items.map answer ∧
      ∀ item ∈ items, request item = .ok (answer item) := by
  -- The same function answers every item, so that it does not depend on the list.
  refine ⟨fun item => (request item).toOption.getD default, ?_⟩
  induction items generalizing answers with
  | nil =>
    cases mapped
    exact ⟨rfl, by simp⟩
  | cons first rest ih =>
    rw [List.mapM_cons, bind_eq_ok] at mapped
    obtain ⟨head, answered, mapped⟩ := mapped
    obtain ⟨tail, remaining, made⟩ := bind_eq_ok.mp mapped
    cases made
    obtain ⟨same, each⟩ := ih remaining
    have first : request first = .ok ((request first).toOption.getD default) := by
      rw [answered]
      rfl
    refine ⟨?_, List.forall_mem_cons.mpr ⟨first, each⟩⟩
    rw [List.map_cons, ← same, answered]
    rfl

namespace Context

variable {ctx : Context}

/-- What an entity lists, which is nothing if it is not known. -/
def listed (ctx : Context) (entity : Entity) : List Entity :=
  (ctx.members entity).toOption.getD []

/-- What a known entity lists. -/
theorem listed_eq {entity : Entity} {members : List Entity}
    (known : ctx.members entity = .ok members) : ctx.listed entity = members := by
  rw [listed, known]
  rfl

/-- What is not known lists nothing. -/
theorem listed_eq_nil {entity : Entity} {fault : Fault}
    (unknown : ctx.members entity = .error fault) : ctx.listed entity = [] := by
  rw [listed, unknown]
  rfl

/-- What is listed is contained. -/
theorem mem_listed_iff {entity inner : Entity} :
    inner ∈ ctx.listed entity ↔ ctx.Contains entity inner := by
  cases known : ctx.members entity with
  | error fault => simp [listed, Contains, known, Except.toOption]
  | ok members => simp [listed_eq known, Contains, known]

/-- Only an operation is shown as one. -/
theorem mem_op?_iff {entity : Entity} {op : OpId} :
    op ∈ entity.op?.toList ↔ entity = .op op := by
  cases entity <;> simp [Entity.op?, eq_comm]

/-- A search that finds nothing takes note of what its items list, in order. -/
theorem findSomeM?_noting {α σ β : Type} {look : α → StateT σ (Except Fault) (Option β)}
    {list : α → Except Fault (List Entity)} {note : σ → OpId → σ}
    (looks : ∀ item state, look item state = (list item).map fun listing =>
      (none, (listing.filterMap Entity.op?).foldl note state)) (items : List α) (state : σ) :
    (items.findSomeM? look) state = (items.mapM list).map fun parts =>
      (none, (parts.flatten.filterMap Entity.op?).foldl note state) := by
  -- What the first item lists is noted before the rest is looked at.
  induction items generalizing state with
  | nil => rfl
  | cons first rest ih =>
    rw [List.mapM_cons]
    change (look first state >>= _) = _
    rw [looks]
    cases list first with
    | error fault => rfl
    | ok listing =>
      refine (ih _).trans ?_
      cases rest.mapM list with
      | error fault => rfl
      | ok parts =>
        change Except.ok _ = Except.ok _
        simp [List.foldl_append]

/-- A walk that always goes on takes note of the operations in the order of the listing. -/
theorem walkWithin_noting {σ β : Type} (note : σ → OpId → σ) (depth : Nat) (entity : Entity)
    (state : σ) :
    ctx.walkWithin (.noting note : Visitor σ β) depth entity state =
      (ctx.preorderWithin depth entity).map fun listing =>
        (none, (listing.filterMap Entity.op?).foldl note state) := by
  -- Both follow the lists in the same way, and fail in the same place if they do.
  induction depth generalizing entity state with
  | zero => rfl
  | succ depth ih =>
    have search (listed : List Entity) (state : σ) := findSomeM?_noting ih listed state
    have visited : ctx.walkWithin (.noting note : Visitor σ β) (depth + 1) entity state =
        (ctx.members entity >>= fun listed =>
          (listed.findSomeM? (ctx.walkWithin (.noting note : Visitor σ β) depth))
            ((entity.op?.toList).foldl note state)) := by
      change ((Visitor.noting note : Visitor σ β).advise entity state >>= _) = _
      rw [Visitor.advise_noting]
      change ((ctx.members entity >>= fun listed => pure (listed, _)) >>= _) = _
      cases ctx.members entity <;> rfl
    rw [visited, preorderWithin]
    cases ctx.members entity with
    | error fault => rfl
    | ok listed =>
      refine (search listed _).trans ?_
      change _ = ((listed.mapM (ctx.preorderWithin depth) >>= fun below =>
        Except.ok (entity :: below.flatten))).map _
      cases listed.mapM (ctx.preorderWithin depth) with
      | error fault => rfl
      | ok parts =>
        change Except.ok _ = Except.ok _
        simp [List.foldl_append]

/-- A walk that always goes on ends exactly where there is a listing, and notes what it lists. -/
theorem walk_noting {σ β : Type} (note : σ → OpId → σ) (entity : Entity) (state : σ) :
    ctx.walk (.noting note : Visitor σ β) entity state =
      (ctx.preorder entity).map fun listing =>
        (none, (listing.filterMap Entity.op?).foldl note state) :=
  walkWithin_noting note ctx.depthBound entity state

/-- The listing of an entity starts with it, and the listings of what it contains follow. -/
theorem preorderWithin_eq_ok {depth : Nat} {entity : Entity} {listing : List Entity} :
    ctx.preorderWithin (depth + 1) entity = .ok listing ↔
      ∃ listed, ctx.members entity = .ok listed ∧ ∃ list : Entity → List Entity,
        (∀ member ∈ listed, ctx.preorderWithin depth member = .ok (list member)) ∧
          listing = entity :: listed.flatMap list := by
  simp only [preorderWithin, bind_eq_ok]
  constructor
  · intro made
    obtain ⟨listed, members, parts, mapped, same⟩ := made
    cases same
    obtain ⟨list, rfl, each⟩ := exists_map_of_mapM mapped
    exact ⟨listed, members, list, each, by rw [List.flatMap_def]⟩
  · intro made
    obtain ⟨listed, members, list, each, rfl⟩ := made
    refine ⟨listed, members, listed.map list, ?_, by rw [List.flatMap_def]; rfl⟩
    clear members
    -- The answers are known one by one, so that the whole list is answered.
    induction listed with
    | nil => rfl
    | cons first rest ih =>
      rw [List.mapM_cons, each first (by simp)]
      change (rest.mapM (ctx.preorderWithin depth) >>= _) = _
      rw [ih fun member isListed => each member (by simp [isListed])]
      rfl

/-- Exactly what can be reached from an entity is listed. -/
theorem mem_preorderWithin_iff {depth : Nat} {entity inner : Entity} {listing : List Entity}
    (made : ctx.preorderWithin depth entity = .ok listing) :
    inner ∈ listing ↔ ReflTransGen ctx.Contains entity inner := by
  -- What is not the entity itself is listed with one of its members.
  induction depth generalizing entity inner listing with
  | zero => cases made
  | succ depth ih =>
    obtain ⟨listed, members, list, each, rfl⟩ := preorderWithin_eq_ok.mp made
    rw [List.mem_cons, List.mem_flatMap]
    constructor
    · intro found
      rcases found with rfl | ⟨member, isListed, inList⟩
      · exact .refl
      · have down := (ih (each member isListed)).mp inList
        exact down.head ⟨listed, members, isListed⟩
    · intro down
      rcases ReflTransGen.cases_head down with rfl | ⟨member, contains, rest⟩
      · exact .inl rfl
      · obtain ⟨again, membersAgain, isListed⟩ := contains
        cases members.symm.trans membersAgain
        exact .inr ⟨member, isListed, (ih (each member isListed)).mpr rest⟩

/-- Nothing below an entity is listed by two different entities. -/
def SingleOwners (ctx : Context) (entity : Entity) : Prop :=
  ∀ outer other inner, ReflTransGen ctx.Contains entity outer →
    ReflTransGen ctx.Contains entity other →
      ctx.Contains outer inner → ctx.Contains other inner → outer = other

namespace SingleOwners

/-- Single owners below an entity are single owners below what it contains. -/
theorem of_contains {outer inner : Entity} (single : ctx.SingleOwners outer)
    (contains : ctx.Contains outer inner) : ctx.SingleOwners inner :=
  fun first second deeper toFirst toSecond =>
    single first second deeper (toFirst.head contains) (toSecond.head contains)

/-- Of two ways down to the same entity, one is the end of the other. -/
theorem comparable {entity first second inner : Entity} (single : ctx.SingleOwners entity)
    (toFirst : ReflTransGen ctx.Contains entity first)
    (toSecond : ReflTransGen ctx.Contains entity second)
    (down : ReflTransGen ctx.Contains first inner) (path : ReflTransGen ctx.Contains second inner) :
    ReflTransGen ctx.Contains first second ∨ ReflTransGen ctx.Contains second first := by
  -- Both ways come through the one owner of the entity that they lead to.
  induction down with
  | refl => exact .inr path
  | @tail owner inner before contains ih =>
    rcases ReflTransGen.cases_tail path with rfl | ⟨other, earlier, containsToo⟩
    · exact .inl (before.tail contains)
    · have same := single owner other inner (toFirst.trans before) (toSecond.trans earlier)
        contains containsToo
      exact ih (same ▸ earlier)

/-- Different members of an entity have nothing in common, unless there is a cycle. -/
theorem eq_of_common {entity first second inner : Entity} (single : ctx.SingleOwners entity)
    (acyclic : ¬ TransGen ctx.Contains entity entity) (contains : ctx.Contains entity first)
    (containsToo : ctx.Contains entity second) (down : ReflTransGen ctx.Contains first inner)
    (path : ReflTransGen ctx.Contains second inner) : first = second := by
  -- If one member were inside another, its only owner would be inside that other member.
  have apart {upper lower : Entity} (toUpper : ctx.Contains entity upper)
      (toLower : ctx.Contains entity lower) (inside : ReflTransGen ctx.Contains upper lower) :
      upper = lower := by
    rcases ReflTransGen.cases_tail inside with same | ⟨owner, before, last⟩
    · exact same.symm
    · have same := single owner entity lower (before.head toUpper) .refl last toLower
      exact absurd (TransGen.head' toUpper (same ▸ before)) acyclic
  rcases single.comparable (.single contains) (.single containsToo) down path with inside | inside
  · exact apart contains containsToo inside
  · exact (apart containsToo contains inside).symm

end SingleOwners

section View

variable {α : Type} {view : Entity → Option α} {entity : Entity} {listed : List Entity}
  {list : Entity → List Entity}

/-- What an entity shows of itself is not shown again below, as it is not inside itself. -/
theorem nodup_filterMap_cons_iff
    (apart : ∀ first second item, view first = some item → view second = some item →
      first = second) (acyclic : ¬ TransGen ctx.Contains entity entity)
    (members : ctx.members entity = .ok listed)
    (reached : ∀ member ∈ listed, ∀ deeper,
      deeper ∈ list member ↔ ReflTransGen ctx.Contains member deeper) :
    ((entity :: listed.flatMap list).filterMap view).Nodup ↔
      (listed.flatMap fun member => (list member).filterMap view).Nodup := by
  rw [← List.filterMap_flatMap]
  cases shown : view entity with
  | none => rw [List.filterMap_cons_none shown]
  | some item =>
    rw [List.filterMap_cons_some shown, List.nodup_cons, and_iff_right]
    -- What shows the same is the entity itself, which would be below itself.
    intro again
    obtain ⟨deeper, inList, shownToo⟩ := List.mem_filterMap.mp again
    obtain ⟨member, isListed, inPart⟩ := List.mem_flatMap.mp inList
    have same := apart entity deeper item shown shownToo
    have down := (reached member isListed deeper).mp inPart
    exact acyclic (TransGen.head' ⟨listed, members, isListed⟩ (same ▸ down))

/-- Two different members share nothing, so that only a repeated one can show something twice. -/
theorem SingleOwners.pairwise_disjoint_iff (single : ctx.SingleOwners entity)
    (apart : ∀ first second item, view first = some item → view second = some item →
      first = second) (acyclic : ¬ TransGen ctx.Contains entity entity)
    (members : ctx.members entity = .ok listed)
    (reached : ∀ member ∈ listed, ∀ deeper,
      deeper ∈ list member ↔ ReflTransGen ctx.Contains member deeper) :
    (listed.Pairwise (Function.onFun List.Disjoint
        fun member => (list member).filterMap view)) ↔
      ∀ inner, listed.Duplicate inner →
        ∀ deeper, ReflTransGen ctx.Contains inner deeper → view deeper = none := by
  rw [List.pairwise_iff_forall_sublist]
  constructor
  · intro disjoint inner twice deeper down
    cases shown : view deeper with
    | none => rfl
    | some item =>
      have inPart : item ∈ (list inner).filterMap view :=
        List.mem_filterMap.mpr ⟨deeper, (reached inner twice.mem deeper).mpr down, shown⟩
      exact absurd inPart (disjoint (List.duplicate_iff_sublist.mp twice) inPart)
  · intro hidden first second sub item inFirst inSecond
    have firstListed : first ∈ listed := sub.subset (by simp)
    have secondListed : second ∈ listed := sub.subset (by simp)
    obtain ⟨deeper, inList, shown⟩ := List.mem_filterMap.mp inFirst
    obtain ⟨other, inOther, shownToo⟩ := List.mem_filterMap.mp inSecond
    cases apart deeper other item shown shownToo
    -- What both members lead to makes them the same member, which is listed twice.
    have down := (reached first firstListed deeper).mp inList
    have same := single.eq_of_common acyclic ⟨listed, members, firstListed⟩
      ⟨listed, members, secondListed⟩ down ((reached second secondListed deeper).mp inOther)
    cases same
    have twice := List.duplicate_iff_sublist.mpr sub
    rw [hidden first twice deeper down] at shown
    cases shown

end View

/--
A view of a listing repeats nothing exactly where every entity that is listed twice by another one
shows nothing of itself or of what it contains.
-/
theorem nodup_filterMap_preorderWithin_iff {α : Type} {view : Entity → Option α}
    (apart : ∀ first second item, view first = some item → view second = some item →
      first = second) {depth : Nat} {entity : Entity} {listing : List Entity}
    (single : ctx.SingleOwners entity) (made : ctx.preorderWithin depth entity = .ok listing) :
    (listing.filterMap view).Nodup ↔
      ∀ outer listed inner, ReflTransGen ctx.Contains entity outer →
        ctx.members outer = .ok listed → listed.Duplicate inner →
          ∀ deeper, ReflTransGen ctx.Contains inner deeper → view deeper = none := by
  induction depth generalizing entity listing with
  | zero => cases made
  | succ depth ih =>
    have acyclic := (preorderWithin_ok_iff.mp ⟨_, made⟩).not_transGen
    obtain ⟨listed, members, list, each, rfl⟩ := preorderWithin_eq_ok.mp made
    have contains {member : Entity} (isListed : member ∈ listed) : ctx.Contains entity member :=
      ⟨listed, members, isListed⟩
    have reached : ∀ member ∈ listed, ∀ deeper,
        deeper ∈ list member ↔ ReflTransGen ctx.Contains member deeper :=
      fun member isListed _ => mem_preorderWithin_iff (each member isListed)
    rw [nodup_filterMap_cons_iff apart acyclic members reached, List.nodup_flatMap,
      single.pairwise_disjoint_iff apart acyclic members reached]
    constructor
    · -- What is listed twice is listed by the entity itself or below one of its members.
      intro both outer others inner down membersOuter
      obtain ⟨below, here⟩ := both
      rcases ReflTransGen.cases_head down with rfl | ⟨member, containsMember, rest⟩
      · cases members.symm.trans membersOuter
        exact here inner
      · obtain ⟨again, membersAgain, isListed⟩ := containsMember
        cases members.symm.trans membersAgain
        exact (ih (single.of_contains (contains isListed)) (each member isListed)).mp
          (below member isListed) outer others inner rest membersOuter
    · intro hidden
      refine ⟨fun member isListed => ?_, fun inner => hidden entity listed inner .refl members⟩
      refine (ih (single.of_contains (contains isListed)) (each member isListed)).mpr ?_
      exact fun outer others inner down => hidden outer others inner (down.head (contains isListed))

end Context

end NestedIR
