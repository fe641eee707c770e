import NestedIR.Proofs.Pass.Turns
import NestedIR.Proofs.Structure.Shape

/-! Rewrites leave the appearance of everything alone but for the lists that they rewrite. -/

namespace NestedIR

open Relation

namespace Attribute

variable {ctx ctx' : Context}

mutual

/-- The text of an attribute depends on types and dialects alone. -/
theorem render_congr (types : ctx'.types = ctx.types) (dialects : ctx'.dialects = ctx.dialects) :
    (value : Attribute) → value.render ctx' = value.render ctx
  -- Only a type asks the table, and only a payload asks the dialects.
  | .unit => rfl
  | .bool _ => rfl
  | .int _ => rfl
  | .float _ => rfl
  | .string _ => rfl
  | .symbol _ => rfl
  | .type named => congrArg (TypeTable.render · named) types
  | .list items => by rw [render, render, renderAll_congr types dialects items]
  | .payload dialect bytes => congrArg (DialectTable.renderPayload · dialect bytes) dialects

/-- The texts of attributes depend on types and dialects alone. -/
theorem renderAll_congr (types : ctx'.types = ctx.types)
    (dialects : ctx'.dialects = ctx.dialects) :
    (items : List Attribute) → renderAll ctx' items = renderAll ctx items
  | [] => rfl
  | item :: rest => by
    rw [renderAll, renderAll, render_congr types dialects item,
      renderAll_congr types dialects rest]

end

end Attribute

/-- Two operations appear alike: they differ in owners and in what is only counted. -/
structure Operation.Alike (data data' : Operation) : Prop where
  /-- They have one name. -/
  name : data'.name = data.name
  /-- They have one symbol. -/
  symbol : data'.symbol = data.symbol
  /-- They have the same attributes. -/
  attributes : data'.attributes = data.attributes
  /-- They have the same regions. -/
  regions : data'.regions = data.regions
  /-- They have the same successors. -/
  successors : data'.successors = data.successors
  /-- They read as many values. -/
  operands : data'.operands.length = data.operands.length
  /-- They define as many values. -/
  results : data'.results.length = data.results.length

namespace Operation.Alike

variable {data mid data' : Operation}

/-- An operation appears like itself. -/
theorem refl (data : Operation) : data.Alike data := ⟨rfl, rfl, rfl, rfl, rfl, rfl, rfl⟩

/-- What appears like one that appears like another appears like that one. -/
theorem trans (first : data.Alike mid) (second : mid.Alike data') : data.Alike data' where
  name := second.name.trans first.name
  symbol := second.symbol.trans first.symbol
  attributes := second.attributes.trans first.attributes
  regions := second.regions.trans first.regions
  successors := second.successors.trans first.successors
  operands := second.operands.trans first.operands
  results := second.results.trans first.results

/-- Of two that appear alike, either appears like the other. -/
theorem symm (alike : data.Alike data') : data'.Alike data :=
  ⟨alike.name.symm, alike.symbol.symm, alike.attributes.symm, alike.regions.symm,
    alike.successors.symm, alike.operands.symm, alike.results.symm⟩

end Operation.Alike

namespace Context

variable {ctx mid ctx' : Context} {op op' : OpId} {block : BlockId} {entity : Entity}

/-- An operation that is known in one program appears like one of another program. -/
def ShownAs (ctx ctx' : Context) (op op' : OpId) : Prop :=
  ∀ data, ctx.op op = .ok data → ∃ data', ctx'.op op' = .ok data' ∧ data.Alike data'

/-- Operations that appear alike have one face. -/
theorem face_of_shownAs (types : ctx'.types = ctx.types) (dialects : ctx'.dialects = ctx.dialects)
    (shown : ctx.ShownAs ctx' op op') {face : Face} (seen : ctx.face (.op op) = .ok face) :
    ctx'.face (.op op') = .ok face := by
  -- The face is made of what the two have in common.
  obtain ⟨data, found, made⟩ := bind_eq_ok.mp seen
  obtain ⟨data', found', alike⟩ := shown data found
  cases made
  refine bind_eq_ok.mpr ⟨data', found', congrArg Except.ok ?_⟩
  -- Texts depend on types and dialects alone, and kinds on names alone.
  have texts (value : Attribute) : value.renderOrTag ctx' = value.renderOrTag ctx := by
    rw [Attribute.renderOrTag, Attribute.render_congr types dialects, Attribute.renderOrTag]
  have kinds : data'.isKind = data.isKind := funext fun kind => by
    rw [Operation.isKind, alike.name, Operation.isKind]
  simp only [Operation.describe, Description.label, Operation.symbolInfo?, Operation.symbolKind?,
    kinds, alike.name, alike.symbol, alike.attributes, alike.successors, alike.operands,
    alike.results, texts]

/-- Lists that are related item by item have related last items. -/
theorem getLast?_rel {α β : Type} {related : α → β → Prop} {items : List α} {others : List β}
    (each : List.Forall₂ related items others) :
    items.getLast? = none ∧ others.getLast? = none ∨
      ∃ item other, items.getLast? = some item ∧ others.getLast? = some other ∧
        related item other := by
  -- The last items are the first ones from behind.
  have reversed := List.rel_reverse each
  rw [← List.head?_reverse, ← List.head?_reverse]
  generalize items.reverse = front, others.reverse = frontToo at reversed
  cases reversed with
  | nil => exact .inl ⟨rfl, rfl⟩
  | cons first _ => exact .inr ⟨_, _, rfl, rfl, first⟩

/-- Blocks with as many arguments that list operations that appear alike have one face. -/
theorem face_of_listed {block' : BlockId} {data data' : Block} (found : ctx.block block = .ok data)
    (found' : ctx'.block block' = .ok data')
    (arguments : data'.arguments.length = data.arguments.length)
    (shown : List.Forall₂ (ctx.ShownAs ctx') data.ops data'.ops) {face : Face}
    (seen : ctx.face (.block block) = .ok face) : ctx'.face (.block block') = .ok face := by
  obtain ⟨again, foundAgain, seen⟩ := bind_eq_ok.mp seen
  cases found.symm.trans foundAgain
  obtain ⟨targets, targeted, made⟩ := bind_eq_ok.mp seen
  cases made
  refine bind_eq_ok.mpr ⟨data', found', bind_eq_ok.mpr ⟨targets, ?_, by rw [arguments]; rfl⟩⟩
  -- The last operations have the same successors.
  rw [successors, found] at targeted
  rw [successors, found']
  rcases getLast?_rel shown with ⟨last, last'⟩ | ⟨op, op', last, last', shownLast⟩
  · simp only [Bind.bind, Except.bind, last, last'] at targeted ⊢
    exact targeted
  · simp only [Bind.bind, Except.bind, last, last'] at targeted ⊢
    cases foundOp : ctx.op op with
    | error fault =>
      rw [foundOp] at targeted
      cases targeted
    | ok opData =>
      obtain ⟨opData', foundOp', alike⟩ := shownLast opData foundOp
      rw [foundOp] at targeted
      rw [foundOp', ← targeted]
      exact congrArg Except.ok alike.successors

/--
Two programs match where related entities have one face and related members, one by one.
-/
def Matches (related : Entity → Entity → Prop) (ctx ctx' : Context) : Prop :=
  ∀ entity entity', related entity entity' → ∀ face members, ctx.face entity = .ok face →
    ctx.members entity = .ok members → ctx'.face entity' = .ok face ∧
      ∃ members', ctx'.members entity' = .ok members' ∧ List.Forall₂ related members members'

/-- Requests that answer the same for related items answer the same for lists of them. -/
theorem mapM_eq_ok_of_related {α β γ : Type} {related : α → β → Prop}
    {request : α → Except Fault γ} {requestToo : β → Except Fault γ} {items : List α}
    {others : List β} (each : List.Forall₂ related items others)
    (same : ∀ item other, related item other → ∀ answer, request item = .ok answer →
      requestToo other = .ok answer)
    {answers : List γ} (mapped : items.mapM request = .ok answers) :
    others.mapM requestToo = .ok answers := by
  induction each generalizing answers with
  | nil => exact mapped
  | cons first _ ih =>
    -- The first item is answered, and after it the others.
    rw [List.mapM_cons] at mapped ⊢
    obtain ⟨head, here, mapped⟩ := bind_eq_ok.mp mapped
    obtain ⟨tail, later, made⟩ := bind_eq_ok.mp mapped
    exact bind_eq_ok.mpr ⟨head, same _ _ first head here, bind_eq_ok.mpr ⟨tail, ih later, made⟩⟩

/-- Where two programs match, related entities have one shape. -/
theorem Matches.shapeWithin {related : Entity → Entity → Prop} (matched : Matches related ctx ctx')
    {depth : Nat} {entity entity' : Entity} (are : related entity entity') {shape : Shape}
    (found : ctx.shapeWithin depth entity = .ok shape) :
    ctx'.shapeWithin depth entity' = .ok shape := by
  induction depth generalizing entity entity' shape with
  | zero => cases found
  | succ depth ih =>
    obtain ⟨face, seen, found⟩ := bind_eq_ok.mp found
    obtain ⟨members, listed, found⟩ := bind_eq_ok.mp found
    obtain ⟨parts, mapped, made⟩ := bind_eq_ok.mp found
    cases made
    -- What a shape is made of is found for both, first the face and then the shapes of the members.
    obtain ⟨seen', members', listed', each⟩ := matched entity entity' are face members seen listed
    have mapped' := mapM_eq_ok_of_related each (fun _ _ areMembers _ => ih areMembers) mapped
    exact bind_eq_ok.mpr ⟨face, seen', bind_eq_ok.mpr ⟨members', listed',
      bind_eq_ok.mpr ⟨parts, mapped', rfl⟩⟩⟩

end Context

/-- Redirecting a value leaves the dialects alone. -/
theorem Context.dialects_redirectUses (ctx : Context) (old new : ValueId) :
    (ctx.redirectUses old new).dialects = ctx.dialects := by
  by_cases differ : old = new
  · rw [redirectUses, if_pos differ]
  · rw [redirectUses_tables differ]

/-- A rewrite leaves the dialects alone. -/
theorem Rewrite.dialects_eq {op : OpId} {ctx ctx' : Context} (rewrite : Rewrite op ctx ctx') :
    ctx'.dialects = ctx.dialects := by
  -- Only tables of operations, values and blocks are touched when an operation is erased.
  have erased {mid : Context} {block : BlockId}
      (performed : mid.performAll (Context.eraseRequests block op) = .ok ctx') :
      ctx'.dialects = mid.dialects := by
    obtain ⟨data, target, -, -, -, -, rfl⟩ := Context.eraseRequests_eq_ok.mp performed
    rfl
  cases rewrite with
  | fold block data sum found computed performed =>
    obtain ⟨target, front, back, -, -, -, last⟩ := Context.foldRequests_eq_ok.mp performed
    exact (erased last).trans (Context.dialects_redirectUses _ _ _)
  | erase block data found dead performed => exact erased performed

/-- What rewrites of some operations leave of how a program appears. -/
structure Leaves (touched : OpId → Prop) (ctx ctx' : Context) : Prop where
  /-- Types stay. -/
  types_eq : ctx'.types = ctx.types
  /-- Dialects stay. -/
  dialects_eq : ctx'.dialects = ctx.dialects
  /-- Regions stay. -/
  regions_eq : ctx'.regions = ctx.regions
  /-- Known operations appear as before, wherever they are. -/
  shown : ∀ op, ctx.ShownAs ctx' op op
  /-- A block stays that lists none of the operations. -/
  block : ∀ {block data}, ctx.block block = .ok data → (∀ op ∈ data.ops, ¬ touched op) →
    ctx'.block block = .ok data

namespace Leaves

variable {touched : OpId → Prop} {ctx mid ctx' : Context}

/-- Nothing leaves everything alone. -/
theorem refl (touched : OpId → Prop) (ctx : Context) : Leaves touched ctx ctx :=
  ⟨rfl, rfl, rfl, fun _ data found => ⟨data, found, .refl data⟩, fun found _ => found⟩

/-- One change after another leaves what both leave. -/
theorem trans (first : Leaves touched ctx mid) (second : Leaves touched mid ctx') :
    Leaves touched ctx ctx' where
  types_eq := second.types_eq.trans first.types_eq
  dialects_eq := second.dialects_eq.trans first.dialects_eq
  regions_eq := second.regions_eq.trans first.regions_eq
  shown op data found := by
    -- What is shown is followed through the state in between.
    obtain ⟨between, foundMid, alike⟩ := first.shown op data found
    obtain ⟨data', found', alikeToo⟩ := second.shown op between foundMid
    exact ⟨data', found', alike.trans alikeToo⟩
  block found apart := second.block (first.block found apart) apart

/-- A replacement leaves alone all but the lists with the operation that it replaces. -/
theorem of_replaces {op : OpId} {heir : Option OpId} {moved : ValueId → ValueId}
    (replaces : Replaces op heir moved ctx ctx') (dialects : ctx'.dialects = ctx.dialects)
    (isTouched : touched op) : Leaves touched ctx ctx' where
  types_eq := replaces.types_eq
  dialects_eq := dialects
  regions_eq := replaces.regions_eq
  shown other data found := ⟨_, replaces.op_known found,
    ⟨rfl, rfl, rfl, rfl, rfl, by simp [Context.moveOperands], rfl⟩⟩
  block {block data} found apart := by
    -- The operation that is replaced is not in a block that is left alone.
    have absent : op ∉ data.ops := fun listed => apart op listed isTouched
    rw [replaces.block_eq, found, Except.map, succession_of_not_mem absent]

/-- Rewrites of a sound program leave it sound, and alone but for the lists that they rewrite. -/
theorem of_rewrites {discarded : OpId → Prop} (sound : Sound discarded ctx)
    (rewrites : Rewrites touched ctx ctx') :
    (∃ discarded, Sound discarded ctx') ∧ Leaves touched ctx ctx' := by
  induction rewrites with
  | refl => exact ⟨⟨_, sound⟩, .refl touched ctx⟩
  | tail _ step ih =>
    -- Each step is a replacement of an operation that may be touched.
    obtain ⟨⟨gone, soundMid⟩, leaves⟩ := ih
    obtain ⟨op, isTouched, rewrite⟩ := step
    obtain ⟨heir, moved, replaces⟩ := rewrite.exists_replaces soundMid
    exact ⟨⟨_, soundMid.rewrite rewrite⟩,
      leaves.trans (.of_replaces replaces rewrite.dialects_eq isTouched)⟩

/-- An entity that contains none of the operations keeps its face and its members. -/
theorem keeps (leaves : Leaves touched ctx ctx') {entity : Entity} {face : Face}
    {members : List Entity} (seen : ctx.face entity = .ok face)
    (listed : ctx.members entity = .ok members) (apart : ∀ op, .op op ∈ members → ¬ touched op) :
    ctx'.face entity = .ok face ∧ ctx'.members entity = .ok members := by
  cases entity with
  -- An operation shows the same data, and owns the same regions.
  | op op =>
    refine ⟨Context.face_of_shownAs leaves.types_eq leaves.dialects_eq (leaves.shown op) seen, ?_⟩
    obtain ⟨data, found, made⟩ := bind_eq_ok.mp listed
    obtain ⟨data', found', alike⟩ := leaves.shown op data found
    exact bind_eq_ok.mpr ⟨data', found', by rw [alike.regions]; exact made⟩
  | region region =>
    -- No region is ever changed.
    have same := Context.region_congr leaves.regions_eq region
    rw [Context.face, Context.members, same]
    exact ⟨seen, listed⟩
  | block block =>
    obtain ⟨data, found, made⟩ := bind_eq_ok.mp listed
    cases made
    -- The block lists only what is left alone, so that its list stays.
    have stays := leaves.block found fun op inOps => apart op (List.mem_map_of_mem inOps)
    exact ⟨Context.face_of_listed found stays rfl
      (List.forall₂_same.mpr fun op _ => leaves.shown op) seen,
      bind_eq_ok.mpr ⟨data, stays, rfl⟩⟩

end Leaves

end NestedIR
