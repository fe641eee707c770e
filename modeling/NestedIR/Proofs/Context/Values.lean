import Mathlib.Data.Set.Function
import NestedIR.Proofs.Context.Effect

/-! Every value is defined at one place of the program, and keeps that place and its type. -/

namespace NestedIR

/-- The operation or block that defines a value. -/
def Definition.owner : Definition → Entity
  | .result op _ => .op op
  | .argument block _ => .block block

/-- The position of a value among those that its owner defines. -/
def Definition.position : Definition → Nat
  | .result _ index => index
  | .argument _ index => index

/-- A place is told by its owner and its position. -/
theorem Definition.eq_iff {definition other : Definition} :
    definition = other ↔
      definition.owner = other.owner ∧ definition.position = other.position := by
  cases definition <;> cases other <;> simp [owner, position]

/-- The values that an operation or a block defines, and the types given for them. -/
structure Signature where
  /-- The values in order. -/
  values : List ValueId
  /-- The types in the same order. -/
  types : List TypeId

/-- The signature of an operation is given by its results. -/
def Operation.signature (data : Operation) : Signature := ⟨data.results, data.resultTypes⟩

/-- The signature of a block is given by its arguments. -/
def Block.signature (data : Block) : Signature := ⟨data.arguments, data.argumentTypes⟩

namespace Context

variable {ctx ctx' : Context}

/-- The signature of what was ever made. A region defines no values. -/
def signature? (ctx : Context) : Entity → Option Signature
  | .op op => (ctx.op op).toOption.map Operation.signature
  | .region _ => none
  | .block block => (ctx.block block).toOption.map Block.signature

/-- An operation has a signature as soon as it is known. -/
theorem signature?_op_eq_some {op : OpId} {signature : Signature} :
    ctx.signature? (.op op) = some signature ↔
      ∃ data, ctx.op op = .ok data ∧ data.signature = signature := by
  rw [signature?]
  cases ctx.op op <;> simp [Except.toOption]

/-- A block has a signature as soon as it is known. -/
theorem signature?_block_eq_some {block : BlockId} {signature : Signature} :
    ctx.signature? (.block block) = some signature ↔
      ∃ data, ctx.block block = .ok data ∧ data.signature = signature := by
  rw [signature?]
  cases ctx.block block <;> simp [Except.toOption]

/-- An operation that is changed but in its results has the signature that it had. -/
theorem signature?_op_of_map {change : OpId → Operation → Operation}
    (after : ∀ op, ctx'.op op = (ctx.op op).map (change op))
    (kept : ∀ op data, (change op data).signature = data.signature) (op : OpId) :
    ctx'.signature? (.op op) = ctx.signature? (.op op) := by
  rw [signature?, signature?, after]
  cases ctx.op op <;> simp [Except.toOption, Except.map, kept]

/-- A block that is changed but in its arguments has the signature that it had. -/
theorem signature?_block_of_map {change : BlockId → Block → Block}
    (after : ∀ block, ctx'.block block = (ctx.block block).map (change block))
    (kept : ∀ block data, (change block data).signature = data.signature) (block : BlockId) :
    ctx'.signature? (.block block) = ctx.signature? (.block block) := by
  rw [signature?, signature?, after]
  cases ctx.block block <;> simp [Except.toOption, Except.map, kept]

/-- New values are numbered on from the last value. -/
theorem getElem?_freshValues {count index : Nat} {value : ValueId} :
    (ctx.freshValues count)[index]? = some value ↔
      index < count ∧ value = ⟨ctx.values.size + index⟩ := by
  -- The new numbers are a range from the number of values so far.
  simp only [freshValues, List.getElem?_map, Option.map_eq_some_iff, List.getElem?_eq_some_iff,
    List.getElem_range', List.length_range', Nat.one_mul]
  constructor
  · intro listed
    obtain ⟨number, ⟨inside, rfl⟩, rfl⟩ := listed
    exact ⟨inside, rfl⟩
  · intro fresh
    obtain ⟨inside, rfl⟩ := fresh
    exact ⟨_, ⟨inside, rfl⟩, rfl⟩

/--
What a request may do to the places at which values are defined.

Either all of them stay, or one owner is new and defines the values that come next.
-/
inductive Grows (ctx ctx' : Context) : Prop where
  /-- No value is defined. -/
  | stays (values : ctx'.values = ctx.values)
    (signatures : ∀ owner, ctx'.signature? owner = ctx.signature? owner)
  /-- The new owner defines one value for each type. -/
  | defines (owner : Entity) (place : Nat → Definition) (types : List TypeId)
    (located : ∀ index, (place index).owner = owner ∧ (place index).position = index)
    (values : ctx'.values = (ctx.defineValues place types).values)
    (signatures : ∀ other signature, ctx'.signature? other = some signature ↔
      ctx.signature? other = some signature ∨
        other = owner ∧ signature = ⟨ctx.freshValues types.length, types⟩)

namespace Grows

/-- Changes of operations that keep results define nothing, if the blocks stay. -/
theorem of_map {change : OpId → Operation → Operation} (values : ctx'.values = ctx.values)
    (ops : ∀ op, ctx'.op op = (ctx.op op).map (change op))
    (kept : ∀ op data, (change op data).signature = data.signature)
    {changeBlock : BlockId → Block → Block}
    (blocks : ∀ block, ctx'.block block = (ctx.block block).map (changeBlock block))
    (keptBlock : ∀ block data, (changeBlock block data).signature = data.signature) :
    Grows ctx ctx' := by
  -- No owner has another signature than before, so no place defines anything new.
  refine .stays values fun owner => ?_
  cases owner with
  | op op => exact signature?_op_of_map ops kept op
  | region region => rfl
  | block block => exact signature?_block_of_map blocks keptBlock block

/-- A new operation defines its results. -/
theorem addOp {spec : OpSpec} {op : OpId} (added : ctx.addOp spec = .ok (op, ctx')) :
    Grows ctx ctx' := by
  -- The operation is put behind all others and its results behind all values.
  obtain ⟨rfl, -, -, -, -, tables⟩ := addOp_eq_ok added
  have ops : ctx'.ops = ctx.ops.push (ctx.newOp spec) := by rw [tables]
  have blocks : ctx'.blocks = ctx.blocks := by rw [tables]
  -- Of all signatures only that of the new operation is new.
  refine .defines (.op ⟨ctx.ops.size⟩) (.result ⟨ctx.ops.size⟩) spec.resultTypes
    (fun _ => ⟨rfl, rfl⟩) (by rw [tables]) fun other signature => ?_
  cases other with
  | op op =>
    simp only [signature?_op_eq_some, op_eq_ok_of_push ops, or_and_right, exists_or,
      Entity.op.injEq, and_assoc, exists_and_left, exists_eq_left, eq_comm (a := signature)]
    rfl
  | region region => simp [signature?]
  | block block => simp [signature?, block_congr blocks]

/-- A new block defines its arguments, whatever it does to the operations that it lists. -/
theorem addBlock {spec : BlockSpec} {block : BlockId}
    (added : ctx.addBlock spec = .ok (block, ctx')) : Grows ctx ctx' := by
  obtain ⟨rfl, -, -, after, tables⟩ := addBlock_eq_ok added
  have blocks : ctx'.blocks = ctx.blocks.push (ctx.newBlock spec) := by rw [tables]
  refine .defines (.block ⟨ctx.blocks.size⟩) (.argument ⟨ctx.blocks.size⟩) spec.argumentTypes
    (fun _ => ⟨rfl, rfl⟩) (by rw [tables]) fun other signature => ?_
  cases other with
  | op op =>
    -- The operations that the block lists are told so, which is not about their results.
    rw [signature?_op_of_map after fun op data => by split <;> rfl]
    simp
  | region region => simp [signature?]
  | block block =>
    simp only [signature?_block_eq_some, block_eq_ok_of_push blocks, or_and_right, exists_or,
      Entity.block.injEq, and_assoc, exists_and_left, exists_eq_left, eq_comm (a := signature)]
    rfl

/-- A direct edit has no way to change results or their types. -/
theorem editOp {op : OpId} {edit : OpEdit} (done : ctx.editOp op edit = .ok ctx') :
    Grows ctx ctx' := by
  obtain ⟨data, -, rfl⟩ := editOp_eq_ok.mp done
  refine of_map rfl (fun other => op_modifyOp_eq_map op other edit.apply) (fun other data => ?_)
    (fun block => (map_self _).symm) fun _ _ => rfl
  split
  · cases edit <;> rfl
  · rfl

/-- A request that is no direct edit defines the values of what it makes, and no others. -/
theorem of_change {request : Request} (plain : request.isEdit = false)
    (change : Change ctx request ctx') : Grows ctx ctx' := by
  -- Only what makes an operation or a block makes values.
  cases change with
  | madeOp spec op asked added => exact addOp added
  | madeBlock spec block asked added => exact addBlock added
  | madeRegion data region asked added =>
    obtain ⟨-, -, -, after, tables⟩ := addRegion_eq_ok added
    have ops : ctx'.ops = ctx.ops := by rw [tables]
    exact of_map (by rw [tables]) (fun op => by rw [op_congr ops, map_self]) (fun _ _ => rfl) after
      fun block data => by split <;> rfl
  | attached block op data target front back asked found free known split placed =>
    subst placed
    exact of_map rfl (fun other => op_place block op other _) (fun other data => by split <;> rfl)
      (fun other => block_place block other op _) fun other data => by split <;> rfl
  | detached block op data target asked found known displaced =>
    subst displaced
    exact of_map rfl (fun other => op_displace block op other) (fun _ _ => rfl)
      (fun other => block_displace block other op) fun other data => by split <;> rfl
  | rewritten change asked ops kept results values blocks regions =>
    refine of_map values ops (fun op data => ?_)
      (fun block => (block_congr blocks block).trans (map_self _).symm) fun _ _ => rfl
    obtain ⟨operands, same⟩ := kept plain op data
    rw [same]
    rfl

/-- Whatever is asked for but other data in place of an operation, values are only added. -/
theorem of_perform {request : Request} (keeps : request.keepsUses)
    (done : ctx.perform request = .ok ctx') : Grows ctx ctx' := by
  cases edits : request.isEdit with
  | false => exact of_change edits (change_of_perform done)
  | true =>
    -- Of the two direct edits, the one that may exchange results is ruled out.
    cases request <;> simp only [Request.isEdit, Request.keepsUses, reduceCtorEq] at edits keeps
    exact editOp done

/-- A value that is known keeps its data. -/
theorem value_known (grows : Grows ctx ctx') {value : ValueId} {data : Value}
    (known : ctx.value value = .ok data) : ctx'.value value = .ok data := by
  cases grows with
  | stays values signatures => rw [value_congr values, known]
  | defines owner place types located values signatures =>
    exact (value_eq_ok_of_define values).mpr (.inl known)

end Grows

/-- Values are known exactly where an operation or block defines them, with the type given there. -/
structure ValuesDefined (ctx : Context) : Prop where
  /-- A value and the place that defines it name each other. -/
  exact : ∀ value data, ctx.value value = .ok data ↔
    ∃ signature, ctx.signature? data.definition.owner = some signature ∧
      signature.values[data.definition.position]? = some value ∧
      signature.types[data.definition.position]? = some data.type
  /-- No type is given without a value. -/
  sized : ∀ owner signature, ctx.signature? owner = some signature →
    signature.values.length = signature.types.length

namespace ValuesDefined

/-- At the start there are neither values nor owners. -/
theorem start : ValuesDefined {} where
  exact value data := by
    cases place : data.definition.owner <;>
      simp [Context.value, signature?, Context.op, Context.block, Except.toOption]
  sized owner signature known := by
    cases owner <;> cases known

/-- New values are defined where they are put, and old ones where they were. -/
theorem grow (defined : ValuesDefined ctx) (grows : Grows ctx ctx') : ValuesDefined ctx' := by
  cases grows with
  | stays values signatures =>
    refine ⟨fun value data => ?_, fun owner signature known => ?_⟩
    · rw [value_congr values, signatures, defined.exact]
    · exact defined.sized owner signature (signatures owner ▸ known)
  | defines owner place types located values signatures =>
    refine ⟨fun value data => ?_, fun other signature known => ?_⟩
    · -- An old value is at an old place, and the new ones fill the new owner's in order.
      simp only [value_eq_ok_of_define values, signatures, defined.exact, or_and_right, exists_or,
        and_assoc, exists_and_left, exists_eq_left, getElem?_freshValues]
      refine or_congr_right ?_
      constructor
      · intro new
        obtain ⟨index, rfl, type, here, rfl⟩ := new
        obtain ⟨sameOwner, samePlace⟩ := located index
        have inside := (List.getElem?_eq_some_iff.mp here).1
        exact ⟨sameOwner, by rwa [samePlace], by rw [samePlace], by rw [samePlace, here]⟩
      · intro new
        obtain ⟨sameOwner, inside, rfl, here⟩ := new
        obtain ⟨itsOwner, itsPlace⟩ := located data.definition.position
        have same : data.definition = place data.definition.position :=
          Definition.eq_iff.mpr ⟨sameOwner.trans itsOwner.symm, itsPlace.symm⟩
        exact ⟨data.definition.position, rfl, data.type, here, by rw [← same]⟩
    · rcases (signatures other signature).mp known with old | ⟨-, rfl⟩
      · exact defined.sized other signature old
      · simp [freshValues]

/-- Values stay defined through any requests that keep them, and no known one changes. -/
theorem performAll (defined : ValuesDefined ctx) {requests : List Request}
    (keep : ∀ request ∈ requests, request.keepsUses)
    (performed : ctx.performAll requests = .ok ctx') :
    ValuesDefined ctx' ∧
      ∀ value data, ctx.value value = .ok data → ctx'.value value = .ok data := by
  -- Values that are known after some requests stay known after the next one.
  refine performAll_induction (motive := fun requests ctx' =>
    (∀ request ∈ requests, request.keepsUses) → ValuesDefined ctx' ∧
      ∀ value data, ctx.value value = .ok data → ctx'.value value = .ok data)
    (fun _ => ⟨defined, fun _ _ => id⟩) ?_ performed keep
  intro requests mid request ctx' earlier done keep
  obtain ⟨definedMid, known⟩ := earlier fun request member => keep request (by simp [member])
  have grows := Grows.of_perform (keep request (by simp)) done
  exact ⟨definedMid.grow grows, fun value data found => grows.value_known (known value data found)⟩

end ValuesDefined

/-- A place at which an operation or a block defines a value, since it gives a type for it. -/
def HasSlot (ctx : Context) : Definition → Prop
  | .result op index => ∃ data, ctx.op op = .ok data ∧ index < data.resultTypes.length
  | .argument block index => ∃ data, ctx.block block = .ok data ∧ index < data.argumentTypes.length

/-- A place exists exactly where the signature of its owner gives a type. -/
theorem hasSlot_iff {slot : Definition} :
    ctx.HasSlot slot ↔ ∃ signature, ctx.signature? slot.owner = some signature ∧
      slot.position < signature.types.length := by
  cases slot <;> simp only [HasSlot, Definition.owner, Definition.position, signature?_op_eq_some,
    signature?_block_eq_some, exists_exists_and_eq_and] <;> rfl

/--
Every value is defined at exactly one place, and every place defines exactly one value.

The lists that operations and blocks keep of their values tell the same.
-/
structure DefinedOnce (ctx : Context) : Prop where
  /-- Values and places are in bijection. -/
  bijective : ∃ slotOf : ValueId → Definition,
    (∀ value data, ctx.value value = .ok data → slotOf value = data.definition) ∧
      Set.BijOn slotOf {value | ∃ data, ctx.value value = .ok data} {slot | ctx.HasSlot slot}
  /-- A value is the result of an operation exactly where it is defined as that. -/
  results : ∀ op index value, (ctx.results op)[index]? = some value ↔
    ∃ type, ctx.value value = .ok ⟨.result op index, type⟩
  /-- A result has the type that the operation gives at its position. -/
  resultTypes : ∀ op index value type, ctx.value value = .ok ⟨.result op index, type⟩ →
    ∃ data, ctx.op op = .ok data ∧ data.resultTypes[index]? = some type
  /-- A value is the argument of a block exactly where it is defined as that. -/
  arguments : ∀ block index value, (ctx.arguments block)[index]? = some value ↔
    ∃ type, ctx.value value = .ok ⟨.argument block index, type⟩
  /-- An argument has the type that the block gives at its position. -/
  argumentTypes : ∀ block index value type,
    ctx.value value = .ok ⟨.argument block index, type⟩ →
      ∃ data, ctx.block block = .ok data ∧ data.argumentTypes[index]? = some type

/-- Where a value is defined, if it is known. -/
def slotOf (ctx : Context) (value : ValueId) : Definition :=
  match ctx.value value with
  | .ok data => data.definition
  | .error _ => .result ⟨0⟩ 0

/-- A known value is defined where its data says. -/
theorem slotOf_eq {value : ValueId} {data : Value} (known : ctx.value value = .ok data) :
    ctx.slotOf value = data.definition := by
  rw [slotOf, known]

/-- What an operation lists as its results is in its signature. -/
theorem getElem?_results {op : OpId} {index : Nat} {value : ValueId} :
    (ctx.results op)[index]? = some value ↔
      ∃ signature, ctx.signature? (.op op) = some signature ∧
        signature.values[index]? = some value := by
  simp only [signature?_op_eq_some, exists_exists_and_eq_and, op_eq_ok_iff, results]
  cases ctx.ops[op.index]? <;> simp [Operation.signature]

/-- What a block lists as its arguments is in its signature. -/
theorem getElem?_arguments {block : BlockId} {index : Nat} {value : ValueId} :
    (ctx.arguments block)[index]? = some value ↔
      ∃ signature, ctx.signature? (.block block) = some signature ∧
        signature.values[index]? = some value := by
  simp only [signature?_block_eq_some, exists_exists_and_eq_and, block_eq_ok_iff, arguments]
  cases ctx.blocks[block.index]? <;> simp [Block.signature]

namespace ValuesDefined

/-- An owner lists a value at a position exactly where the value is defined there. -/
theorem listed_iff (defined : ValuesDefined ctx) (slot : Definition) {value : ValueId} :
    (∃ signature, ctx.signature? slot.owner = some signature ∧
      signature.values[slot.position]? = some value) ↔
        ∃ type, ctx.value value = .ok ⟨slot, type⟩ := by
  constructor
  · intro listed
    obtain ⟨signature, known, here⟩ := listed
    -- There are as many types as values, so that one is given for this value too.
    have inside := (List.getElem?_eq_some_iff.mp here).1
    rw [defined.sized _ _ known] at inside
    exact ⟨signature.types[slot.position],
      (defined.exact _ _).mpr ⟨signature, known, here, List.getElem?_eq_getElem inside⟩⟩
  · intro found
    obtain ⟨type, found⟩ := found
    obtain ⟨signature, known, here, -⟩ := (defined.exact _ _).mp found
    exact ⟨signature, known, here⟩

/-- Values and the places that define them are in bijection. -/
theorem bijOn_slotOf (defined : ValuesDefined ctx) :
    Set.BijOn ctx.slotOf {value | ∃ data, ctx.value value = .ok data}
      {slot | ctx.HasSlot slot} := by
  refine ⟨fun value member => ?_, fun value member other memberOther same => ?_, fun slot has => ?_⟩
  · -- A known value is defined at a place for which a type is given.
    obtain ⟨data, found⟩ := member
    obtain ⟨signature, known, -, typed⟩ := (defined.exact value data).mp found
    show ctx.HasSlot (ctx.slotOf value)
    rw [slotOf_eq found]
    exact hasSlot_iff.mpr ⟨signature, known, (List.getElem?_eq_some_iff.mp typed).1⟩
  · obtain ⟨data, found⟩ := member
    obtain ⟨dataOther, foundOther⟩ := memberOther
    rw [slotOf_eq found, slotOf_eq foundOther] at same
    obtain ⟨signature, known, here, -⟩ := (defined.exact value data).mp found
    obtain ⟨signatureOther, knownOther, hereOther, -⟩ :=
      (defined.exact other dataOther).mp foundOther
    -- One owner has one signature, and that has one value at the position.
    rw [← same, known, Option.some.injEq] at knownOther
    subst knownOther
    rw [← same, here, Option.some.injEq] at hereOther
    exact hereOther
  · -- Where a type is given, a value is listed, and it is defined there.
    obtain ⟨signature, known, inside⟩ := hasSlot_iff.mp has
    rw [← defined.sized _ _ known] at inside
    obtain ⟨type, found⟩ :=
      (defined.listed_iff slot).mp ⟨signature, known, List.getElem?_eq_getElem inside⟩
    exact ⟨signature.values[slot.position], ⟨_, found⟩, slotOf_eq found⟩

/-- Where values are known exactly as places define them, each is defined once. -/
theorem definedOnce (defined : ValuesDefined ctx) : DefinedOnce ctx where
  -- The slot of a value is where it is defined, and no two values share one.
  bijective := ⟨ctx.slotOf, fun _ _ => slotOf_eq, defined.bijOn_slotOf⟩
  results op index value := getElem?_results.trans (defined.listed_iff (.result op index))
  resultTypes op index value type found := by
    -- A result is typed by the signature of its operation.
    obtain ⟨signature, known, -, typed⟩ := (defined.exact _ _).mp found
    obtain ⟨data, foundOp, rfl⟩ := signature?_op_eq_some.mp known
    exact ⟨data, foundOp, typed⟩
  arguments block index value :=
    getElem?_arguments.trans (defined.listed_iff (.argument block index))
  argumentTypes block index value type found := by
    obtain ⟨signature, known, -, typed⟩ := (defined.exact _ _).mp found
    obtain ⟨data, foundBlock, rfl⟩ := signature?_block_eq_some.mp known
    exact ⟨data, foundBlock, typed⟩

end ValuesDefined

end Context

end NestedIR
