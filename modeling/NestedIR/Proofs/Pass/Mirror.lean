import NestedIR.Proofs.Pass.Appearance

/-! Visits do the same below an operation of two programs that differ there by names alone. -/

namespace NestedIR

open Relation

/-- New names for operations and values, of which none is given twice. -/
structure Renaming where
  /-- The new name of an operation. -/
  op : OpId → OpId
  /-- The new name of a value. -/
  value : ValueId → ValueId
  /-- No two operations get one name. -/
  op_injective : Function.Injective op
  /-- No two values get one name. -/
  value_injective : Function.Injective value

namespace Renaming

variable (names : Renaming)

/-- An operand slot under the new name of its operation. -/
def use (slot : Use) : Use := ⟨names.op slot.user, slot.index⟩

/-- An entity under its new name. Regions and blocks keep their names. -/
def entity : Entity → Entity
  | .op op => .op (names.op op)
  | .region region => .region region
  | .block block => .block block

/-- A value whose definition is under its new name. -/
def data (value : Value) : Value where
  definition :=
    match value.definition with
    | .result op index => .result (names.op op) index
    | .argument block index => .argument block index
  type := value.type

/-- An operation that reads and defines values under their new names. -/
def operation (data : Operation) : Operation :=
  { data with operands := data.operands.map names.value, results := data.results.map names.value }

/-- A sum whose result is under its new name. -/
def sum (sum : Sum) : Sum := { sum with result := names.value sum.result }

/-- A value is defined under the new name of what defines it. -/
theorem definition_eq_result_iff {known : Value} {op : OpId} {index : Nat} :
    (names.data known).definition = .result (names.op op) index ↔
      known.definition = .result op index := by
  obtain ⟨definition, type⟩ := known
  cases definition with
  | result definer place => simp [data, names.op_injective.eq_iff]
  | argument block place => simp [data]

/-- What an operation adds is under new names. -/
theorem addends?_operation (data : Operation) : (names.operation data).addends? =
    data.addends?.map (Prod.map names.value names.value) := by
  rw [Operation.addends?, Operation.addends?, operation]
  rcases data.operands with _ | ⟨lhs, _ | ⟨rhs, _ | _⟩⟩ <;> rfl

/-- The only result of an operation is under its new name. -/
theorem soleResult?_operation (data : Operation) :
    (names.operation data).soleResult? = data.soleResult?.map names.value := by
  rw [Operation.soleResult?, Operation.soleResult?, operation]
  rcases data.results with _ | ⟨result, _ | _⟩ <;> rfl

/-- An operation appears like itself under new names. -/
theorem alike_operation (data : Operation) : data.Alike (names.operation data) :=
  ⟨rfl, rfl, rfl, rfl, rfl, List.length_map _, List.length_map _⟩

end Renaming

/--
A program that mirrors what is inside a part of another one under new names.

Outside that part, operations keep what decides whether they are constants.
-/
structure Mirrors (names : Renaming) (inside : Entity → Prop) (ctx ctx' : Context) : Prop where
  /-- The types are the same. -/
  types_eq : ctx'.types = ctx.types
  /-- The regions are the same. -/
  regions_eq : ctx'.regions = ctx.regions
  /-- The operations that are made next get the names of those that are made next. -/
  fresh_op : ∀ more, names.op ⟨ctx.ops.size + more⟩ = ⟨ctx'.ops.size + more⟩
  /-- The values that are defined next get the names of those that are defined next. -/
  fresh_value : ∀ more, names.value ⟨ctx.values.size + more⟩ = ⟨ctx'.values.size + more⟩
  /-- What is made next is inside the part. -/
  inside_new : ∀ op : OpId, ctx.ops.size ≤ op.index → inside (.op op)
  /-- Values are defined under their new names. -/
  value_known : ∀ {value data}, ctx.value value = .ok data →
    ctx'.value (names.value value) = .ok (names.data data)
  /-- Operations keep their names, attributes and regions, and inside the part all but new names. -/
  op_known : ∀ {op data}, ctx.op op = .ok data → ∃ data', ctx'.op (names.op op) = .ok data' ∧
    data'.name = data.name ∧ data'.attributes = data.attributes ∧ data'.regions = data.regions ∧
      (inside (.op op) → data' = names.operation data)
  /-- Blocks inside the part list operations under their new names. -/
  block_known : ∀ {block data}, inside (.block block) → ctx.block block = .ok data →
    ctx'.block block = .ok { data with ops := data.ops.map names.op }
  /-- Results inside the part are used in slots under their new names, and in no others. -/
  mem_usesOf_iff : ∀ {op data value}, inside (.op op) → ctx.op op = .ok data →
    value ∈ data.results → ∀ slot, slot ∈ ctx'.usesOf (names.value value) ↔
      ∃ use ∈ ctx.usesOf value, names.use use = slot

/-- A sound program in which everything that is read is known. -/
structure Tidy (ctx : Context) : Prop where
  /-- The program is sound. -/
  sound : ∃ discarded, Sound discarded ctx
  /-- Everything that is read is known. -/
  reads : ctx.ReadsKnown fun _ => False

namespace Tidy

variable {ctx ctx' : Context} {op : OpId} {data : Operation} {touched : OpId → Prop}

/-- Rewrites keep a program tidy. -/
theorem rewrites (tidy : Tidy ctx) (rewrites : Rewrites touched ctx ctx') : Tidy ctx' :=
  have ⟨_, sound⟩ := tidy.sound
  ⟨(Leaves.of_rewrites sound rewrites).1, rewrites.evolves.reads tidy.reads⟩

/-- Rewrites leave the appearance of a tidy program alone but for the lists that they rewrite. -/
theorem leaves (tidy : Tidy ctx) (rewrites : Rewrites touched ctx ctx') :
    Leaves touched ctx ctx' :=
  have ⟨_, sound⟩ := tidy.sound
  (Leaves.of_rewrites sound rewrites).2

/-- What an operation reads is known. -/
theorem known (tidy : Tidy ctx) (found : ctx.op op = .ok data) {value : ValueId}
    (read : value ∈ data.operands) : ∃ known, ctx.value value = .ok known :=
  (tidy.reads op data value found read).resolve_right id

/-- What is used is known. -/
theorem known_of_used (tidy : Tidy ctx) {value : ValueId} {use : Use}
    (listed : use ∈ ctx.usesOf value) : ∃ known, ctx.value value = .ok known := by
  -- A use is recorded for an operand, and operands are known.
  obtain ⟨gone, sound⟩ := tidy.sound
  obtain ⟨data, found, held⟩ :=
    Context.operand?_eq_some_iff.mp ((sound.uses.mem_iff value use).mp listed).1
  exact tidy.known found (List.mem_of_getElem? held)

/-- What an operation defines is a value that records it. -/
theorem defined (tidy : Tidy ctx) (found : ctx.op op = .ok data) {value : ValueId}
    (isResult : value ∈ data.results) :
    ∃ known index, ctx.value value = .ok known ∧ known.definition = .result op index := by
  -- A result is listed at some index, which its value records.
  obtain ⟨gone, sound⟩ := tidy.sound
  obtain ⟨index, here⟩ := List.mem_iff_getElem?.mp isResult
  obtain ⟨known, foundValue, defines⟩ := (sound.results value op index).mpr ⟨data, found, here⟩
  exact ⟨known, index, foundValue, defines⟩

/-- What defines a value is known, and has it among its results. -/
theorem definer (tidy : Tidy ctx) {value : ValueId} {known : Value} {index : Nat}
    (foundValue : ctx.value value = .ok known) (defines : known.definition = .result op index) :
    ∃ data, ctx.op op = .ok data ∧ value ∈ data.results := by
  obtain ⟨gone, sound⟩ := tidy.sound
  obtain ⟨data, found, here⟩ := (sound.results value op index).mp ⟨known, foundValue, defines⟩
  exact ⟨data, found, List.mem_of_getElem? here⟩

end Tidy

/-- Under names that are never given twice, the heir takes the same place. -/
theorem succession_map {rename : OpId → OpId} (injective : Function.Injective rename) (op : OpId)
    (heir : Option OpId) (ops : List OpId) : succession (rename op) (heir.map rename)
      (ops.map rename) = (succession op heir ops).map rename := by
  rw [succession, succession, List.filterMap_map, List.map_filterMap]
  refine List.filterMap_congr fun other _ => ?_
  by_cases same : other = op <;> simp [same, injective.eq_iff]

namespace Replaces

variable {op : OpId} {heir : Option OpId} {moved : ValueId → ValueId} {ctx ctx' : Context}

/-- There is one operation more for an heir. -/
theorem ops_size (replaces : Replaces op heir moved ctx ctx') :
    ctx'.ops.size = ctx.ops.size + heir.toList.length := by
  -- A number is in use afterwards if it was before, or if it is that of the heir.
  refine eq_of_forall_lt_iff fun index => ?_
  have known : index < ctx'.ops.size ↔ index < ctx.ops.size ∨ heir = some ⟨index⟩ := by
    constructor
    · intro inside
      obtain ⟨data, found⟩ := @Context.exists_op_of_lt ctx' ⟨index⟩ inside
      rcases replaces.op_new found with ⟨old, foundOld⟩ | ⟨isHeir, -⟩
      · exact .inl (Context.index_lt_of_op foundOld)
      · exact .inr isHeir
    · rintro (inside | isHeir)
      · obtain ⟨data, found⟩ := @Context.exists_op_of_lt ctx ⟨index⟩ inside
        exact Context.index_lt_of_op (replaces.op_known found)
      · obtain ⟨-, ⟨data, block, found, -⟩, -⟩ := replaces.heir_eq isHeir
        exact Context.index_lt_of_op found
  rw [known]
  cases isHeir : heir with
  | none => simp
  | some new =>
    obtain ⟨rfl, -⟩ := replaces.heir_eq isHeir
    simp only [Option.some.injEq, OpId.mk.injEq, Option.toList_some, List.length_singleton]
    omega

/-- There is one value more for an heir. -/
theorem values_size (replaces : Replaces op heir moved ctx ctx') :
    ctx'.values.size = ctx.values.size + heir.toList.length := by
  -- The new size is told by the values that are known.
  refine eq_of_forall_lt_iff fun index => ?_
  have known : index < ctx'.values.size ↔
      index < ctx.values.size ∨ index = ctx.values.size ∧ ∃ new, heir = some new := by
    constructor
    -- A known value was known before or is the result of the heir.
    · intro inside
      obtain ⟨data, found⟩ := @Context.exists_value_of_lt ctx' ⟨index⟩ inside
      rcases replaces.value_new found with old | ⟨same, isHeir⟩
      · exact .inl (Context.index_lt_of_value old)
      · exact .inr ⟨congrArg ValueId.index same, isHeir⟩
    · rintro (inside | ⟨rfl, new, isHeir⟩)
      · obtain ⟨data, found⟩ := @Context.exists_value_of_lt ctx ⟨index⟩ inside
        exact Context.index_lt_of_value (replaces.value_known found)
      · obtain ⟨-, -, _, _, _, -, -, -, -, found, -⟩ := replaces.heir_eq isHeir
        exact Context.index_lt_of_value found
  rw [known]
  cases isHeir : heir with
  | none => simp
  | some new =>
    simp only [Option.some.injEq, exists_eq', and_true, Option.toList_some, List.length_singleton]
    omega

/-- A result of a known operation keeps its uses but for those by the replaced one, if it stays. -/
theorem mem_usesOf_known (replaces : Replaces op heir moved ctx ctx') {value : ValueId}
    {known : Value} {definer : OpId} {index : Nat} (found : ctx.value value = .ok known)
    (defines : known.definition = .result definer index) (use : Use) :
    use ∈ ctx'.usesOf value ↔ use.user ≠ op ∧ definer ≠ op ∧ use ∈ ctx.usesOf value := by
  rw [replaces.mem_usesOf_iff]
  refine and_congr_right fun _ => ?_
  constructor
  · rintro ⟨old, same, listed⟩
    cases replaces.moved_known found same
    refine ⟨?_, listed⟩
    -- The results of the replaced operation do not keep their uses.
    rintro rfl
    obtain ⟨-, moves, -⟩ := replaces.moved_used listed found defines
    exact Context.value_ne_next found (same.symm.trans moves)
  · rintro ⟨differs, listed⟩
    refine ⟨value, replaces.moved_other found fun other defines' => differs ?_, listed⟩
    cases defines.symm.trans defines'
    rfl

/-- The value of an heir has the uses of what the operation defines, but for those by it. -/
theorem mem_usesOf_heir (replaces : Replaces op heir moved ctx ctx') (tidy : Tidy ctx)
    {data : Operation} (found : ctx.op op = .ok data) (use : Use) :
    use ∈ ctx'.usesOf ⟨ctx.values.size⟩ ↔
      use.user ≠ op ∧ ∃ old ∈ data.results, use ∈ ctx.usesOf old := by
  rw [replaces.mem_usesOf_iff]
  refine and_congr_right fun _ => exists_congr fun old => ?_
  constructor
  · rintro ⟨same, listed⟩
    refine ⟨?_, listed⟩
    obtain ⟨known, foundOld⟩ := tidy.known_of_used listed
    by_cases own : ∃ index, known.definition = .result op index
    · obtain ⟨index, defines⟩ := own
      obtain ⟨again, foundAgain, isResult⟩ := tidy.definer foundOld defines
      cases found.symm.trans foundAgain
      exact isResult
    · -- What the operation does not define stays where it is.
      have stays := replaces.moved_other foundOld (not_exists.mp own)
      exact absurd (stays.symm.trans same) (Context.value_ne_next foundOld)
  · rintro ⟨isResult, listed⟩
    obtain ⟨known, index, foundOld, defines⟩ := tidy.defined found isResult
    exact ⟨(replaces.moved_used listed foundOld defines).2.1, listed⟩

end Replaces

namespace Mirrors

variable {names : Renaming} {inside : Entity → Prop} {ctx ctx' mid mid' : Context}

/-- The operation that is made next gets the name of the one that is made next. -/
theorem next_op (mirrors : Mirrors names inside ctx ctx') :
    names.op ⟨ctx.ops.size⟩ = ⟨ctx'.ops.size⟩ := mirrors.fresh_op 0

/-- The value that is defined next gets the name of the one that is defined next. -/
theorem next_value (mirrors : Mirrors names inside ctx ctx') :
    names.value ⟨ctx.values.size⟩ = ⟨ctx'.values.size⟩ := mirrors.fresh_value 0

/-- An operation inside the part is known under its new name. -/
theorem op_inside (mirrors : Mirrors names inside ctx ctx') {op : OpId} {data : Operation}
    (isInside : inside (.op op)) (found : ctx.op op = .ok data) :
    ctx'.op (names.op op) = .ok (names.operation data) := by
  obtain ⟨data', found', -, -, -, same⟩ := mirrors.op_known found
  rw [found', same isInside]

/-- A known value is the same constant under its new name, or neither is one. -/
theorem constantInt?_eq (mirrors : Mirrors names inside ctx ctx') (tidy : Tidy ctx)
    {value : ValueId} {known : Value} (found : ctx.value value = .ok known) :
    ctx'.constantInt? (names.value value) = ctx.constantInt? value := by
  rw [Context.constantInt?, Context.constantInt?, found, mirrors.value_known found]
  obtain ⟨definition, type⟩ := known
  cases definition with
  | argument block index => rfl
  | result op index =>
    cases index with
    | succ index => rfl
    | zero =>
      -- What decides is the name and the attributes of the operation that defines the value.
      obtain ⟨data, foundOp, -⟩ := tidy.definer found rfl
      obtain ⟨data', foundOp', name, attributes, -⟩ := mirrors.op_known foundOp
      show (ctx'.op (names.op op) >>= _) = (ctx.op op >>= _)
      rw [foundOp, foundOp']
      simp [Operation.isKind, Operation.constantInt?, Operation.constantValue?, name, attributes,
        Bind.bind, Except.bind]

/-- An operation inside the part computes the same sum under new names, or neither computes one. -/
theorem sum?_eq (mirrors : Mirrors names inside ctx ctx') (tidy : Tidy ctx) {op : OpId}
    {data : Operation} (found : ctx.op op = .ok data) :
    ctx'.sum? (names.operation data) = (ctx.sum? data).map (Option.map names.sum) := by
  rw [Context.sum?, Context.sum?, names.addends?_operation, names.soleResult?_operation]
  have kind : (names.operation data).isKind .addi = data.isKind .addi := rfl
  rw [kind]
  cases isSum : data.isKind .addi with
  | false => rfl
  | true =>
    cases addends : data.addends? with
    | none => rfl
    | some sides =>
      obtain ⟨lhs, rhs⟩ := sides
      cases sole : data.soleResult? with
      | none => rfl
      | some result =>
        have operands : data.operands = [lhs, rhs] := by
          rw [Operation.addends?] at addends
          split at addends <;> simp_all
        have results := Operation.soleResult?_eq_some.mp sole
        -- Both addends and the result are known, so the copy reads the same of them.
        obtain ⟨left, foundLeft⟩ := tidy.known found (by simp [operands] : lhs ∈ _)
        obtain ⟨right, foundRight⟩ := tidy.known found (by simp [operands] : rhs ∈ _)
        obtain ⟨value, -, foundValue, -⟩ := tidy.defined found (by simp [results] : result ∈ _)
        have same := mirrors.constantInt?_eq tidy foundLeft
        have sameToo := mirrors.constantInt?_eq tidy foundRight
        simp only [Option.map_some, Prod.map]
        rw [same, sameToo, mirrors.value_known foundValue, foundValue, mirrors.types_eq]
        -- Without two numbers or a width there is no sum on either side.
        rcases ctx.constantInt? lhs with fault | _ | left <;>
          rcases ctx.constantInt? rhs with fault | _ | right <;> try rfl
        cases width : ctx.types.integerWidth? value.type with
        | none => simp [Bind.bind, Except.bind, Except.map, Pure.pure, Except.pure, Renaming.data,
            width]
        | some width => simp [Bind.bind, Except.bind, Except.map, Pure.pure, Except.pure,
            Renaming.data, Renaming.sum, width]

/-- An operation inside the part is dead under new names exactly if it is dead. -/
theorem isDead_eq (mirrors : Mirrors names inside ctx ctx') {op : OpId} {data : Operation}
    (isInside : inside (.op op)) (found : ctx.op op = .ok data) :
    ctx'.isDead (names.operation data) = ctx.isDead data := by
  -- Nothing else is renamed to a use of a result, so that its chain is empty in both programs.
  have unused (value : ValueId) (isResult : value ∈ data.results) :
      ctx'.usesOf (names.value value) = [] ↔ ctx.usesOf value = [] := by
    simp only [List.eq_nil_iff_forall_not_mem,
      mirrors.mem_usesOf_iff isInside found isResult, not_exists, not_and]
    exact ⟨fun none use listed => none _ use listed rfl, fun none _ use listed _ => none use listed⟩
  rw [Bool.eq_iff_iff, Context.isDead_iff_usesOf, Context.isDead_iff_usesOf]
  refine and_congr Iff.rfl ?_
  simp only [Renaming.operation, List.forall_mem_map]
  exact forall₂_congr unused

section Step

variable {op : OpId} {heir : Option OpId} {moved moved' : ValueId → ValueId}

/-- The operands inside the part move under new names as they move. -/
theorem moveOperands_eq (mirrors : Mirrors names inside ctx ctx') (tidy : Tidy ctx)
    {data : Operation} (isInside : inside (.op op)) (found : ctx.op op = .ok data)
    (replaces : Replaces op heir moved ctx mid)
    (replaces' : Replaces (names.op op) (heir.map names.op) moved' ctx' mid') {reader : OpId}
    {read : Operation} (foundReader : ctx.op reader = .ok read) :
    ctx'.moveOperands moved' (names.op reader) (read.operands.map names.value) =
      (ctx.moveOperands moved reader read.operands).map names.value := by
  -- Each operand moves on its own.
  refine List.ext_getElem? fun index => ?_
  rw [Context.getElem?_moveOperands, List.getElem?_map, List.getElem?_map,
    Context.getElem?_moveOperands]
  cases held : read.operands[index]? with
  | none => rfl
  | some value =>
    simp only [Option.map_some, Option.some.injEq]
    obtain ⟨known, foundValue⟩ := tidy.known foundReader (List.mem_of_getElem? held)
    have foundValue' := mirrors.value_known foundValue
    -- Only the results of the operation move, and those of its new name move in the other program.
    by_cases own : ∃ index, known.definition = .result op index
    · obtain ⟨place, defines⟩ := own
      obtain ⟨again, foundAgain, isResult⟩ := tidy.definer foundValue defines
      cases found.symm.trans foundAgain
      have defines' := names.definition_eq_result_iff.mpr defines
      -- The use is in the chain of the result under both names, or in neither.
      have used : ⟨names.op reader, index⟩ ∈ ctx'.usesOf (names.value value) ↔
          ⟨reader, index⟩ ∈ ctx.usesOf value := by
        rw [mirrors.mem_usesOf_iff isInside found isResult]
        constructor
        · rintro ⟨⟨user, slot⟩, listed, same⟩
          obtain ⟨sameOp, rfl⟩ := Use.mk.inj same
          exact names.op_injective sameOp ▸ listed
        · exact fun listed => ⟨_, listed, rfl⟩
      simp only [used]
      split
      · rename_i listed
        rw [(replaces.moved_used listed foundValue defines).2.1,
          (replaces'.moved_used (used.mpr listed) foundValue' defines').2.1, mirrors.next_value]
      · rfl
    -- A value that another operation or a block defines stays where it is.
    · have other := not_exists.mp own
      have other' := fun place => mt names.definition_eq_result_iff.mp (other place)
      rw [replaces.moved_other foundValue other, replaces'.moved_other foundValue' other', ite_self,
        ite_self]

/-- What is inside the part and gives way to an heir does so under new names. -/
theorem replaces (mirrors : Mirrors names inside ctx ctx') (tidy : Tidy ctx) (tidy' : Tidy ctx')
    {data : Operation} (isInside : inside (.op op)) (found : ctx.op op = .ok data)
    (replaces : Replaces op heir moved ctx mid)
    (replaces' : Replaces (names.op op) (heir.map names.op) moved' ctx' mid')
    (heirs : ∀ new, heir = some new → ∃ made value, mid.op new = .ok made ∧
      mid'.op (names.op new) = .ok (names.operation made) ∧
      mid.value ⟨ctx.values.size⟩ = .ok value ∧
      mid'.value ⟨ctx'.values.size⟩ = .ok (names.data value)) :
    Mirrors names inside mid mid' where
  types_eq := by rw [replaces'.types_eq, mirrors.types_eq, replaces.types_eq]
  regions_eq := by rw [replaces'.regions_eq, mirrors.regions_eq, replaces.regions_eq]
  fresh_op more := by
    rw [replaces.ops_size, replaces'.ops_size, Nat.add_assoc, mirrors.fresh_op]
    cases heir <;> simp [Nat.add_assoc]
  fresh_value more := by
    rw [replaces.values_size, replaces'.values_size, Nat.add_assoc, mirrors.fresh_value]
    cases heir <;> simp [Nat.add_assoc]
  inside_new other new := by
    rw [replaces.ops_size] at new
    exact mirrors.inside_new other (by omega)
  value_known {value known} foundValue := by
    rcases replaces.value_new foundValue with old | ⟨rfl, new, isHeir⟩
    · exact replaces'.value_known (mirrors.value_known old)
    · obtain ⟨-, made, -, -, foundMid, foundMid'⟩ := heirs new isHeir
      cases foundValue.symm.trans foundMid
      rw [mirrors.next_value, foundMid']
  op_known {other known} foundMid := by
    rcases replaces.op_new foundMid with ⟨old, foundOld⟩ | ⟨isHeir, -, -⟩
    · cases foundMid.symm.trans (replaces.op_known foundOld)
      obtain ⟨old', foundOld', name, attributes, regions, same⟩ := mirrors.op_known foundOld
      refine ⟨_, replaces'.op_known foundOld', name, attributes, regions, fun isInside' => ?_⟩
      cases same isInside'
      simp only [Renaming.operation, names.op_injective.eq_iff,
        mirrors.moveOperands_eq tidy isInside found replaces replaces' foundOld]
    · obtain ⟨made, -, foundNew, foundNew', -⟩ := heirs other isHeir
      cases foundMid.symm.trans foundNew
      exact ⟨_, foundNew', rfl, rfl, rfl, fun _ => rfl⟩
  block_known {block known} isInside' foundMid := by
    rw [replaces.block_eq, map_eq_ok] at foundMid
    obtain ⟨old, foundOld, rfl⟩ := foundMid
    rw [replaces'.block_eq, mirrors.block_known isInside' foundOld, Except.map,
      succession_map names.op_injective]
  mem_usesOf_iff {definer known value} isInside' foundMid isResult slot := by
    rcases replaces.op_new foundMid with ⟨old, foundOld⟩ | ⟨isHeir, -, -⟩
    · -- A known result keeps its uses on both sides, or loses them on both.
      cases foundMid.symm.trans (replaces.op_known foundOld)
      obtain ⟨kept, index, foundValue, defines⟩ := tidy.defined foundOld isResult
      have uses := mirrors.mem_usesOf_iff isInside' foundOld isResult
      rw [replaces'.mem_usesOf_known (mirrors.value_known foundValue)
        (names.definition_eq_result_iff.mpr defines), uses]
      simp only [replaces.mem_usesOf_known foundValue defines, names.op_injective.ne_iff]
      constructor
      · rintro ⟨differs, stays, use, listed, rfl⟩
        exact ⟨use, ⟨fun same => differs (congrArg names.op same), stays, listed⟩, rfl⟩
      · rintro ⟨use, ⟨differs, stays, listed⟩, rfl⟩
        exact ⟨fun same => differs (names.op_injective same), stays, use, listed, rfl⟩
    · -- The value of the heir has the uses of what it stands for.
      obtain ⟨-, -, made, -, -, foundNew, -, -, results, -⟩ := replaces.heir_eq isHeir
      cases foundMid.symm.trans foundNew
      cases List.mem_singleton.mp (results ▸ isResult)
      rw [mirrors.next_value, replaces'.mem_usesOf_heir tidy' (mirrors.op_inside isInside found)]
      have uses {old : ValueId} (isOld : old ∈ data.results) :=
        mirrors.mem_usesOf_iff isInside found isOld
      simp only [replaces.mem_usesOf_heir tidy found, Renaming.operation, List.mem_map]
      constructor
      · rintro ⟨differs, -, ⟨old, isOld, rfl⟩, listed⟩
        obtain ⟨use, used, rfl⟩ := (uses isOld slot).mp listed
        exact ⟨use, ⟨fun same => differs (congrArg names.op same), old, isOld, used⟩, rfl⟩
      · rintro ⟨use, ⟨differs, old, isOld, listed⟩, rfl⟩
        exact ⟨fun same => differs (names.op_injective same), _, ⟨old, isOld, rfl⟩,
          (uses isOld _).mpr ⟨use, listed, rfl⟩⟩

end Step

end Mirrors

namespace Canonicalization

variable {discarded : OpId → Prop} {ctx ctx' : Context} {op : OpId} {count : Nat}

/-- A turn is a rewrite at most. -/
theorem rewrites_of_turn (done : turn op ctx = .ok (count, ctx')) :
    Rewrites (· = op) ctx ctx' := by
  rcases same_or_rewrite_of_turn done with rfl | rewrite
  · exact .refl
  · exact .single ⟨op, rfl, rewrite⟩

/-- A visit is a run of rewrites of what is within its root. -/
theorem rewrites_of_visit (tidy : Tidy ctx) {root : OpId}
    (fits : ctx.Fits ctx.depthBound (.op root))
    (done : visit builtinPatterns root ctx = .ok (count, ctx')) :
    Rewrites (ctx.Within root) ctx ctx' := by
  -- A visit does nothing but rewrite below its root, and it never misses what it asks for.
  obtain ⟨gone, sound⟩ := tidy.sound
  have room : ctx.depthBound ≤ ctx.depthBound * (builtinPatterns.length + 1) :=
    Nat.le_mul_of_pos_right _ (by simp)
  have meets : Meets (fun _ => False) (ctx.Within root) ctx (visit builtinPatterns root ctx) :=
    Meets.visitBelow sound.consistent (fun op _ => tidy.reads op) (.inr (fits.mono room))
  rw [done] at meets
  exact meets

/-- The constant that an addition is folded into takes its place. -/
theorem heir_of_fold {block : BlockId} {data : Operation} {sum : Sum}
    (found : ctx.op op = .ok data) (computed : ctx.sum? data = .ok (some sum))
    (performed : ctx.performAll (ctx.foldRequests block op sum) = .ok ctx') :
    ctx'.op ⟨ctx.ops.size⟩ =
        .ok { ctx.newOp (Context.foldedSpec sum) with parentBlock := some block } ∧
      ctx'.value ⟨ctx.values.size⟩ = .ok ⟨.result ⟨ctx.ops.size⟩ 0, sum.type⟩ := by
  -- The constant is made in front of the addition, which is then erased.
  obtain ⟨target, front, back, known, first, split, last⟩ :=
    Context.foldRequests_eq_ok.mp performed
  obtain ⟨-, _, _, _, _, value, _, -, -, -, -, result, -⟩ := Context.sum?_eq_some computed
  obtain ⟨after, -, foundAfter, -, -, -, rfl⟩ := Context.eraseRequests_eq_ok.mp last
  have older := (Context.op_ne_next found).symm
  -- Only the erased operation is touched after the constant was made.
  constructor
  · rw [Context.op_withErased, Context.op_withFolded_new (Context.value_ne_next result)]
    simp [Except.map, older]
  · exact (Context.value_eq_ok_of_define (ctx.withFolded_frame sum block _).1).mpr
      (.inr ⟨0, sum.type, rfl, rfl, rfl⟩)

end Canonicalization

namespace Mirrors

variable {names : Renaming} {inside : Entity → Prop} {ctx ctx' mid mid' : Context}

open Canonicalization

/-- Turns inside the part count the same, and what they leave mirrors what they leave. -/
theorem turn (mirrors : Mirrors names inside ctx ctx') (tidy : Tidy ctx) (tidy' : Tidy ctx')
    {op : OpId} {data : Operation} (isInside : inside (.op op)) (found : ctx.op op = .ok data)
    {count count' : Nat} (done : Canonicalization.turn op ctx = .ok (count, mid))
    (done' : Canonicalization.turn (names.op op) ctx' = .ok (count', mid')) :
    count' = count ∧ Mirrors names inside mid mid' := by
  have found' := mirrors.op_inside isInside found
  have sums := mirrors.sum?_eq tidy found
  have deaths := mirrors.isDead_eq isInside found
  obtain ⟨gone, sound⟩ := tidy.sound
  obtain ⟨gone', sound'⟩ := tidy'.sound
  have turned' := turnsInto_of_turn found' done'
  -- Each kind of turn excludes the three others on the other side.
  cases turnsInto_of_turn found done with
  | free free =>
    cases turned' with
    | free => exact ⟨rfl, mirrors⟩
    | fold block sum owner => cases free.symm.trans owner
    | erase block owner => cases free.symm.trans owner
    | stay block owner => cases free.symm.trans owner
  | fold block sum owner computed performed =>
    rw [computed] at sums
    cases turned' with
    | free free => cases free.symm.trans owner
    | fold block' sum' owner' computed' performed' =>
      cases owner.symm.trans owner'
      cases computed'.symm.trans sums
      have folds := Replaces.of_fold sound found computed performed
      have folds' := Replaces.of_fold sound' found' computed' performed'
      rw [← mirrors.next_op] at folds'
      obtain ⟨foundNew, foundValue⟩ := heir_of_fold found computed performed
      obtain ⟨foundNew', foundValue'⟩ := heir_of_fold found' computed' performed'
      refine ⟨rfl, mirrors.replaces tidy tidy' isInside found folds folds' ?_⟩
      rintro new isHeir
      cases isHeir
      refine ⟨_, _, foundNew, ?_, foundValue, ?_⟩
      · -- The result of the constant is the next value on either side.
        rw [mirrors.next_op, foundNew']
        simp [Renaming.operation, Context.newOp, Context.foldedSpec, Context.freshValues,
          mirrors.next_value, Renaming.sum]
      · rw [foundValue', ← mirrors.next_op]
        rfl
    | erase block' owner' sumless => cases sumless.symm.trans sums
    | stay block' owner' sumless => cases sumless.symm.trans sums
  | erase block owner sumless dead performed =>
    rw [sumless] at sums
    cases turned' with
    | free free => cases free.symm.trans owner
    | fold block' sum' owner' computed' => cases computed'.symm.trans sums
    | erase block' owner' sumless' dead' performed' =>
      exact ⟨rfl, mirrors.replaces tidy tidy' isInside found (.of_erase sound found dead performed)
        (.of_erase sound' found' dead' performed') (by simp)⟩
    | stay block' owner' sumless' alive => cases (dead.symm.trans deaths.symm).trans alive
  | stay block owner sumless alive =>
    rw [sumless] at sums
    cases turned' with
    | free free => cases free.symm.trans owner
    | fold block' sum' owner' computed' => cases computed'.symm.trans sums
    | erase block' owner' sumless' dead => cases (alive.symm.trans deaths.symm).trans dead
    | stay => exact ⟨rfl, mirrors⟩

/-- Turns inside the part count the same one after the other. -/
theorem turns (mirrors : Mirrors names inside ctx ctx') (tidy : Tidy ctx) (tidy' : Tidy ctx')
    {ops : List OpId} (each : ∀ op ∈ ops, inside (.op op) ∧ ∃ data, ctx.op op = .ok data)
    {count count' : Nat} (done : Sweep.each Canonicalization.turn ops ctx = .ok (count, mid))
    (done' : Sweep.each Canonicalization.turn (ops.map names.op) ctx' = .ok (count', mid')) :
    count' = count ∧ Mirrors names inside mid mid' ∧ Tidy mid ∧ Tidy mid' := by
  induction ops generalizing ctx ctx' count count' with
  | nil =>
    cases done
    cases done'
    exact ⟨rfl, mirrors, tidy, tidy'⟩
  | cons op rest ih =>
    -- The first turn counts the same on both sides, and so do the other turns after it.
    obtain ⟨⟨first, between⟩, ran, done⟩ := bind_eq_ok.mp done
    obtain ⟨⟨more, last⟩, ranRest, made⟩ := bind_eq_ok.mp done
    obtain ⟨⟨first', between'⟩, ran', done'⟩ := bind_eq_ok.mp done'
    obtain ⟨⟨more', last'⟩, ranRest', made'⟩ := bind_eq_ok.mp done'
    cases made
    cases made'
    obtain ⟨isInside, data, found⟩ := each op (by simp)
    obtain ⟨rfl, mirrorsToo⟩ := mirrors.turn tidy tidy' isInside found ran ran'
    have rewrites := rewrites_of_turn ran
    -- An operation that waits for its turn is still known after the first one.
    have known (other : OpId) (isRest : other ∈ rest) :
        inside (.op other) ∧ ∃ data, between.op other = .ok data := by
      obtain ⟨isInside, old, foundOld⟩ := each other (by simp [isRest])
      obtain ⟨operands, owner, foundNew, -⟩ := rewrites.evolves.op_known foundOld
      exact ⟨isInside, _, foundNew⟩
    obtain ⟨rfl, rest⟩ := ih mirrorsToo (tidy.rewrites rewrites)
      (tidy'.rewrites (rewrites_of_turn ran')) known ranRest ranRest'
    exact ⟨rfl, rest⟩

/-- What is listed inside the part is listed under new names. -/
theorem members (mirrors : Mirrors names inside ctx ctx') {entity : Entity} {listed : List Entity}
    (home : ∀ block, entity = .block block → inside entity)
    (known : ctx.members entity = .ok listed) :
    ctx'.members (names.entity entity) = .ok (listed.map names.entity) := by
  cases entity with
  | op op =>
    -- An operation owns the same regions under its new name.
    obtain ⟨data, found, made⟩ := bind_eq_ok.mp known
    obtain ⟨data', found', -, -, regions, -⟩ := mirrors.op_known found
    cases made
    refine bind_eq_ok.mpr ⟨data', found', congrArg Except.ok ?_⟩
    simp [regions, Renaming.entity, Function.comp_def]
  | region region =>
    -- Regions are not renamed, and list the same blocks.
    obtain ⟨data, found, made⟩ := bind_eq_ok.mp known
    cases made
    refine bind_eq_ok.mpr ⟨data, (Context.region_congr mirrors.regions_eq _).trans found,
      congrArg Except.ok ?_⟩
    simp [Renaming.entity, Function.comp_def]
  | block block =>
    -- A block lists its operations under their new names, if it is inside the part.
    obtain ⟨data, found, made⟩ := bind_eq_ok.mp known
    cases made
    refine bind_eq_ok.mpr ⟨_, mirrors.block_known (home block rfl) found, congrArg Except.ok ?_⟩
    simp [Renaming.entity, Function.comp_def]

/-- The turns for an entity around or inside the part come under new names. -/
theorem turnsWithin (mirrors : Mirrors names inside ctx ctx') {depth : Nat} {entity : Entity}
    (fits : ctx.Fits depth entity)
    (homes : ∀ block, ReflTransGen ctx.Contains entity (.block block) → inside (.block block)) :
    ctx'.turnsWithin depth (names.entity entity) =
      (ctx.turnsWithin depth entity).map names.op := by
  induction depth generalizing entity with
  | zero => cases fits
  | succ depth ih =>
    -- What is listed is listed under new names, and each of it gives its turns and then its own.
    obtain ⟨listed, known, below⟩ := fits
    have known' := mirrors.members (fun block same => same ▸ homes block (same ▸ .refl)) known
    rw [Context.turnsWithin, Context.turnsWithin, Context.listed_eq known,
      Context.listed_eq known', List.flatMap_map, List.map_flatMap]
    refine List.flatMap_congr fun member isListed => ?_
    rw [ih (below member isListed) fun block down =>
      homes block (down.head ⟨listed, known, isListed⟩), List.map_append]
    cases member <;> rfl

variable {root : OpId}

/-- Visits of an operation around the part count the same. -/
theorem visit (mirrors : Mirrors names inside ctx ctx') (tidy : Tidy ctx) (tidy' : Tidy ctx')
    (kept : names.op root = root) (fits : ctx.Fits ctx.depthBound (.op root))
    (fits' : ctx'.Fits ctx'.depthBound (.op root))
    (below : ∀ inner, TransGen ctx.Contains (.op root) inner → inside inner)
    {count count' : Nat}
    (done : Canonicalization.visit builtinPatterns root ctx = .ok (count, mid))
    (done' : Canonicalization.visit builtinPatterns root ctx' = .ok (count', mid')) :
    count' = count ∧ Mirrors names inside mid mid' ∧ Tidy mid ∧ Tidy mid' := by
  obtain ⟨gone, sound⟩ := tidy.sound
  obtain ⟨gone', sound'⟩ := tidy'.sound
  rw [visit_eq_turns sound fits] at done
  rw [visit_eq_turns sound' fits'] at done'
  -- Both visits have the same turns with as much depth as either needs.
  have turns := mirrors.turnsWithin (fits.mono (le_max_left _ ctx'.depthBound)) fun block down =>
    below _ ((reflTransGen_iff_eq_or_transGen.mp down).resolve_left (by simp))
  rw [Context.turnsWithin_of_fits fits (le_max_left _ _), Renaming.entity, kept,
    Context.turnsWithin_of_fits fits' (le_max_right _ _)] at turns
  rw [turns] at done'
  refine mirrors.turns tidy tidy' (fun op has => ?_) done done'
  have inner := (Context.mem_turnsWithin_iff fits).mp has
  obtain ⟨data, -, found, -⟩ := sound.attached_below inner
  exact ⟨below _ inner, data, found⟩

/-- Visits of an operation around the part come to the same, however many there are. -/
theorem iterate (mirrors : Mirrors names inside ctx ctx') (tidy : Tidy ctx) (tidy' : Tidy ctx')
    (kept : names.op root = root) (fits : ctx.Fits ctx.depthBound (.op root))
    (fits' : ctx'.Fits ctx'.depthBound (.op root))
    (below : ∀ inner, TransGen ctx.Contains (.op root) inner → inside inner) {remaining : Nat}
    {result result' : Result}
    (done : Canonicalization.iterate builtinPatterns root remaining ctx = .ok (result, mid))
    (done' : Canonicalization.iterate builtinPatterns root remaining ctx' = .ok (result', mid')) :
    result' = result ∧ Mirrors names inside mid mid' := by
  induction remaining generalizing ctx ctx' result result' with
  | zero =>
    cases done
    cases done'
    exact ⟨rfl, mirrors⟩
  | succ remaining ih =>
    obtain ⟨⟨count, between⟩, visited, done⟩ := bind_eq_ok.mp done
    obtain ⟨⟨count', between'⟩, visited', done'⟩ := bind_eq_ok.mp done'
    obtain ⟨rfl, mirrorsToo, tidyToo, tidyToo'⟩ :=
      mirrors.visit tidy tidy' kept fits fits' below visited visited'
    -- Both visits count the same, so both runs end here or both go on.
    dsimp only at done done'
    split at done
    · rename_i none
      rw [if_pos none] at done'
      cases done
      cases done'
      exact ⟨rfl, mirrorsToo⟩
    · rename_i some
      rw [if_neg some] at done'
      obtain ⟨⟨later, last⟩, again, made⟩ := bind_eq_ok.mp done
      obtain ⟨⟨later', last'⟩, again', made'⟩ := bind_eq_ok.mp done'
      cases made
      cases made'
      have rewrites := rewrites_of_visit tidy fits visited
      have rewrites' := rewrites_of_visit tidy' fits' visited'
      -- What is new below the operation is inside the part as well.
      have belowToo (inner : Entity) (path : TransGen between.Contains (.op root) inner) :
          inside inner := by
        rcases rewrites.evolves.transGen_contains path with before | ⟨op, rfl, new⟩
        · exact below inner before
        · exact mirrors.inside_new op new
      obtain ⟨rfl, last⟩ := ih mirrorsToo tidyToo tidyToo'
        ((rewrites.evolves.fits fits).mono rewrites.evolves.depthBound_le)
        ((rewrites'.evolves.fits fits').mono rewrites'.evolves.depthBound_le) belowToo again again'
      exact ⟨rfl, last⟩

end Mirrors

end NestedIR
