import NestedIR.Context.Add
import NestedIR.Context.Edit

/-! Lookups after a change find the new data at one place and the old data at all others. -/

namespace NestedIR

/-- A request in two parts is carried out exactly when both parts are. -/
theorem bind_eq_ok {ε α β : Type} {first : Except ε α} {next : α → Except ε β} {answer : β} :
    first >>= next = .ok answer ↔ ∃ value, first = .ok value ∧ next value = .ok answer := by
  cases first <;> simp [Bind.bind, Except.bind]

/-- A request in two parts is refused by the first part or by the second. -/
theorem bind_eq_error {α β : Type} {first : Except Fault α} {next : α → Except Fault β}
    {fault : Fault} :
    first >>= next = .error fault ↔
      first = .error fault ∨ ∃ value, first = .ok value ∧ next value = .error fault := by
  cases first <;> simp [Bind.bind, Except.bind]

/-- A changed answer comes from an answer before the change. -/
theorem map_eq_ok {ε α β : Type} {first : Except ε α} {change : α → β} {answer : β} :
    first.map change = .ok answer ↔ ∃ value, first = .ok value ∧ change value = answer := by
  cases first <;> simp [Except.map]

/-- A change that leaves every answer as it is changes nothing. -/
@[simp] theorem map_self {α : Type} (first : Except Fault α) :
    (first.map fun value => value) = first := by
  cases first <;> rfl

/-- Every answer of a mapped request is an answer for one of its items. -/
theorem exists_of_mem_mapM {ε α β : Type} {request : α → Except ε β} {items : List α}
    {answers : List β} (mapped : items.mapM request = .ok answers) {answer : β}
    (member : answer ∈ answers) : ∃ item ∈ items, request item = .ok answer := by
  -- The answers come in the order of the items.
  induction items generalizing answers with
  | nil =>
    cases mapped
    cases member
  | cons first rest ih =>
    rw [List.mapM_cons, bind_eq_ok] at mapped
    obtain ⟨head, answered, mapped⟩ := mapped
    obtain ⟨tail, remaining, made⟩ := bind_eq_ok.mp mapped
    cases made
    rcases List.mem_cons.mp member with rfl | member
    · exact ⟨first, by simp, answered⟩
    · obtain ⟨item, listed, answeredItem⟩ := ih remaining member
      exact ⟨item, by simp [listed], answeredItem⟩

section Views

variable {κ δ β : Type} {find find' : κ → Except Fault δ} {change : κ → δ → δ}

/-- What is known after a change was known before, and looks the same where the change keeps it. -/
theorem known_before_map (view : δ → β)
    (after : ∀ key, find' key = (find key).map (change key))
    (kept : ∀ key data, view (change key data) = view data) (key : κ) (data : δ)
    (found : find' key = .ok data) : ∃ old, find key = .ok old ∧ view data = view old := by
  obtain ⟨old, foundOld, rfl⟩ := map_eq_ok.mp ((after key).symm.trans found)
  exact ⟨old, foundOld, kept key old⟩

/-- What was known before a change is known after, and looks the same where the change keeps it. -/
theorem known_after_map (view : δ → β)
    (after : ∀ key, find' key = (find key).map (change key))
    (kept : ∀ key data, view (change key data) = view data) (key : κ) (old : δ)
    (found : find key = .ok old) : ∃ data, find' key = .ok data ∧ view data = view old := by
  refine ⟨change key old, ?_, kept key old⟩
  rw [after, found]
  rfl

end Views

namespace Context

section Places

variable {ctx : Context}

/-- An operation is known exactly when its place in the table is filled. -/
theorem op_eq_ok_iff {op : OpId} {data : Operation} :
    ctx.op op = .ok data ↔ ctx.ops[op.index]? = some data := by
  unfold Context.op
  split <;> simp_all

/-- A value is known exactly when its place in the table is filled. -/
theorem value_eq_ok_iff {value : ValueId} {data : Value} :
    ctx.value value = .ok data ↔ ctx.values[value.index]? = some data := by
  unfold Context.value
  split <;> simp_all

/-- A block is known exactly when its place in the table is filled. -/
theorem block_eq_ok_iff {block : BlockId} {data : Block} :
    ctx.block block = .ok data ↔ ctx.blocks[block.index]? = some data := by
  unfold Context.block
  split <;> simp_all

/-- A region is known exactly when its place in the table is filled. -/
theorem region_eq_ok_iff {region : RegionId} {data : Region} :
    ctx.region region = .ok data ↔ ctx.regions[region.index]? = some data := by
  unfold Context.region
  split <;> simp_all

/-- The number of a known operation is below the number of operations. -/
theorem index_lt_of_op {op : OpId} {data : Operation} (known : ctx.op op = .ok data) :
    op.index < ctx.ops.size :=
  (Array.getElem?_eq_some_iff.mp (op_eq_ok_iff.mp known)).1

/-- A known operation is in the table. -/
theorem mem_ops_of_op {op : OpId} {data : Operation} (known : ctx.op op = .ok data) :
    data ∈ ctx.ops.toList :=
  Array.mem_toList_iff.mpr (Array.mem_of_getElem? (op_eq_ok_iff.mp known))

/-- A known operation stands at its own place in the table. -/
theorem mem_zipIdx_of_op {op : OpId} {data : Operation} (known : ctx.op op = .ok data) :
    (data, op.index) ∈ ctx.ops.toList.zipIdx :=
  List.mem_zipIdx_iff_getElem?.mpr (by simp [op_eq_ok_iff.mp known])

/-- The number of a known value is below the number of values. -/
theorem index_lt_of_value {value : ValueId} {data : Value} (known : ctx.value value = .ok data) :
    value.index < ctx.values.size :=
  (Array.getElem?_eq_some_iff.mp (value_eq_ok_iff.mp known)).1

/-- The number of a known block is below the number of blocks. -/
theorem index_lt_of_block {block : BlockId} {data : Block} (known : ctx.block block = .ok data) :
    block.index < ctx.blocks.size :=
  (Array.getElem?_eq_some_iff.mp (block_eq_ok_iff.mp known)).1

/-- The number of a known region is below the number of regions. -/
theorem index_lt_of_region {region : RegionId} {data : Region}
    (known : ctx.region region = .ok data) : region.index < ctx.regions.size :=
  (Array.getElem?_eq_some_iff.mp (region_eq_ok_iff.mp known)).1

/-- An operation is known if its number is below the number of operations. -/
theorem exists_op_of_lt {op : OpId} (inside : op.index < ctx.ops.size) :
    ∃ data, ctx.op op = .ok data :=
  ⟨_, op_eq_ok_iff.mpr (Array.getElem?_eq_getElem inside)⟩

/-- A value is known if its number is below the number of values. -/
theorem exists_value_of_lt {value : ValueId} (inside : value.index < ctx.values.size) :
    ∃ data, ctx.value value = .ok data :=
  ⟨_, value_eq_ok_iff.mpr (Array.getElem?_eq_getElem inside)⟩

/-- A block is known if its number is below the number of blocks. -/
theorem exists_block_of_lt {block : BlockId} (inside : block.index < ctx.blocks.size) :
    ∃ data, ctx.block block = .ok data :=
  ⟨_, block_eq_ok_iff.mpr (Array.getElem?_eq_getElem inside)⟩

/-- A known operation does not have the number that the next one will get. -/
theorem op_ne_next {op : OpId} {data : Operation} (known : ctx.op op = .ok data) :
    op ≠ ⟨ctx.ops.size⟩ := by
  -- The next number is not below itself.
  intro same
  subst same
  exact Nat.lt_irrefl _ (index_lt_of_op known)

/-- A known value does not have the number that the next one will get. -/
theorem value_ne_next {value : ValueId} {data : Value} (known : ctx.value value = .ok data) :
    value ≠ ⟨ctx.values.size⟩ := by
  -- The next number is not below itself.
  intro same
  subst same
  exact Nat.lt_irrefl _ (index_lt_of_value known)

/-- A known block does not have the number that the next one will get. -/
theorem block_ne_next {block : BlockId} {data : Block} (known : ctx.block block = .ok data) :
    block ≠ ⟨ctx.blocks.size⟩ := by
  -- The next number is not below itself.
  intro same
  subst same
  exact Nat.lt_irrefl _ (index_lt_of_block known)

/-- A known region does not have the number that the next one will get. -/
theorem region_ne_next {region : RegionId} {data : Region}
    (known : ctx.region region = .ok data) : region ≠ ⟨ctx.regions.size⟩ := by
  -- The next number is not below itself.
  intro same
  subst same
  exact Nat.lt_irrefl _ (index_lt_of_region known)

end Places

section Changes

variable {ctx ctx' : Context}

/-- Programs with one table of operations have the same operations. -/
theorem op_congr (same : ctx'.ops = ctx.ops) (op : OpId) : ctx'.op op = ctx.op op := by
  rw [Context.op, Context.op, same]

/-- Programs with one table of values have the same values. -/
theorem value_congr (same : ctx'.values = ctx.values) (value : ValueId) :
    ctx'.value value = ctx.value value := by
  rw [Context.value, Context.value, same]

/-- Programs with one table of blocks have the same blocks. -/
theorem block_congr (same : ctx'.blocks = ctx.blocks) (block : BlockId) :
    ctx'.block block = ctx.block block := by
  rw [Context.block, Context.block, same]

/-- Programs with one table of regions have the same regions. -/
theorem region_congr (same : ctx'.regions = ctx.regions) (region : RegionId) :
    ctx'.region region = ctx.region region := by
  rw [Context.region, Context.region, same]

/-- An operation after a change is the operation before it, changed if it is the one. -/
theorem op_modifyOp_eq_map (target op : OpId) (change : Operation → Operation) :
    (ctx.modifyOp target change).op op =
      (ctx.op op).map fun data => if op = target then change data else data := by
  rw [op_modifyOp]
  by_cases same : op = target <;> cases ctx.op op <;> simp [same, Except.map]

/-- A block after a change is the block before it, changed if it is the one. -/
theorem block_modifyBlock_eq_map (target block : BlockId) (change : Block → Block) :
    (ctx.modifyBlock target change).block block =
      (ctx.block block).map fun data => if block = target then change data else data := by
  rw [block_modifyBlock]
  by_cases same : block = target <;> cases ctx.block block <;> simp [same, Except.map]

/-- A region after a change is the region before it, changed if it is the one. -/
theorem region_modifyRegion_eq_map (target region : RegionId) (change : Region → Region) :
    (ctx.modifyRegion target change).region region =
      (ctx.region region).map fun data => if region = target then change data else data := by
  rw [region_modifyRegion]
  by_cases same : region = target <;> cases ctx.region region <;> simp [same, Except.map]

/-- An operation that is added takes the place behind all known ones. -/
theorem op_eq_ok_of_push {new : Operation} (pushed : ctx'.ops = ctx.ops.push new) {op : OpId}
    {data : Operation} :
    ctx'.op op = .ok data ↔
      ctx.op op = .ok data ∨ op = ⟨ctx.ops.size⟩ ∧ data = new := by
  -- The new place is empty in the old table.
  obtain ⟨place⟩ := op
  simp only [op_eq_ok_iff, pushed, Array.getElem?_push, OpId.mk.injEq]
  by_cases last : place = ctx.ops.size <;> simp [last, eq_comm]

/-- A block that is added takes the place behind all known ones. -/
theorem block_eq_ok_of_push {new : Block} (pushed : ctx'.blocks = ctx.blocks.push new)
    {block : BlockId} {data : Block} :
    ctx'.block block = .ok data ↔
      ctx.block block = .ok data ∨ block = ⟨ctx.blocks.size⟩ ∧ data = new := by
  -- The new place is empty in the old table.
  obtain ⟨place⟩ := block
  simp only [block_eq_ok_iff, pushed, Array.getElem?_push, BlockId.mk.injEq]
  by_cases last : place = ctx.blocks.size <;> simp [last, eq_comm]

/-- A region that is added takes the place behind all known ones. -/
theorem region_eq_ok_of_push {new : Region} (pushed : ctx'.regions = ctx.regions.push new)
    {region : RegionId} {data : Region} :
    ctx'.region region = .ok data ↔
      ctx.region region = .ok data ∨ region = ⟨ctx.regions.size⟩ ∧ data = new := by
  -- The new place is empty in the old table.
  obtain ⟨place⟩ := region
  simp only [region_eq_ok_iff, pushed, Array.getElem?_push, RegionId.mk.injEq]
  by_cases last : place = ctx.regions.size <;> simp [last, eq_comm]

/-- Values that are defined take the places behind all known ones, each with its type. -/
theorem value_eq_ok_of_define {definition : Nat → Definition} {types : List TypeId}
    (defined : ctx'.values = (ctx.defineValues definition types).values) {value : ValueId}
    {data : Value} :
    ctx'.value value = .ok data ↔
      ctx.value value = .ok data ∨ ∃ index type, value = ⟨ctx.values.size + index⟩ ∧
        types[index]? = some type ∧ data = ⟨definition index, type⟩ := by
  -- A place is either among the known values or behind them.
  obtain ⟨place⟩ := value
  simp only [value_eq_ok_iff, defined, defineValues, ← Array.getElem?_toList,
    Array.toList_appendList, ValueId.mk.injEq]
  by_cases old : place < ctx.values.size
  · rw [List.getElem?_append_left (by simpa using old)]
    constructor
    · exact .inl
    · intro found
      rcases found with found | ⟨index, type, same, -⟩
      · exact found
      · omega
  · -- Behind the known values, the place counts from the first new one.
    have absent : ctx.values.toList[place]? = none := by simpa using old
    rw [List.getElem?_append_right (by simpa using old)]
    simp only [absent, List.getElem?_mapIdx, Array.length_toList, reduceCtorEq, false_or,
      Option.map_eq_some_iff]
    constructor
    · intro found
      obtain ⟨type, here, rfl⟩ := found
      exact ⟨place - ctx.values.size, type, by omega, here, rfl⟩
    · intro found
      obtain ⟨index, type, rfl, here, rfl⟩ := found
      rw [Nat.add_sub_cancel_left]
      exact ⟨type, here, rfl⟩

end Changes

end Context

end NestedIR
