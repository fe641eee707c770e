import NestedIR.Proofs.Pass.Erasure
import NestedIR.Proofs.Pass.NormalForm

/-! A rewrite puts an heir in the place of an operation, or nothing, and hands over its uses. -/

namespace NestedIR

/--
A program that plain requests have built.

Its chains are exact, its results are defined, and its owners agree with its lists.
-/
structure Sound (discarded : OpId → Prop) (ctx : Context) : Prop where
  /-- The chains list the operand slots of all operations but the discarded ones. -/
  uses : Context.UsesExact discarded ctx
  /-- The results of operations are the values that they define. -/
  results : ctx.ResultsDefined
  /-- Operations record the blocks that list them. -/
  ops : ctx.OpsOwned
  /-- Regions record the operations that list them. -/
  regions : ctx.RegionsOwned
  /-- Blocks record the regions that list them. -/
  blocks : ctx.BlocksOwned

namespace Sound

variable {discarded : OpId → Prop} {ctx ctx' : Context}

/-- A sound program is consistent. -/
theorem consistent (sound : Sound discarded ctx) : Consistent ctx :=
  ⟨⟨_, sound.uses⟩, sound.results⟩

/-- A plain request keeps a program sound, and counts an operation that it discards. -/
theorem perform (sound : Sound discarded ctx) {request : Request} (plain : request.isEdit = false)
    (done : ctx.perform request = .ok ctx') :
    Sound (fun op => discarded op ∨ request = .discardOp op) ctx' :=
  have keeps := Request.keepsUses_of_plain plain
  have change := Context.change_of_perform done
  ⟨sound.uses.perform keeps done, sound.results.step keeps change, sound.ops.step change plain,
    sound.regions.step change plain, sound.blocks.step change⟩

/-- Plain requests keep a program sound, and count the operations that they discard. -/
theorem performAll (sound : Sound discarded ctx) {requests : List Request}
    (plain : ∀ request ∈ requests, request.isEdit = false)
    (performed : ctx.performAll requests = .ok ctx') :
    Sound (fun op => discarded op ∨ .discardOp op ∈ requests) ctx' := by
  refine Context.performAll_induction (motive := fun requests ctx =>
    (∀ request ∈ requests, request.isEdit = false) →
      Sound (fun op => discarded op ∨ .discardOp op ∈ requests) ctx) ?_ ?_ performed plain
  · exact fun _ => by simpa using sound
  · intro requests mid request ctx' earlier done plain
    -- The last request counts what it discards on top of what the earlier ones did.
    have before := earlier fun request member => plain request (by simp [member])
    simpa [or_assoc, eq_comm] using before.perform (plain request (by simp)) done

/-- What plain requests build from nothing is sound. -/
theorem of_build {requests : List Request} (plain : ∀ request ∈ requests, request.isEdit = false)
    (built : Context.build requests = .ok ctx) :
    Sound (fun op => .discardOp op ∈ requests) ctx := by
  have keep : ∀ request ∈ requests, request.keepsUses :=
    fun request member => Request.keepsUses_of_plain (plain request member)
  obtain ⟨ops, regions⟩ := Context.owned_of_build plain built
  exact ⟨.of_build keep built, .of_build keep built, ops, regions, .of_build built⟩

/-- A rewrite keeps a program sound, and discards the operation that it rewrites. -/
theorem rewrite (sound : Sound discarded ctx) {op : OpId} (rewrite : Rewrite op ctx ctx') :
    Sound (fun other => discarded other ∨ other = op) ctx' := by
  -- Both kinds of rewrites are made of plain requests.
  cases rewrite with
  | fold block data sum found computed performed =>
    have plain : ∀ request ∈ ctx.foldRequests block op sum, request.isEdit = false := by
      simp [Context.foldRequests, Context.eraseRequests, Request.isEdit]
    simpa [Context.foldRequests, Context.eraseRequests] using sound.performAll plain performed
  | erase block data found dead performed =>
    have plain : ∀ request ∈ Context.eraseRequests block op, request.isEdit = false := by
      simp [Context.eraseRequests, Request.isEdit]
    simpa [Context.eraseRequests] using sound.performAll plain performed

end Sound

namespace Context

variable {discarded : OpId → Prop} {ctx : Context}

/-- An operation is dead when it is pure and the chains of its results are empty. -/
theorem isDead_iff_usesOf {data : Operation} :
    ctx.isDead data = true ↔
      data.isPure = true ∧ ∀ value ∈ data.results, ctx.usesOf value = [] := by
  simp [isDead, isUsed]

/-- The operands of an operation after the uses that the chains list have moved to other values. -/
def moveOperands (ctx : Context) (moved : ValueId → ValueId) (op : OpId)
    (operands : List ValueId) : List ValueId :=
  operands.mapIdx fun index value => if ⟨op, index⟩ ∈ ctx.usesOf value then moved value else value

/-- An operand is read after a move where it was read before, unless its slot has moved. -/
theorem getElem?_moveOperands (moved : ValueId → ValueId) (op : OpId) (operands : List ValueId)
    (index : Nat) : (ctx.moveOperands moved op operands)[index]? = operands[index]?.map
      fun value => if ⟨op, index⟩ ∈ ctx.usesOf value then moved value else value := by
  simp [moveOperands]

/-- Operands stay when no value moves. -/
theorem moveOperands_id (op : OpId) (operands : List ValueId) :
    ctx.moveOperands id op operands = operands := by
  refine List.ext_getElem? fun index => ?_
  simp [getElem?_moveOperands]

/-- Filling the slots in which a value is used moves that value. -/
theorem refill_eq_moveOperands (exact : UsesExact discarded ctx) (old new : ValueId) {op : OpId}
    {data : Operation} (found : ctx.op op = .ok data) :
    refill (ctx.usesOf old) new op data.operands =
      ctx.moveOperands (fun value => if value = old then new else value) op data.operands := by
  -- A chain lists only slots that hold its value.
  refine List.ext_getElem? fun index => ?_
  rw [getElem?_moveOperands, refill, List.getElem?_mapIdx]
  cases held : data.operands[index]? with
  | none => rfl
  | some value =>
    by_cases same : value = old
    · simp [same]
    · have unlisted : ⟨op, index⟩ ∉ ctx.usesOf old := by
        intro listed
        obtain ⟨again, foundAgain, heldAgain⟩ :=
          operand?_eq_some_iff.mp ((exact.mem_iff _ _).mp listed).1
        cases found.symm.trans foundAgain
        exact same (Option.some.inj (held.symm.trans heldAgain))
      simp [same, unlisted]

end Context

/-- The operations of a list with the heir of one of them in its place, if it has one. -/
def succession (op : OpId) (heir : Option OpId) (ops : List OpId) : List OpId :=
  ops.filterMap fun other => if other = op then heir else some other

section Succession

variable {op : OpId} {heir : Option OpId} {ops : List OpId}

/-- What has an heir stays in a list, and what takes the place of the operation is the heir. -/
theorem mem_succession_iff {other : OpId} :
    other ∈ succession op heir ops ↔
      other ∈ ops ∧ other ≠ op ∨ heir = some other ∧ op ∈ ops := by
  -- An entry comes from an entry, which is the operation itself or another one.
  simp only [succession, List.mem_filterMap]
  constructor
  · intro entry
    obtain ⟨member, listed, shown⟩ := entry
    split at shown
    · rename_i same
      exact .inr ⟨shown, same ▸ listed⟩
    · rename_i differs
      cases shown
      exact .inl ⟨listed, differs⟩
  · rintro (⟨listed, differs⟩ | ⟨shown, listed⟩)
    · exact ⟨other, listed, if_neg differs⟩
    · exact ⟨op, listed, by rw [if_pos rfl, shown]⟩

/-- A list without the operation stays as it is. -/
theorem succession_of_not_mem (absent : op ∉ ops) : succession op heir ops = ops := by
  refine (List.filterMap_congr fun other listed => ?_).trans List.filterMap_some
  have differs : other ≠ op := fun same => absent (same ▸ listed)
  rw [if_neg differs]

/-- Where the operation stands, its heir stands afterwards. -/
theorem succession_cons_self (rest : List OpId) :
    succession op heir (op :: rest) = heir.toList ++ succession op heir rest := by
  cases heir <;> simp [succession]

/-- Another operation stays in front of what follows it. -/
theorem succession_cons_of_ne {other : OpId} (differs : other ≠ op) (rest : List OpId) :
    succession op heir (other :: rest) = other :: succession op heir rest := by
  simp [succession, differs]

/-- Two parts of a list are changed one by one. -/
theorem succession_append (front back : List OpId) :
    succession op heir (front ++ back) = succession op heir front ++ succession op heir back :=
  List.filterMap_append

/-- What stands in a list in this order without the heir stood there in the same order before. -/
theorem sublist_of_succession {items : List OpId} (others : ∀ new, heir = some new → new ∉ items)
    (inOrder : items.Sublist (succession op heir ops)) : items.Sublist ops := by
  -- Only the heir could take the place of the operation, and it is not among the items.
  induction ops generalizing items with
  | nil => exact inOrder
  | cons head rest ih =>
    by_cases same : head = op
    · rw [same, succession_cons_self] at inOrder
      cases isHeir : heir with
      | none => exact (ih others (by simpa [isHeir] using inOrder)).cons head
      | some new =>
        rw [isHeir, Option.toList_some, List.singleton_append] at inOrder
        cases inOrder with
        | cons _ later => exact (ih others (isHeir ▸ later)).cons head
        | cons_cons _ _ => exact absurd List.mem_cons_self (others _ isHeir)
    · rw [succession_cons_of_ne same] at inOrder
      cases inOrder with
      | cons _ later => exact (ih others later).cons head
      | cons_cons _ tail =>
        refine (ih (fun new isHeir inTail => ?_) tail).cons_cons head
        exact others new isHeir (List.mem_cons_of_mem head inTail)

/-- Leaving out an operation without an heir is what a filter does. -/
theorem succession_none (op : OpId) (ops : List OpId) :
    succession op none ops = ops.filter (· ∉ [op]) := by
  rw [← List.filterMap_eq_filter]
  refine List.filterMap_congr fun other _ => ?_
  by_cases same : other = op <;> simp [Option.guard, same]

/-- With the heir put in front of the operation, it is enough to leave the operation out. -/
theorem filter_insert_eq_succession {front back : List OpId} {new : OpId} (differs : new ≠ op)
    (distinct : (front ++ op :: back).Nodup) :
    (front ++ new :: op :: back).filter (· ∉ [op]) =
      succession op (some new) (front ++ op :: back) := by
  -- The operation is listed once, so that neither the front nor the back lists it.
  rw [List.nodup_middle, List.nodup_cons, List.mem_append, not_or] at distinct
  obtain ⟨⟨absentFront, absentBack⟩, -⟩ := distinct
  rw [← succession_none, succession_append, succession_append, succession_cons_of_ne differs,
    succession_cons_self, succession_cons_self, succession_of_not_mem absentFront,
    succession_of_not_mem absentFront, succession_of_not_mem absentBack,
    succession_of_not_mem absentBack]
  rfl

end Succession

/-- An operation is in a block. -/
def Context.Attached (ctx : Context) (op : OpId) : Prop :=
  ∃ data block, ctx.op op = .ok data ∧ data.parentBlock = some block

/--
What becomes of a program when one operation leaves it and an heir takes its place, if it has one.

The uses of the values that the operation defines move on to the value that the heir defines.
-/
structure Replaces (op : OpId) (heir : Option OpId) (moved : ValueId → ValueId)
    (ctx ctx' : Context) : Prop where
  /-- A known operation reads what its operands have moved to, and only the one itself is freed. -/
  op_known : ∀ {other data}, ctx.op other = .ok data → ctx'.op other = .ok { data with
    operands := ctx.moveOperands moved other data.operands
    parentBlock := if other = op then none else data.parentBlock }
  /-- Nothing but the heir is new, which contains nothing and reads nothing. -/
  op_new : ∀ {other data}, ctx'.op other = .ok data → (∃ old, ctx.op other = .ok old) ∨
    heir = some other ∧ data.regions = [] ∧ data.operands = []
  /-- The heir takes the next number, and is an integer constant with one result in a block. -/
  heir_eq : ∀ {new}, heir = some new → new = ⟨ctx.ops.size⟩ ∧ ctx'.Attached new ∧
    ∃ data value number, ctx'.op new = .ok data ∧ data.isKind .constant ∧
      data.constantInt? = some number ∧ data.results = [⟨ctx.values.size⟩] ∧
      ctx'.value ⟨ctx.values.size⟩ = .ok value ∧ value.definition = .result new 0
  /-- In every list, the heir takes the place of the operation. -/
  block_eq : ∀ block, ctx'.block block = (ctx.block block).map fun data =>
    { data with ops := succession op heir data.ops }
  /-- A chain lists the uses that have moved to its value, but for those by the operation. -/
  mem_usesOf_iff : ∀ value use, use ∈ ctx'.usesOf value ↔
    use.user ≠ op ∧ ∃ old, moved old = value ∧ use ∈ ctx.usesOf old
  /-- Known values stay. -/
  value_known : ∀ {value data}, ctx.value value = .ok data → ctx'.value value = .ok data
  /-- No value is new but that of an heir. -/
  value_new : ∀ {value data}, ctx'.value value = .ok data →
    ctx.value value = .ok data ∨ value = ⟨ctx.values.size⟩ ∧ ∃ new, heir = some new
  /-- Nothing moves to a value that is known, unless it is there already. -/
  moved_known : ∀ {old value data}, ctx.value value = .ok data → moved old = value → old = value
  /-- A known value stays where it is unless the operation defines it. -/
  moved_other : ∀ {value data}, ctx.value value = .ok data →
    (∀ index, data.definition ≠ .result op index) → moved value = value
  /-- What is used of the operation is its first result, which moves to that of an heir. -/
  moved_used : ∀ {value data use index}, use ∈ ctx.usesOf value → ctx.value value = .ok data →
    data.definition = .result op index →
      index = 0 ∧ moved value = ⟨ctx.values.size⟩ ∧ ∃ new, heir = some new
  /-- Regions stay. -/
  regions_eq : ctx'.regions = ctx.regions
  /-- Types stay. -/
  types_eq : ctx'.types = ctx.types

namespace Context

variable {ctx : Context} {block : BlockId} {op : OpId} {target : Block} {front back : List OpId}

/-- Without the requests that erase the addition, folding is these requests. -/
theorem performAll_withFolded (known : ctx.block block = .ok target) (first : op ∉ front)
    (split : target.ops = front ++ op :: back) (sum : Sum) :
    ctx.performAll [.addOp (foldedSpec sum), .insertOp block op ⟨ctx.ops.size⟩,
        .redirectUses sum.result ⟨ctx.values.size⟩] =
      .ok (ctx.withFolded sum block (front ++ ⟨ctx.ops.size⟩ :: op :: back)) := by
  -- The constant is free, so that only the place in the block can be missing.
  show ((ctx.withConstant sum).insertOp block op ⟨ctx.ops.size⟩ >>= fun placed =>
    pure (placed.redirectUses sum.result ⟨ctx.values.size⟩)) = _
  refine bind_eq_ok.mpr ⟨_, insertOp_eq_ok.mpr ⟨_, target, _, ctx.op_withConstant_new sum, rfl,
    known, ?_, rfl⟩, rfl⟩
  exact insertBefore_eq_some_iff.mpr ⟨front, back, first, split, rfl⟩

/-- Folding puts the constant into the list of one block, and leaves all other lists alone. -/
theorem block_withFolded (sum : Sum) (block other : BlockId) (ops : List OpId) :
    (ctx.withFolded sum block ops).block other = (ctx.block other).map fun data =>
      if other = block then { data with ops } else data := by
  have blocks := (((ctx.withConstant sum).place block ⟨ctx.ops.size⟩ ops).redirectUses_frame
    sum.result ⟨ctx.values.size⟩).2.1
  rw [withFolded, block_congr blocks, block_place]
  rfl

/-- The new constant is in its block, and reads nothing. -/
theorem op_withFolded_new {sum : Sum} (differ : sum.result ≠ ⟨ctx.values.size⟩)
    (block : BlockId) (ops : List OpId) :
    (ctx.withFolded sum block ops).op ⟨ctx.ops.size⟩ =
      .ok { ctx.newOp (foldedSpec sum) with parentBlock := some block } := by
  rw [withFolded, op_redirectUses differ, op_place, op_withConstant_new]
  simp only [Except.map, if_true]
  rfl

/-- What is known after folding was known before, or is the new constant. -/
theorem known_of_op_withFolded {sum : Sum} (differ : sum.result ≠ ⟨ctx.values.size⟩)
    {other : OpId} {data : Operation} {ops : List OpId}
    (found : (ctx.withFolded sum block ops).op other = .ok data) :
    (∃ old, ctx.op other = .ok old) ∨ other = ⟨ctx.ops.size⟩ := by
  -- Neither redirecting nor placing makes an operation known.
  rw [withFolded, op_redirectUses differ, map_eq_ok] at found
  obtain ⟨placed, foundPlaced, rfl⟩ := found
  rw [op_place, map_eq_ok] at foundPlaced
  obtain ⟨old, foundOld, rfl⟩ := foundPlaced
  rcases (op_eq_ok_of_push rfl).mp foundOld with older | ⟨same, -⟩
  · exact .inl ⟨old, older⟩
  · exact .inr same

/-- The chain of the folded sum becomes empty and is appended to that of the new value. -/
theorem usesOf_withFolded {sum : Sum} (differ : sum.result ≠ ⟨ctx.values.size⟩)
    (block : BlockId) (ops : List OpId) (value : ValueId) :
    (ctx.withFolded sum block ops).usesOf value =
      if value = ⟨ctx.values.size⟩ then ctx.usesOf ⟨ctx.values.size⟩ ++ ctx.usesOf sum.result
      else if value = sum.result then [] else ctx.usesOf value :=
  usesOf_redirectUses differ value

/-- Only the uses of the folded sum move, and all others stay where they were. -/
theorem mem_usesOf_withFolded_iff {sum : Sum} (differ : sum.result ≠ ⟨ctx.values.size⟩)
    (block : BlockId) (ops : List OpId) (value : ValueId) (use : Use) :
    use ∈ (ctx.withFolded sum block ops).usesOf value ↔
      ∃ old, (if old = sum.result then ⟨ctx.values.size⟩ else old) = value ∧
        use ∈ ctx.usesOf old := by
  rw [usesOf_withFolded differ]
  constructor
  · -- The new value has the uses that it had already, and those that came from the sum.
    intro listed
    split at listed
    · rename_i isNew
      rcases List.mem_append.mp listed with already | came
      · exact ⟨value, by rw [if_neg (isNew ▸ differ.symm)], isNew ▸ already⟩
      · exact ⟨sum.result, by rw [if_pos rfl, isNew], came⟩
    · split at listed
      · cases listed
      · rename_i other
        exact ⟨value, if_neg other, listed⟩
  · intro moved
    obtain ⟨old, same, listed⟩ := moved
    by_cases isSum : old = sum.result
    · rw [if_pos isSum] at same
      rw [if_pos same.symm]
      exact List.mem_append_right _ (isSum ▸ listed)
    · rw [if_neg isSum] at same
      subst same
      split
      · rename_i isNew
        exact List.mem_append_left _ (isNew ▸ listed)
      · exact listed

end Context

namespace Replaces

variable {discarded : OpId → Prop} {op : OpId} {ctx ctx' : Context}

/-- An operation that is erased with unused results is replaced by nothing. -/
theorem of_erases (sound : Sound discarded ctx) {data : Operation} (found : ctx.op op = .ok data)
    (unused : ∀ value ∈ data.results, ctx.usesOf value = []) (erases : Erases [op] ctx ctx') :
    Replaces op none id ctx ctx' where
  op_known {other data} found := by
    rw [erases.op_eq, found]
    by_cases same : other = op <;> simp [Except.map, same, Context.moveOperands_id]
  op_new {other data} found := by
    obtain ⟨old, foundOld, -⟩ := erases.op_before found
    exact .inl ⟨old, foundOld⟩
  heir_eq none := nomatch none
  block_eq block := by
    simp only [erases.block_eq, succession_none]
  mem_usesOf_iff value use := by
    rw [erases.usesOf_eq]
    simp [and_comm]
  value_known known := (Context.value_congr erases.values_eq _).trans known
  value_new known := .inl ((Context.value_congr erases.values_eq _).symm.trans known)
  moved_known _ same := same
  moved_other _ _ := rfl
  moved_used {value known use index} listed foundValue defines := by
    -- A result of the operation has no uses.
    obtain ⟨again, foundAgain, here⟩ :=
      (sound.results value op index).mp ⟨known, foundValue, defines⟩
    cases found.symm.trans foundAgain
    rw [unused value (List.mem_of_getElem? here)] at listed
    cases listed
  regions_eq := erases.regions_eq
  types_eq := erases.types_eq

/-- An addition that is folded in its block is replaced by the new constant. -/
theorem of_folded (sound : Sound discarded ctx) {block : BlockId} {target : Block}
    {front back : List OpId} {data : Operation} {sum : Sum} {value : Value}
    (found : ctx.op op = .ok data) (owner : data.parentBlock = some block)
    (known : ctx.block block = .ok target) (split : target.ops = front ++ op :: back)
    (results : data.results = [sum.result]) (result : ctx.value sum.result = .ok value)
    (erases : Erases [op]
      (ctx.withFolded sum block (front ++ ⟨ctx.ops.size⟩ :: op :: back)) ctx') :
    Replaces op (some ⟨ctx.ops.size⟩)
      (fun value => if value = sum.result then ⟨ctx.values.size⟩ else value) ctx ctx' where
  op_known {other old} foundOld := by
    have differ := Context.value_ne_next result
    rw [erases.op_eq, Context.op_withFolded differ foundOld,
      Context.refill_eq_moveOperands sound.uses _ _ foundOld]
    by_cases same : other = op <;> simp [Except.map, same]
  op_new {other new} foundNew := by
    have differ := Context.value_ne_next result
    obtain ⟨before, foundBefore, rfl⟩ := erases.op_before foundNew
    rcases Context.known_of_op_withFolded differ foundBefore with known | isHeir
    · exact .inl known
    · subst isHeir
      rw [Context.op_withFolded_new differ] at foundBefore
      cases foundBefore
      refine .inr ⟨rfl, ?_⟩
      split <;> exact ⟨rfl, rfl⟩
  heir_eq {new} isHeir := by
    cases isHeir
    have differ := Context.value_ne_next result
    have foundHeir : ctx'.op ⟨ctx.ops.size⟩ =
        .ok { ctx.newOp (Context.foldedSpec sum) with parentBlock := some block } := by
      rw [erases.op_eq, Context.op_withFolded_new differ]
      simp [Except.map, (Context.op_ne_next found).symm]
    have values := erases.values_eq.trans (ctx.withFolded_frame sum block _).1
    exact ⟨rfl, ⟨_, block, foundHeir, rfl⟩, _, _, sum.value, foundHeir, rfl, rfl, rfl,
      (Context.value_eq_ok_of_define values).mpr (.inr ⟨0, sum.type, rfl, rfl, rfl⟩), rfl⟩
  block_eq other := by
    rw [erases.block_eq, Context.block_withFolded]
    cases foundBlock : ctx.block other with
    | error fault => rfl
    | ok listed =>
      by_cases here : other = block
      · -- The addition stands once in its block, where the constant has come in front of it.
        subst here
        cases known.symm.trans foundBlock
        have distinct := sound.ops.nodup known
        rw [split] at distinct
        simp only [Except.map, if_true, split,
          filter_insert_eq_succession (Context.op_ne_next found).symm distinct]
      · -- No other block lists the addition.
        have absent : op ∉ listed.ops := by
          intro isListed
          obtain ⟨data', foundToo, records⟩ := sound.ops.recorded foundBlock isListed
          cases found.symm.trans foundToo
          exact here (Option.some.inj (records.symm.trans owner))
        simp only [Except.map, if_neg here, ← succession_none, succession_of_not_mem absent]
  mem_usesOf_iff value use := by
    have differ := Context.value_ne_next result
    rw [erases.usesOf_eq, List.mem_filter, Context.mem_usesOf_withFolded_iff differ, and_comm]
    simp
  value_known known := by
    have values := erases.values_eq.trans (ctx.withFolded_frame sum block _).1
    exact (Context.value_eq_ok_of_define values).mpr (.inl known)
  value_new known := by
    have values := erases.values_eq.trans (ctx.withFolded_frame sum block _).1
    rcases (Context.value_eq_ok_of_define values).mp known with old | ⟨index, type, rfl, here, -⟩
    · exact .inl old
    · -- There is only one result, which comes first.
      cases index with
      | zero => exact .inr ⟨rfl, _, rfl⟩
      | succ index => cases here
  moved_known {old value data} known same := by
    split at same
    · exact absurd same.symm (Context.value_ne_next known)
    · exact same
  moved_other {value data} known other := by
    refine if_neg fun same => ?_
    -- The sum is a result of the addition.
    obtain ⟨again, foundAgain, defines⟩ :=
      (sound.results value op 0).mpr ⟨_, found, by simp [results, same]⟩
    cases known.symm.trans foundAgain
    exact other 0 defines
  moved_used {value data' use index} _ known defines := by
    -- The addition defines nothing but the sum.
    obtain ⟨again, foundAgain, here⟩ := (sound.results value op index).mp ⟨_, known, defines⟩
    cases found.symm.trans foundAgain
    rw [results, List.getElem?_singleton] at here
    split at here
    · rename_i first
      cases here
      exact ⟨first, if_pos rfl, _, rfl⟩
    · cases here
  regions_eq := by
    rw [erases.regions_eq]
    exact (((ctx.withConstant sum).place block ⟨ctx.ops.size⟩ _).redirectUses_frame
      sum.result ⟨ctx.values.size⟩).2.2.1
  types_eq := by
    rw [erases.types_eq]
    exact (ctx.withFolded_frame sum block _).2

/-- What is dead is replaced by nothing when it is erased. -/
theorem of_erase (sound : Sound discarded ctx) {block : BlockId} {data : Operation}
    (found : ctx.op op = .ok data) (dead : ctx.isDead data)
    (performed : ctx.performAll (Context.eraseRequests block op) = .ok ctx') :
    Replaces op none id ctx ctx' := by
  -- The erasure leaves out the one operation, and no operand moves for it.
  obtain ⟨same, target, foundSame, -, owned, -, rfl⟩ := Context.eraseRequests_eq_ok.mp performed
  cases found.symm.trans foundSame
  exact .of_erases sound found (Context.isDead_iff_usesOf.mp dead).2
    (.withErased sound.ops sound.consistent found owned)

/-- What has a sum is replaced by a constant when it is folded. -/
theorem of_fold (sound : Sound discarded ctx) {block : BlockId} {data : Operation} {sum : Sum}
    (found : ctx.op op = .ok data) (computed : ctx.sum? data = .ok (some sum))
    (performed : ctx.performAll (ctx.foldRequests block op sum) = .ok ctx') :
    Replaces op (some ⟨ctx.ops.size⟩)
      (fun value => if value = sum.result then ⟨ctx.values.size⟩ else value) ctx ctx' := by
  obtain ⟨target, front, back, known, first, split, last⟩ :=
    Context.foldRequests_eq_ok.mp performed
  obtain ⟨-, -, -, -, -, value, -, -, sole, -, -, result, -⟩ := Context.sum?_eq_some computed
  have results := Operation.soleResult?_eq_some.mp sole
  obtain ⟨same, foundSame, owner⟩ := sound.ops.recorded known (by simp [split] : op ∈ target.ops)
  cases found.symm.trans foundSame
  -- The constant has come in by plain requests, and the addition is erased after that.
  have folded := sound.performAll (by simp [Request.isEdit])
    (Context.performAll_withFolded known first split sum)
  obtain ⟨after, -, foundAfter, -, owned, -, rfl⟩ := Context.eraseRequests_eq_ok.mp last
  have erases := Erases.withErased folded.ops folded.consistent foundAfter owned
  exact .of_folded sound found owner known split results result erases

end Replaces

/-- A rewrite of a sound program replaces the operation by an heir or by nothing. -/
theorem Rewrite.exists_replaces {discarded : OpId → Prop} {op : OpId} {ctx ctx' : Context}
    (rewrite : Rewrite op ctx ctx') (sound : Sound discarded ctx) :
    ∃ heir moved, Replaces op heir moved ctx ctx' := by
  cases rewrite with
  | erase block data found dead performed => exact ⟨_, _, .of_erase sound found dead performed⟩
  | fold block data sum found computed performed =>
    exact ⟨_, _, .of_fold sound found computed performed⟩

end NestedIR
