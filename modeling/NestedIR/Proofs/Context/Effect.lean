import NestedIR.Proofs.Context.Request

/-! Each request that is carried out has one effect on the tables, and says when it is refused. -/

namespace NestedIR.Context

variable {ctx ctx' : Context}

section Add

/-- A region is claimed for an operation exactly when no operation owns it. -/
theorem claimRegion_eq_ok {claimant : OpId} {region : RegionId}
    (done : claimRegion claimant ctx region = .ok ctx') :
    ctx' = ctx.modifyRegion region ({ · with parentOp := some claimant }) ∧
      ∃ data, ctx.region region = .ok data ∧ data.parentOp = none := by
  -- The owner is looked at before anything changes.
  obtain ⟨data, found, claim⟩ := bind_eq_ok.mp done
  split at claim
  · cases claim
  · cases claim
    exact ⟨rfl, data, found, by assumption⟩

/-- A block is claimed for a region exactly when no region owns it. -/
theorem claimBlock_eq_ok {claimant : RegionId} {block : BlockId}
    (done : claimBlock claimant ctx block = .ok ctx') :
    ctx' = ctx.modifyBlock block ({ · with parentRegion := some claimant }) ∧
      ∃ data, ctx.block block = .ok data ∧ data.parentRegion = none := by
  -- The owner is looked at before anything changes.
  obtain ⟨data, found, claim⟩ := bind_eq_ok.mp done
  split at claim
  · cases claim
  · cases claim
    exact ⟨rfl, data, found, by assumption⟩

/-- An operation is claimed for a block exactly when no block owns it. -/
theorem claimOp_eq_ok {claimant : BlockId} {op : OpId}
    (done : claimOp claimant ctx op = .ok ctx') :
    ctx' = ctx.modifyOp op ({ · with parentBlock := some claimant }) ∧
      ∃ data, ctx.op op = .ok data ∧ data.parentBlock = none := by
  -- The owner is looked at before anything changes.
  obtain ⟨data, found, claim⟩ := bind_eq_ok.mp done
  split at claim
  · cases claim
  · cases claim
    exact ⟨rfl, data, found, by assumption⟩

/-- The operation that a request makes. -/
def newOp (ctx : Context) (spec : OpSpec) : Operation :=
  { toOpSpec := spec, results := ctx.freshValues spec.resultTypes.length }

/-- The block that a request makes. -/
def newBlock (ctx : Context) (spec : BlockSpec) : Block :=
  { toBlockSpec := spec, arguments := ctx.freshValues spec.argumentTypes.length }

/--
A new operation takes the next number and owns its regions, which were free and distinct.

Nothing else changes but the values and the uses.
-/
theorem addOp_eq_ok {spec : OpSpec} {op : OpId} (added : ctx.addOp spec = .ok (op, ctx')) :
    op = ⟨ctx.ops.size⟩ ∧ spec.parentBlock = none ∧ spec.regions.Nodup ∧
      (∀ region ∈ spec.regions, ∃ data, ctx.region region = .ok data ∧ data.parentOp = none) ∧
      (∀ region, ctx'.region region = (ctx.region region).map fun data =>
        if region ∈ spec.regions then { data with parentOp := some op } else data) ∧
      ctx' = { ctx with
        ops := ctx.ops.push (ctx.newOp spec)
        values := (ctx.defineValues (.result op) spec.resultTypes).values
        regions := ctx'.regions
        uses := ctx.uses.recordAll op spec.operands } := by
  unfold addOp at added
  split at added
  · cases added
  · rename_i free
    obtain ⟨mid, claims, made⟩ := bind_eq_ok.mp added
    cases made
    obtain ⟨distinct, wereFree, after, frame⟩ := foldlM_claim Context.region
      (fun ctx region => ctx.modifyRegion region ({ · with parentOp := some ⟨_⟩ }))
      (fun data => data.parentOp = none) (fun ctx target region => region_modifyRegion_eq_map ..)
      (by simp) (fun _ _ _ => claimRegion_eq_ok) claims
    -- The claims change no table but that of the regions.
    have tables := frame (fun ctx => { ctx with regions := #[] }) (fun _ _ => rfl)
    obtain ⟨ops, values, blocks, regions, uses, types, dialects⟩ := mid
    simp only [Context.mk.injEq] at tables
    obtain ⟨rfl, rfl, rfl, -, rfl, rfl, rfl⟩ := tables
    exact ⟨rfl, by simpa using free, distinct, wereFree, after, rfl⟩

/--
A new block takes the next number and owns its operations, which were free and distinct.

Nothing else changes but the values.
-/
theorem addBlock_eq_ok {spec : BlockSpec} {block : BlockId}
    (added : ctx.addBlock spec = .ok (block, ctx')) :
    block = ⟨ctx.blocks.size⟩ ∧ spec.ops.Nodup ∧
      (∀ op ∈ spec.ops, ∃ data, ctx.op op = .ok data ∧ data.parentBlock = none) ∧
      (∀ op, ctx'.op op = (ctx.op op).map fun data =>
        if op ∈ spec.ops then { data with parentBlock := some block } else data) ∧
      ctx' = { ctx with
        ops := ctx'.ops
        values := (ctx.defineValues (.argument block) spec.argumentTypes).values
        blocks := ctx.blocks.push (ctx.newBlock spec) } := by
  obtain ⟨mid, claims, made⟩ := bind_eq_ok.mp added
  cases made
  obtain ⟨distinct, wereFree, after, frame⟩ := foldlM_claim Context.op
    (fun ctx op => ctx.modifyOp op ({ · with parentBlock := some ⟨_⟩ }))
    (fun data => data.parentBlock = none) (fun ctx target op => op_modifyOp_eq_map ..)
    (by simp) (fun _ _ _ => claimOp_eq_ok) claims
  -- The claims change no table but that of the operations.
  have tables := frame (fun ctx => { ctx with ops := #[] }) (fun _ _ => rfl)
  obtain ⟨ops, values, blocks, regions, uses, types, dialects⟩ := mid
  simp only [Context.mk.injEq] at tables
  obtain ⟨-, rfl, rfl, rfl, rfl, rfl, rfl⟩ := tables
  exact ⟨rfl, distinct, wereFree, after, rfl⟩

/-- A new region takes the next number and owns its blocks, which were free and distinct. -/
theorem addRegion_eq_ok {data : Region} {region : RegionId}
    (added : ctx.addRegion data = .ok (region, ctx')) :
    region = ⟨ctx.regions.size⟩ ∧ data.blocks.Nodup ∧
      (∀ block ∈ data.blocks, ∃ data, ctx.block block = .ok data ∧ data.parentRegion = none) ∧
      (∀ block, ctx'.block block = (ctx.block block).map fun old =>
        if block ∈ data.blocks then { old with parentRegion := some region } else old) ∧
      ctx' = { ctx with blocks := ctx'.blocks, regions := ctx.regions.push data } := by
  obtain ⟨mid, claims, made⟩ := bind_eq_ok.mp added
  cases made
  obtain ⟨distinct, wereFree, after, frame⟩ := foldlM_claim Context.block
    (fun ctx block => ctx.modifyBlock block ({ · with parentRegion := some ⟨_⟩ }))
    (fun data => data.parentRegion = none) (fun ctx target block => block_modifyBlock_eq_map ..)
    (by simp) (fun _ _ _ => claimBlock_eq_ok) claims
  -- The claims change no table but that of the blocks.
  have tables := frame (fun ctx => { ctx with blocks := #[] }) (fun _ _ => rfl)
  obtain ⟨ops, values, blocks, regions, uses, types, dialects⟩ := ctx'
  simp only [Context.mk.injEq] at tables
  obtain ⟨rfl, rfl, -, rfl, rfl, rfl, rfl⟩ := tables
  exact ⟨rfl, distinct, wereFree, after, rfl⟩

end Add

section Move

/-- Changes that agree on what stands at a place of a table change the table in the same way. -/
theorem modify_congr {α : Type} {table : Array α} {place : Nat} {change other : α → α}
    (agree : ∀ data, table[place]? = some data → change data = other data) :
    table.modify place change = table.modify place other := by
  -- No other place could tell the two changes apart.
  refine Array.ext_getElem? fun index => ?_
  rw [Array.getElem?_modify, Array.getElem?_modify]
  split
  · rename_i here
    subst here
    cases found : table[place]? with
    | none => rfl
    | some data => simp [agree data found]
  · rfl

/-- Changes that agree on the data of an operation change the program in the same way. -/
theorem modifyOp_congr {op : OpId} {change other : Operation → Operation}
    (agree : ∀ data, ctx.op op = .ok data → change data = other data) :
    ctx.modifyOp op change = ctx.modifyOp op other := by
  rw [modifyOp, modifyOp, modify_congr fun data found => agree data (op_eq_ok_iff.mpr found)]

/-- Changes that agree on the data of a block change the program in the same way. -/
theorem modifyBlock_congr {block : BlockId} {change other : Block → Block}
    (agree : ∀ data, ctx.block block = .ok data → change data = other data) :
    ctx.modifyBlock block change = ctx.modifyBlock block other := by
  rw [modifyBlock, modifyBlock,
    modify_congr fun data found => agree data (block_eq_ok_iff.mpr found)]

/-- A change that leaves all data as they are changes nothing. -/
theorem modifyOp_id (op : OpId) : ctx.modifyOp op (fun data => data) = ctx := by
  -- Every place of the table reads the same as before.
  have same : ctx.ops.modify op.index (fun data => data) = ctx.ops := by
    refine Array.ext_getElem? fun place => ?_
    simp [Array.getElem?_modify]
  rw [modifyOp, same]

/-- The program with a new list of operations in a block, and one operation owned by that block. -/
def place (ctx : Context) (block : BlockId) (op : OpId) (ops : List OpId) : Context :=
  (ctx.modifyBlock block ({ · with ops })).modifyOp op ({ · with parentBlock := some block })

/-- The program without an operation in the list of a block, and free of that owner. -/
def displace (ctx : Context) (block : BlockId) (op : OpId) : Context :=
  (ctx.modifyBlock block fun data => { data with ops := data.ops.filter (· ≠ op) }).modifyOp op
    fun data =>
      if data.parentBlock = some block then { data with parentBlock := none } else data

/-- Placing an operation changes its owner and that of no other. -/
theorem op_place (block : BlockId) (op other : OpId) (ops : List OpId) :
    (ctx.place block op ops).op other = (ctx.op other).map fun data =>
      if other = op then { data with parentBlock := some block } else data := by
  rw [place, op_modifyOp_eq_map]
  rfl

/-- Placing an operation in a block changes the list of that block and of no other. -/
theorem block_place (block other : BlockId) (op : OpId) (ops : List OpId) :
    (ctx.place block op ops).block other = (ctx.block other).map fun data =>
      if other = block then { data with ops } else data := by
  rw [← block_modifyBlock_eq_map]
  rfl

/-- Displacing an operation frees it of the block, and changes no other operation. -/
theorem op_displace (block : BlockId) (op other : OpId) :
    (ctx.displace block op).op other = (ctx.op other).map fun data =>
      { data with
        parentBlock :=
          if other = op ∧ data.parentBlock = some block then none else data.parentBlock } := by
  rw [displace, op_modifyOp_eq_map]
  -- An operation that keeps its owner keeps all its data.
  show (ctx.op other).map _ = _
  congr 1
  funext data
  by_cases freed : other = op ∧ data.parentBlock = some block
  · rw [if_pos freed, if_pos freed.1, if_pos freed.2]
  · rw [if_neg freed]
    split
    · rename_i same
      rw [if_neg fun owned => freed ⟨same, owned⟩]
    · rfl

/-- Displacing an operation takes it out of the list of that block and of no other. -/
theorem block_displace (block other : BlockId) (op : OpId) :
    (ctx.displace block op).block other = (ctx.block other).map fun data =>
      if other = block then { data with ops := data.ops.filter (· ≠ op) } else data := by
  rw [← block_modifyBlock_eq_map]
  rfl

/-- A free operation is appended to a known block. -/
theorem appendOp_eq_ok {block : BlockId} {op : OpId} :
    ctx.appendOp block op = .ok ctx' ↔
      ∃ data target, ctx.op op = .ok data ∧ data.parentBlock = none ∧
        ctx.block block = .ok target ∧ ctx' = ctx.place block op (target.ops ++ [op]) := by
  -- The owner decides first, and the block must be known after that.
  have merged {target : Block} (known : ctx.block block = .ok target) :
      (ctx.modifyBlock block fun data => { data with ops := data.ops ++ [op] }) =
        ctx.modifyBlock block ({ · with ops := target.ops ++ [op] }) := by
    refine modifyBlock_congr fun data found => ?_
    rw [known] at found
    cases found
    rfl
  unfold appendOp
  rw [bind_eq_ok]
  constructor
  · intro done
    obtain ⟨data, found, rest⟩ := done
    split at rest
    · cases rest
    · rename_i unowned
      obtain ⟨target, known, made⟩ := bind_eq_ok.mp rest
      cases made
      refine ⟨data, target, found, ?_, known, by rw [merged known, place]⟩
      exact Option.eq_none_iff_forall_ne_some.mpr unowned
  · intro ready
    obtain ⟨data, target, found, free, known, rfl⟩ := ready
    refine ⟨data, found, ?_⟩
    rw [free]
    refine bind_eq_ok.mpr ⟨target, known, ?_⟩
    rw [merged known, place]
    rfl

/-- A free operation is put in front of one that a known block lists. -/
theorem insertOp_eq_ok {block : BlockId} {before op : OpId} :
    ctx.insertOp block before op = .ok ctx' ↔
      ∃ data target ops, ctx.op op = .ok data ∧ data.parentBlock = none ∧
        ctx.block block = .ok target ∧ insertBefore before op target.ops = some ops ∧
        ctx' = ctx.place block op ops := by
  -- The owner decides first, then the block, and then its list.
  unfold insertOp
  rw [bind_eq_ok]
  constructor
  · intro done
    obtain ⟨data, found, rest⟩ := done
    split at rest
    · cases rest
    · rename_i unowned
      obtain ⟨target, known, rest⟩ := bind_eq_ok.mp rest
      split at rest
      · rename_i ops inserted
        cases rest
        exact ⟨data, target, ops, found, Option.eq_none_iff_forall_ne_some.mpr unowned, known,
          inserted, rfl⟩
      · cases rest
  · intro ready
    obtain ⟨data, target, ops, found, free, known, inserted, rfl⟩ := ready
    refine ⟨data, found, ?_⟩
    rw [free]
    refine bind_eq_ok.mpr ⟨target, known, ?_⟩
    rw [inserted]
    rfl

/-- An operation is taken out of a block exactly when both are known. -/
theorem detachOp_eq_ok {block : BlockId} {op : OpId} :
    ctx.detachOp block op = .ok ctx' ↔
      ∃ data target, ctx.op op = .ok data ∧ ctx.block block = .ok target ∧
        ctx' = ctx.displace block op := by
  -- An operation with another owner keeps it, which a conditional change says as well.
  have merged {data : Operation} (found : ctx.op op = .ok data) :
      ctx.displace block op =
        let freed := ctx.modifyBlock block fun data => { data with ops := data.ops.filter (· ≠ op) }
        if data.parentBlock = some block then freed.modifyOp op ({ · with parentBlock := none })
        else freed := by
    unfold displace
    split
    · rename_i owned
      refine modifyOp_congr fun held same => ?_
      cases found.symm.trans same
      rw [if_pos owned]
    · rename_i other
      refine Eq.trans (modifyOp_congr fun held same => ?_) (modifyOp_id op)
      cases found.symm.trans same
      rw [if_neg other]
  unfold detachOp
  simp only [bind_eq_ok]
  constructor
  -- The block is asked for first, and then the operation.
  · intro done
    obtain ⟨target, known, data, found, made⟩ := done
    refine ⟨data, target, found, known, ?_⟩
    rw [merged found]
    split at made <;> cases made <;> simp_all
  · intro ready
    obtain ⟨data, target, found, known, rfl⟩ := ready
    refine ⟨target, known, data, found, ?_⟩
    rw [merged found]
    split <;> rfl

/-- A free operation with unused results leaves the program, and its operands are forgotten. -/
theorem discardOp_eq_ok {op : OpId} :
    ctx.discardOp op = .ok ctx' ↔
      ∃ data, ctx.op op = .ok data ∧ data.parentBlock = none ∧
        (∀ value ∈ data.results, ctx.usesOf value = []) ∧
        ctx' = { ctx with uses := ctx.uses.forgetAll op data.operands } := by
  -- The owner decides first, and then the first result that is used.
  unfold discardOp
  rw [bind_eq_ok]
  constructor
  · intro done
    obtain ⟨data, found, rest⟩ := done
    cases owner : data.parentBlock with
    | some block =>
      rw [owner] at rest
      cases rest
    | none =>
      cases used : data.results.find? ctx.isUsed with
      | some value =>
        rw [owner, used] at rest
        cases rest
      | none =>
        rw [owner, used] at rest
        cases rest
        exact ⟨data, found, owner, by simpa [isUsed] using used, rfl⟩
  · intro ready
    obtain ⟨data, found, free, unused, rfl⟩ := ready
    refine ⟨data, found, ?_⟩
    have absent : data.results.find? ctx.isUsed = none := by simpa [isUsed] using unused
    rw [free, absent]
    rfl

/-- A known operation is edited in its own data alone. -/
theorem editOp_eq_ok {op : OpId} {edit : OpEdit} :
    ctx.editOp op edit = .ok ctx' ↔
      ∃ data, ctx.op op = .ok data ∧ ctx' = ctx.modifyOp op edit.apply := by
  unfold editOp
  rw [bind_eq_ok]
  simp only [Pure.pure, Except.pure, Except.ok.injEq, eq_comm (a := ctx')]

end Move

section Redirect

/-- The operands of an operation after some of its slots have been filled with a value. -/
def refill (slots : List Use) (new : ValueId) (op : OpId) (operands : List ValueId) :
    List ValueId :=
  operands.mapIdx fun index value => if ⟨op, index⟩ ∈ slots then new else value

/-- Without slots to fill, operands stay as they are. -/
theorem refill_nil (new : ValueId) (op : OpId) (operands : List ValueId) :
    refill [] new op operands = operands := by
  refine List.ext_getElem? fun index => ?_
  simp [refill]

/-- A slot of the operation itself is filled in its operands. -/
theorem refill_cons_self (slot : Use) (rest : List Use) (new : ValueId) (operands : List ValueId) :
    refill (slot :: rest) new slot.user operands =
      refill rest new slot.user (operands.set slot.index new) := by
  -- A slot that is filled twice holds the new value in either order.
  obtain ⟨op, place⟩ := slot
  refine List.ext_getElem? fun index => ?_
  simp only [refill, List.getElem?_mapIdx, List.getElem?_set, List.mem_cons, Use.mk.injEq]
  by_cases here : index = place
  · subst here
    by_cases inside : index < operands.length <;> simp [inside]
  · simp [here, Ne.symm here]

/-- A slot of another operation leaves the operands alone. -/
theorem refill_cons_other {slot : Use} {op : OpId} (other : op ≠ slot.user) (rest : List Use)
    (new : ValueId) (operands : List ValueId) :
    refill (slot :: rest) new op operands = refill rest new op operands := by
  -- The first slot has another user, so that no position of this operation matches it.
  obtain ⟨user, place⟩ := slot
  simp only [refill, List.mem_cons, Use.mk.injEq]
  simp [other]

/-- Filling slots one after the other fills them all, and leaves all other data alone. -/
theorem op_foldl_setOperand (slots : List Use) (new : ValueId) (op : OpId) :
    (slots.foldl (setOperand new) ctx).op op =
      (ctx.op op).map fun data => { data with operands := refill slots new op data.operands } := by
  -- Each slot is one place in the operands of one operation.
  induction slots generalizing ctx with
  | nil =>
    rw [List.foldl_nil]
    cases ctx.op op <;> simp [refill_nil, Except.map]
  | cons slot rest ih =>
    rw [List.foldl_cons, ih, setOperand, op_modifyOp]
    by_cases same : op = slot.user
    · subst same
      cases ctx.op slot.user <;> simp [Except.map, refill_cons_self]
    · cases ctx.op op <;> simp [same, Except.map, refill_cons_other same]

/-- Filling slots changes no table but that of the operations. -/
theorem foldl_setOperand_tables (ctx : Context) (slots : List Use) (new : ValueId) :
    slots.foldl (setOperand new) ctx =
      { ctx with ops := (slots.foldl (setOperand new) ctx).ops } := by
  -- Each step changes the operations alone.
  induction slots generalizing ctx with
  | nil => rfl
  | cons slot rest ih => rw [List.foldl_cons, ih, setOperand, modifyOp]

/-- A value is redirected in the slots that its chain lists, and in no others. -/
theorem op_redirectUses {old new : ValueId} (differ : old ≠ new) (op : OpId) :
    (ctx.redirectUses old new).op op =
      (ctx.op op).map fun data =>
        { data with operands := refill (ctx.usesOf old) new op data.operands } := by
  -- The slots are filled in the order in which the chain lists them.
  have filled : (ctx.redirectUses old new).ops =
      ((ctx.usesOf old).foldl (setOperand new) ctx).ops := by
    simp only [redirectUses, if_neg differ]
  rw [op_congr filled, op_foldl_setOperand]

/-- Redirecting a value changes nothing but operands and chains. -/
theorem redirectUses_tables {old new : ValueId} (differ : old ≠ new) :
    ctx.redirectUses old new = { ctx with
      ops := (ctx.redirectUses old new).ops
      uses := (ctx.uses.set old []).set new (ctx.usesOf new ++ ctx.usesOf old) } := by
  have tables := foldl_setOperand_tables ctx (ctx.usesOf old) new
  simp only [redirectUses, if_neg differ]
  generalize (ctx.usesOf old).foldl (setOperand new) ctx = filled at tables ⊢
  rw [tables]

/-- Redirecting a value leaves all tables alone but those of operations and chains. -/
theorem redirectUses_frame (ctx : Context) (old new : ValueId) :
    (ctx.redirectUses old new).values = ctx.values ∧
      (ctx.redirectUses old new).blocks = ctx.blocks ∧
      (ctx.redirectUses old new).regions = ctx.regions ∧
      (ctx.redirectUses old new).types = ctx.types := by
  -- Filling slots touches operations, and the chains are set afterwards.
  by_cases differ : old = new
  · simp [redirectUses, differ]
  · rw [redirectUses_tables differ]
    exact ⟨rfl, rfl, rfl, rfl⟩

/-- The chain of a redirected value becomes empty and is appended to that of the new value. -/
theorem usesOf_redirectUses {old new : ValueId} (differ : old ≠ new) (value : ValueId) :
    (ctx.redirectUses old new).usesOf value =
      if value = new then ctx.usesOf new ++ ctx.usesOf old
      else if value = old then [] else ctx.usesOf value := by
  have chains : (ctx.redirectUses old new).uses = _ :=
    congrArg Context.uses (redirectUses_tables differ)
  simp only [usesOf, chains, UseChains.get_set]

end Redirect

section Change

/--
The ways in which a request changes a program.

Either it makes an entity, or it moves an operation in or out of a block, or it leaves all tables
but that of the operations alone.
-/
inductive Change (ctx : Context) (request : Request) (ctx' : Context) : Prop where
  /-- An operation is made. -/
  | madeOp (spec : OpSpec) (op : OpId) (asked : request = .addOp spec)
    (added : ctx.addOp spec = .ok (op, ctx'))
  /-- A block is made. -/
  | madeBlock (spec : BlockSpec) (block : BlockId) (asked : request = .addBlock spec)
    (added : ctx.addBlock spec = .ok (block, ctx'))
  /-- A region is made. -/
  | madeRegion (data : Region) (region : RegionId) (asked : request = .addRegion data)
    (added : ctx.addRegion data = .ok (region, ctx'))
  /-- A free operation is put between others of a block. -/
  | attached (block : BlockId) (op : OpId) (data : Operation) (target : Block)
    (front back : List OpId) (asked : request.attachment? = some (block, op))
    (found : ctx.op op = .ok data) (free : data.parentBlock = none)
    (known : ctx.block block = .ok target) (split : target.ops = front ++ back)
    (placed : ctx' = ctx.place block op (front ++ op :: back))
  /-- An operation is taken out of a block. -/
  | detached (block : BlockId) (op : OpId) (data : Operation) (target : Block)
    (asked : request = .detachOp block op) (found : ctx.op op = .ok data)
    (known : ctx.block block = .ok target) (displaced : ctx' = ctx.displace block op)
  /-- Operations are changed in themselves, and but for direct edits only in their operands. -/
  | rewritten (change : OpId → Operation → Operation) (asked : request.attachment? = none)
    (ops : ∀ op, ctx'.op op = (ctx.op op).map (change op))
    (kept : request.isEdit = false → ∀ op data, ∃ operands, change op data = { data with operands })
    (results : request.keepsUses → ∀ op data, (change op data).results = data.results)
    (values : ctx'.values = ctx.values) (blocks : ctx'.blocks = ctx.blocks)
    (regions : ctx'.regions = ctx.regions)

/-- A request that leaves the operations alone as well changes them in no way. -/
theorem Change.of_ops {request : Request} (asked : request.attachment? = none)
    (ops : ctx'.ops = ctx.ops) (values : ctx'.values = ctx.values)
    (blocks : ctx'.blocks = ctx.blocks) (regions : ctx'.regions = ctx.regions) :
    Change ctx request ctx' :=
  .rewritten (fun _ data => data) asked (fun op => by rw [op_congr ops, map_self])
    (fun _ _ data => ⟨data.operands, rfl⟩) (fun _ _ _ => rfl) values blocks regions

/-- Every request that is carried out changes the program in one of these ways. -/
theorem change_of_perform {request : Request} (done : ctx.perform request = .ok ctx') :
    Change ctx request ctx' := by
  -- Each request is matched with what its inversion lemma says.
  cases request with
  -- What is made is made as it was asked for.
  | addOp spec =>
    obtain ⟨op, added⟩ := perform_addOp.mp done
    exact .madeOp spec op rfl added
  | addBlock spec =>
    obtain ⟨block, added⟩ := perform_addBlock.mp done
    exact .madeBlock spec block rfl added
  | addRegion data =>
    obtain ⟨region, added⟩ := perform_addRegion.mp done
    exact .madeRegion data region rfl added
  -- The end of the block is a place in front of nothing.
  | appendOp block op =>
    obtain ⟨data, target, found, free, known, rfl⟩ := appendOp_eq_ok.mp done
    exact .attached block op data target target.ops [] rfl found free known (by simp) rfl
  | insertOp block before op =>
    obtain ⟨data, target, ops, found, free, known, inserted, rfl⟩ := insertOp_eq_ok.mp done
    -- The place in front of an operation splits the list there.
    obtain ⟨front, back, -, split, rfl⟩ := insertBefore_eq_some_iff.mp inserted
    exact .attached block op data target front (before :: back) rfl found free known split rfl
  | detachOp block op =>
    obtain ⟨data, target, found, known, displaced⟩ := detachOp_eq_ok.mp done
    exact .detached block op data target rfl found known displaced
  | discardOp op =>
    obtain ⟨data, -, -, -, rfl⟩ := discardOp_eq_ok.mp done
    exact .of_ops rfl rfl rfl rfl rfl
  | redirectUses old new =>
    cases done
    -- Redirecting a value to itself is the one case in which nothing happens.
    by_cases differ : old = new
    · have same : ctx.redirectUses old new = ctx := by rw [redirectUses, if_pos differ]
      rw [same]
      exact .of_ops rfl rfl rfl rfl rfl
    · obtain ⟨values, blocks, regions, -⟩ := ctx.redirectUses_frame old new
      exact .rewritten _ rfl (op_redirectUses differ) (fun _ _ _ => ⟨_, rfl⟩) (fun _ _ _ => rfl)
        values blocks regions
  | editOp op edit =>
    -- An edit maps one operation and leaves all others.
    obtain ⟨data, -, rfl⟩ := editOp_eq_ok.mp done
    refine .rewritten _ rfl (fun other => op_modifyOp_eq_map op other edit.apply) nofun ?_ rfl rfl
      rfl
    intro _ other data
    split
    · cases edit <;> rfl
    · rfl
  | replaceOp op data =>
    obtain ⟨old, -, rfl⟩ := perform_replaceOp.mp done
    exact .rewritten _ rfl (fun other => op_modifyOp_eq_map op other fun _ => data) nofun nofun rfl
      rfl rfl
  | internType data =>
    cases done
    exact .of_ops rfl rfl rfl rfl rfl
  | setDialects dialects =>
    cases done
    exact .of_ops rfl rfl rfl rfl rfl

end Change

end NestedIR.Context
