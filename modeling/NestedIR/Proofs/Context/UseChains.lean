import Mathlib.Data.List.Nodup
import Mathlib.Tactic.Tauto
import NestedIR.Proofs.Context.Effect

/-! Use chains list exactly the operand slots of the operations that were never discarded. -/

namespace NestedIR

namespace UseChains

/-- The slots of an operation are its positions, each with the operand that stands there. -/
theorem mem_slots {user : OpId} {operands : List ValueId} {value : ValueId} {use : Use} :
    (value, use) ∈ slots user operands ↔
      use.user = user ∧ operands[use.index]? = some value := by
  -- Positions are counted from zero along the list.
  obtain ⟨owner, index⟩ := use
  simp only [slots, List.mem_map, Prod.exists, List.mem_zipIdx_iff_getElem?, Prod.mk.injEq,
    Use.mk.injEq]
  constructor
  · intro slot
    obtain ⟨held, place, found, rfl, rfl, rfl⟩ := slot
    exact ⟨rfl, found⟩
  · intro slot
    obtain ⟨rfl, found⟩ := slot
    exact ⟨value, index, found, rfl, rfl, rfl⟩

/-- No slot of an operation comes twice. -/
theorem nodup_slots (user : OpId) (operands : List ValueId) : (slots user operands).Nodup := by
  -- Slots are told apart by their positions, which count upwards.
  have positions : ((slots user operands).map fun slot => slot.2.index) =
      List.range' 0 operands.length := by
    rw [slots, List.map_map]
    exact List.zipIdx_map_snd 0 operands
  have distinct : ((slots user operands).map fun slot => slot.2.index).Nodup := by
    rw [positions]
    exact List.nodup_range'
  exact List.Nodup.of_map _ distinct

/-- Recording an operation appends to each chain the slots that hold its value. -/
theorem mem_get_recordAll {uses : UseChains} {user : OpId} {operands : List ValueId}
    {value : ValueId} {use : Use} :
    use ∈ (uses.recordAll user operands).get value ↔
      use ∈ uses.get value ∨ use.user = user ∧ operands[use.index]? = some value := by
  rw [recordAll, get_foldl_record, List.mem_append, ← mem_slots]
  simp

/-- Forgetting an operation takes its slots out of each chain. -/
theorem get_forgetAll (uses : UseChains) (user : OpId) (operands : List ValueId)
    (value : ValueId) :
    (uses.forgetAll user operands).get value =
      (uses.get value).filter fun use =>
        ¬ (use.user = user ∧ operands[use.index]? = some value) := by
  -- Each slot of the operation is taken out of the chain of its value.
  rw [forgetAll, get_foldl_forget]
  refine List.filter_congr fun use _ => ?_
  simp [mem_slots]

/-- Recording an operation that no chain knows yet keeps the chains free of repetition. -/
theorem nodup_get_recordAll {uses : UseChains} {user : OpId} {operands : List ValueId}
    {value : ValueId} (distinct : (uses.get value).Nodup)
    (unknown : ∀ use ∈ uses.get value, use.user ≠ user) :
    ((uses.recordAll user operands).get value).Nodup := by
  rw [recordAll, get_foldl_record, List.nodup_append]
  refine ⟨distinct, ?_, ?_⟩
  · -- Slots with one value are told apart by what is left of them.
    refine List.Nodup.map_on ?_ (List.Nodup.filter _ (nodup_slots user operands))
    intro slot member other otherMember same
    simp only [List.mem_filter, decide_eq_true_eq] at member otherMember
    exact Prod.ext (member.2.trans otherMember.2.symm) same
  · intro known member new newMember same
    obtain ⟨slot, slotMember, rfl⟩ := List.mem_map.mp newMember
    have owner := (mem_slots.mp (List.mem_filter.mp slotMember).1).1
    exact unknown known member (same ▸ owner)

end UseChains

namespace Context

/-- The value in an operand slot, if there is such a slot. -/
def operand? (ctx : Context) (slot : Use) : Option ValueId :=
  match ctx.op slot.user with
  | .ok data => data.operands[slot.index]?
  | .error _ => none

/-- A slot holds a value exactly when its operation is known and has that operand. -/
theorem operand?_eq_some_iff {ctx : Context} {slot : Use} {value : ValueId} :
    ctx.operand? slot = some value ↔
      ∃ data, ctx.op slot.user = .ok data ∧ data.operands[slot.index]? = some value := by
  rw [operand?]
  cases ctx.op slot.user <;> simp

/-- Slots are not affected where every operation keeps its operands. -/
theorem operand?_congr {ctx ctx' : Context} {change : OpId → Operation → Operation}
    (after : ∀ op, ctx'.op op = (ctx.op op).map (change op))
    (kept : ∀ op data, (change op data).operands = data.operands) (slot : Use) :
    ctx'.operand? slot = ctx.operand? slot := by
  rw [operand?, operand?, after]
  cases ctx.op slot.user <;> simp [Except.map, kept]

/--
The chains list the operand slots of all operations but the discarded ones, and each slot once.

Only a known operation can be discarded, so that no operation is discarded before it is made.
-/
structure UsesExact (discarded : OpId → Prop) (ctx : Context) : Prop where
  /-- A chain lists the slots that hold its value. -/
  mem_iff : ∀ value use,
    use ∈ ctx.usesOf value ↔ ctx.operand? use = some value ∧ ¬ discarded use.user
  /-- A chain lists no slot twice. -/
  nodup : ∀ value, (ctx.usesOf value).Nodup
  /-- What is discarded is known. -/
  known : ∀ op, discarded op → ∃ data, ctx.op op = .ok data

namespace UsesExact

variable {discarded : OpId → Prop} {ctx ctx' : Context}

/-- Nothing is lost where all operations keep their operands and all chains stay. -/
theorem congr (exact : UsesExact discarded ctx) (change : OpId → Operation → Operation)
    (after : ∀ op, ctx'.op op = (ctx.op op).map (change op))
    (kept : ∀ op data, (change op data).operands = data.operands)
    (chains : ctx'.uses = ctx.uses) : UsesExact discarded ctx' where
  mem_iff value use := by
    -- Slots and chains are both the same as before.
    rw [usesOf, chains, operand?_congr after kept]
    exact exact.mem_iff value use
  nodup value := by
    rw [usesOf, chains]
    exact exact.nodup value
  known op member := by
    obtain ⟨data, found⟩ := exact.known op member
    exact ⟨change op data, by rw [after, found]; rfl⟩

/-- Nothing is lost where the data of one operation change but for its operands. -/
theorem modifyOp (exact : UsesExact discarded ctx) (op : OpId) {change : Operation → Operation}
    (kept : ∀ data, (change data).operands = data.operands) :
    UsesExact discarded (ctx.modifyOp op change) := by
  -- All other operations stay as they are, and this one keeps its operands.
  refine exact.congr (fun other data => if other = op then change data else data)
    (fun other => ?_) (fun other data => ?_) rfl
  · rw [op_modifyOp_eq_map]
  · split
    · exact kept data
    · rfl

/-- Nothing is lost where operations and chains stay. -/
theorem congr_ops (exact : UsesExact discarded ctx) (ops : ctx'.ops = ctx.ops)
    (chains : ctx'.uses = ctx.uses) : UsesExact discarded ctx' := by
  refine exact.congr (fun _ data => data) (fun op => ?_) (fun _ _ => rfl) chains
  rw [op_congr ops, map_self]

/-- Putting an operation into a block leaves operands alone. -/
theorem place (exact : UsesExact discarded ctx) (block : BlockId) (op : OpId) (ops : List OpId) :
    UsesExact discarded (ctx.place block op ops) := by
  have listed : UsesExact discarded (ctx.modifyBlock block ({ · with ops })) :=
    exact.congr_ops rfl rfl
  exact listed.modifyOp op fun _ => rfl

/-- Taking an operation out of a block leaves operands alone. -/
theorem displace (exact : UsesExact discarded ctx) (block : BlockId) (op : OpId) :
    UsesExact discarded (ctx.displace block op) := by
  -- Both the list of the block and the owner change, but no operand does.
  have unlisted : UsesExact discarded
      (ctx.modifyBlock block fun data => { data with ops := data.ops.filter (· ≠ op) }) :=
    exact.congr_ops rfl rfl
  refine unlisted.modifyOp op fun data => ?_
  split <;> rfl

/-- A new operation appends its slots to the chains. -/
theorem addOp (exact : UsesExact discarded ctx) {spec : OpSpec} {op : OpId}
    (added : ctx.addOp spec = .ok (op, ctx')) : UsesExact discarded ctx' := by
  obtain ⟨rfl, -, -, -, -, tables⟩ := addOp_eq_ok added
  have ops : ctx'.ops = ctx.ops.push (ctx.newOp spec) := congrArg Context.ops tables
  have uses : ctx'.uses = ctx.uses.recordAll ⟨ctx.ops.size⟩ spec.operands :=
    congrArg Context.uses tables
  -- The new number was never given to an operation, so it has no slots and is not discarded.
  have unknown : ∀ data, ctx.op ⟨ctx.ops.size⟩ ≠ .ok data :=
    fun data found => op_ne_next found rfl
  have slots (use : Use) (value : ValueId) : ctx'.operand? use = some value ↔
      ctx.operand? use = some value ∨
        use.user = ⟨ctx.ops.size⟩ ∧ spec.operands[use.index]? = some value := by
    simp only [operand?_eq_some_iff, op_eq_ok_of_push ops]
    constructor
    · intro held
      obtain ⟨data, found | ⟨fresh, rfl⟩, here⟩ := held
      · exact .inl ⟨data, found, here⟩
      · exact .inr ⟨fresh, here⟩
    · intro held
      obtain ⟨data, found, here⟩ | ⟨fresh, here⟩ := held
      · exact ⟨data, .inl found, here⟩
      · exact ⟨ctx.newOp spec, .inr ⟨fresh, rfl⟩, here⟩
  -- The chains gain the operands of the new operation, and nothing else.
  refine ⟨fun value use => ?_, fun value => ?_, fun op member => ?_⟩
  · rw [usesOf, uses, UseChains.mem_get_recordAll, slots, ← usesOf, exact.mem_iff]
    constructor
    · intro listed
      obtain ⟨held, kept⟩ | ⟨fresh, here⟩ := listed
      · exact ⟨.inl held, kept⟩
      · refine ⟨.inr ⟨fresh, here⟩, fun member => ?_⟩
        obtain ⟨data, found⟩ := exact.known use.user member
        exact unknown data (fresh ▸ found)
    · intro listed
      obtain ⟨held | fresh, kept⟩ := listed
      · exact .inl ⟨held, kept⟩
      · exact .inr fresh
  · rw [usesOf, uses]
    refine UseChains.nodup_get_recordAll (exact.nodup value) fun use listed fresh => ?_
    obtain ⟨data, found, -⟩ := operand?_eq_some_iff.mp ((exact.mem_iff value use).mp listed).1
    exact unknown data (fresh ▸ found)
  · obtain ⟨data, found⟩ := exact.known op member
    exact ⟨data, (op_eq_ok_of_push ops).mpr (.inl found)⟩

/-- A discarded operation takes its slots out of the chains, also when it does so again. -/
theorem discardOp (exact : UsesExact discarded ctx) {op : OpId}
    (done : ctx.discardOp op = .ok ctx') :
    UsesExact (fun other => discarded other ∨ other = op) ctx' := by
  obtain ⟨data, found, -, -, rfl⟩ := discardOp_eq_ok.mp done
  refine ⟨fun value use => ?_, fun value => ?_, fun other member => ?_⟩
  · -- What is filtered out of a chain is what the operation itself holds.
    have own : use.user = op ∧ data.operands[use.index]? = some value ↔
        use.user = op ∧ ctx.operand? use = some value := by
      refine and_congr_right fun same => ?_
      rw [operand?, same, found]
    show use ∈ (ctx.uses.forgetAll op data.operands).get value ↔ ctx.operand? use = some value ∧ _
    rw [UseChains.get_forgetAll, List.mem_filter, ← usesOf, exact.mem_iff]
    simp only [own, decide_eq_true_eq]
    tauto
  · show ((ctx.uses.forgetAll op data.operands).get value).Nodup
    rw [UseChains.get_forgetAll]
    exact (exact.nodup value).filter _
  · rcases member with member | rfl
    · exact exact.known other member
    · exact ⟨data, found⟩

/-- A redirected slot holds the new value, and every other slot what it held before. -/
theorem operand?_redirectUses {old new : ValueId} (differ : old ≠ new) (slot : Use) :
    (ctx.redirectUses old new).operand? slot =
      if slot ∈ ctx.usesOf old then (ctx.operand? slot).map fun _ => new
      else ctx.operand? slot := by
  -- The operands are filled where the chain lists the slot.
  obtain ⟨user, place⟩ := slot
  rw [operand?, operand?, op_redirectUses differ]
  cases ctx.op user with
  | error fault => simp [Except.map]
  | ok data =>
    simp only [Except.map, refill, List.getElem?_mapIdx]
    by_cases listed : ⟨user, place⟩ ∈ ctx.usesOf old <;> simp [listed]

/-- A redirected value hands its slots over to the new value. -/
theorem redirectUses (exact : UsesExact discarded ctx) (old new : ValueId) :
    UsesExact discarded (ctx.redirectUses old new) := by
  by_cases differ : old = new
  · rw [Context.redirectUses, if_pos differ]
    exact exact
  -- A slot moves exactly when it is listed with the old value, which it then holds.
  have slots (use : Use) (value : ValueId) :
      (ctx.redirectUses old new).operand? use = some value ↔
        if use ∈ ctx.usesOf old then value = new else ctx.operand? use = some value := by
    rw [operand?_redirectUses differ]
    split
    · rename_i listed
      simp [((exact.mem_iff old use).mp listed).1, eq_comm]
    · rfl
  refine ⟨fun value use => ?_, fun value => ?_, fun op member => ?_⟩
  · rw [slots, usesOf_redirectUses differ]
    have oldSlot := exact.mem_iff old use
    have newSlot := exact.mem_iff new use
    have valueSlot := exact.mem_iff value use
    -- The new value gains the slots, the old one loses them, and a third keeps its own.
    by_cases isNew : value = new
    · subst isNew
      rw [if_pos rfl, List.mem_append]
      by_cases listed : use ∈ ctx.usesOf old
      · simpa [listed] using (oldSlot.mp listed).2
      · simpa [listed] using newSlot
    · by_cases isOld : value = old
      · subst isOld
        by_cases listed : use ∈ ctx.usesOf value
        · simp [listed, differ]
        · simpa [listed, differ] using oldSlot
      · by_cases listed : use ∈ ctx.usesOf old
        · -- A slot that holds the old value is not among the uses of a third one.
          have held := (oldSlot.mp listed).1
          simp [listed, isNew, isOld, valueSlot, held, Ne.symm isOld]
        · simpa [listed, isNew, isOld] using valueSlot
  · rw [usesOf_redirectUses differ]
    split
    -- No slot holds both values, so the joined chain repeats nothing.
    · refine List.nodup_append.mpr ⟨exact.nodup new, exact.nodup old, ?_⟩
      intro use member other otherMember same
      have held := ((exact.mem_iff new use).mp member).1
      have heldToo := ((exact.mem_iff old other).mp otherMember).1
      rw [same, heldToo] at held
      exact differ (Option.some.inj held)
    · split
      · exact List.nodup_nil
      · exact exact.nodup value
  · obtain ⟨data, found⟩ := exact.known op member
    exact ⟨_, by rw [op_redirectUses differ, found]; rfl⟩

/-- A request keeps the chains exact, and counts an operation that it discards. -/
theorem perform (exact : UsesExact discarded ctx) {request : Request}
    (keeps : request.keepsUses) (done : ctx.perform request = .ok ctx') :
    UsesExact (fun op => discarded op ∨ request = .discardOp op) ctx' := by
  -- Only three requests change chains or operands, and each has a lemma of its own.
  cases request with
  | addOp spec =>
    obtain ⟨op, added⟩ := perform_addOp.mp done
    simpa using exact.addOp added
  | addBlock spec =>
    obtain ⟨block, added⟩ := perform_addBlock.mp done
    obtain ⟨-, -, -, after, tables⟩ := addBlock_eq_ok added
    have chains := congrArg Context.uses tables
    simpa using exact.congr _ after (fun op data => by split <;> rfl) chains
  | addRegion data =>
    obtain ⟨region, added⟩ := perform_addRegion.mp done
    obtain ⟨-, -, -, -, tables⟩ := addRegion_eq_ok added
    have ops := congrArg Context.ops tables
    have chains := congrArg Context.uses tables
    simpa using exact.congr_ops ops chains
  | appendOp block op =>
    obtain ⟨data, target, -, -, -, rfl⟩ := appendOp_eq_ok.mp done
    simpa using exact.place block op (target.ops ++ [op])
  | insertOp block before op =>
    obtain ⟨data, target, ops, -, -, -, -, rfl⟩ := insertOp_eq_ok.mp done
    simpa using exact.place block op ops
  | detachOp block op =>
    obtain ⟨data, target, -, -, rfl⟩ := detachOp_eq_ok.mp done
    simpa using exact.displace block op
  | discardOp op => simpa [eq_comm] using exact.discardOp done
  | redirectUses old new =>
    cases done
    simpa using exact.redirectUses old new
  | editOp op edit =>
    obtain ⟨data, -, rfl⟩ := editOp_eq_ok.mp done
    simpa using exact.modifyOp op fun data => by cases edit <;> rfl
  -- A replacement may change operands under the chains, which is what is excluded.
  | replaceOp op data => cases keeps
  | internType data =>
    cases done
    have kept : UsesExact discarded (ctx.internType data).2 := exact.congr_ops rfl rfl
    simpa using kept
  | setDialects dialects =>
    cases done
    have kept : UsesExact discarded { ctx with dialects } := exact.congr_ops rfl rfl
    simpa using kept

/-- What requests build from nothing has exact chains, up to the operations they discard. -/
theorem of_build {requests : List Request} (keep : ∀ request ∈ requests, request.keepsUses)
    (built : build requests = .ok ctx) : UsesExact (fun op => .discardOp op ∈ requests) ctx := by
  refine performAll_induction (motive := fun requests ctx =>
    (∀ request ∈ requests, request.keepsUses) →
      UsesExact (fun op => .discardOp op ∈ requests) ctx) ?_ ?_ built keep
  · refine fun _ => ⟨fun value use => ?_, fun value => ?_, fun op member => ?_⟩
    · simp [usesOf, UseChains.get, operand?, Context.op]
    · simp [usesOf, UseChains.get]
    · cases member
  · intro requests mid request ctx' exact done keep
    -- The earlier requests keep the chains exact, and so does the last one.
    have earlier := exact fun request member => keep request (by simp [member])
    simpa [or_comm, eq_comm] using earlier.perform (keep request (by simp)) done

end UsesExact

/--
After any requests that are carried out, a chain lists a slot exactly when its operation is known,
was never discarded and has the value as that operand. No chain lists a slot twice.
-/
theorem mem_usesOf_iff_of_build {requests : List Request} {ctx : Context}
    (keep : ∀ request ∈ requests, request.keepsUses) (built : build requests = .ok ctx)
    (value : ValueId) :
    (∀ op index, ⟨op, index⟩ ∈ ctx.usesOf value ↔
      (∃ data, ctx.op op = .ok data ∧ data.operands[index]? = some value) ∧
        .discardOp op ∉ requests) ∧
      (ctx.usesOf value).Nodup := by
  -- The invariant says the same in terms of slots.
  have exact := UsesExact.of_build keep built
  refine ⟨fun op index => ?_, exact.nodup value⟩
  rw [exact.mem_iff, operand?_eq_some_iff]

/-- Requests after which an operation holds a value that is not made yet in three slots. -/
def redirectedLoop : List Request :=
  [.addOp { name := .bare "loop", operands := [⟨0⟩, ⟨0⟩, ⟨7⟩], resultTypes := [⟨0⟩] },
    .addOp { name := .bare "gone", operands := [⟨0⟩] }, .editOp ⟨0⟩ (.setSymbol (some "again")),
    .discardOp ⟨1⟩, .redirectUses ⟨0⟩ ⟨7⟩]

/-- The chain of the redirected value lists the slots of the operation that was not discarded. -/
theorem mem_usesOf_iff_redirectedLoop : (∀ request ∈ redirectedLoop, request.keepsUses) ∧
    ∃ ctx, build redirectedLoop = .ok ctx ∧
      (∀ op index, ⟨op, index⟩ ∈ ctx.usesOf ⟨7⟩ ↔
        (∃ data, ctx.op op = .ok data ∧ data.operands[index]? = some ⟨7⟩) ∧
          .discardOp op ∉ redirectedLoop) ∧
      (ctx.usesOf ⟨7⟩).Nodup :=
  ⟨by decide, _, rfl, mem_usesOf_iff_of_build (by decide) rfl ⟨7⟩⟩

end Context

end NestedIR
