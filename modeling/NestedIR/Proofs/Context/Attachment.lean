import NestedIR.Pass.DeadCode
import NestedIR.Proofs.Context.UseChains

/-! Operations in blocks show their operands in the use chains, unless revived after discard. -/

namespace NestedIR

/-- Whether a request puts an operation into a block. -/
def Request.Attaches (request : Request) (op : OpId) : Prop :=
  (∃ spec, request = .addBlock spec ∧ op ∈ spec.ops) ∨
    ∃ block, request.attachment? = some (block, op)

/-- Whether requests put an operation into a block after they discarded it. -/
def Revived (requests : List Request) (op : OpId) : Prop :=
  ∃ earlier request later, requests = earlier ++ request :: later ∧
    .discardOp op ∈ earlier ∧ request.Attaches op

/-- An operation that was put into a block after it was discarded was discarded. -/
theorem Revived.discarded {requests : List Request} {op : OpId} (revived : Revived requests op) :
    .discardOp op ∈ requests := by
  obtain ⟨earlier, request, later, rfl, discarded, -⟩ := revived
  simp [discarded]

/-- A revived operation stays revived. -/
theorem Revived.concat {requests : List Request} {op : OpId} (revived : Revived requests op)
    (request : Request) : Revived (requests ++ [request]) op := by
  obtain ⟨earlier, attaching, later, rfl, discarded, attaches⟩ := revived
  exact ⟨earlier, attaching, later ++ [request], by simp, discarded, attaches⟩

namespace Context

variable {ctx ctx' : Context} {request : Request}

/-- An operation in a block was in one before, or the last request has put it there. -/
theorem Change.attached_before (change : Change ctx request ctx') (plain : request.isEdit = false)
    {op : OpId} {data : Operation} {block : BlockId} (found : ctx'.op op = .ok data)
    (attached : data.parentBlock = some block) :
    (∃ old, ctx.op op = .ok old ∧ old.parentBlock = some block) ∨ request.Attaches op := by
  -- Owners are set by three requests only, and all others keep or clear them.
  cases change with
  | madeOp spec new asked added =>
    obtain ⟨-, born, -, -, -, tables⟩ := addOp_eq_ok added
    have ops : ctx'.ops = ctx.ops.push (ctx.newOp spec) := by rw [tables]
    rcases (op_eq_ok_of_push ops).mp found with old | ⟨-, rfl⟩
    · exact .inl ⟨data, old, attached⟩
    · -- A new operation is in no block.
      cases born.symm.trans attached
  | madeBlock spec new asked added =>
    obtain ⟨-, -, -, after, -⟩ := addBlock_eq_ok added
    obtain ⟨old, foundOld, rfl⟩ := map_eq_ok.mp ((after op).symm.trans found)
    -- A new block owns what it lists, and nothing else changes hands.
    by_cases claimed : op ∈ spec.ops
    · exact .inr (.inl ⟨spec, asked, claimed⟩)
    · exact .inl ⟨old, foundOld, by simpa [claimed] using attached⟩
  | madeRegion data' region asked added =>
    obtain ⟨-, -, -, -, tables⟩ := addRegion_eq_ok added
    have ops : ctx'.ops = ctx.ops := by rw [tables]
    exact .inl ⟨data, by rw [← op_congr ops, found], attached⟩
  | attached target other data' listed front back asked foundOther free known split placed =>
    subst placed
    rw [op_place, map_eq_ok] at found
    obtain ⟨old, foundOld, rfl⟩ := found
    by_cases same : op = other
    · exact .inr (.inr ⟨target, same ▸ asked⟩)
    · exact .inl ⟨old, foundOld, by simpa [same] using attached⟩
  | detached target other data' listed asked foundOther known displaced =>
    subst displaced
    rw [op_displace, map_eq_ok] at found
    obtain ⟨old, foundOld, rfl⟩ := found
    refine .inl ⟨old, foundOld, ?_⟩
    -- The operation that was displaced has no owner any more.
    dsimp only at attached
    split at attached
    · cases attached
    · exact attached
  | rewritten edit asked ops kept results values blocks regions =>
    obtain ⟨old, foundOld, rfl⟩ := map_eq_ok.mp ((ops op).symm.trans found)
    obtain ⟨operands, same⟩ := kept plain op old
    exact .inl ⟨old, foundOld, by rwa [same] at attached⟩

/-- A discarded operation is in a block only if it was put there after it was discarded. -/
theorem revived_of_build {requests : List Request}
    (plain : ∀ request ∈ requests, request.isEdit = false) (built : build requests = .ok ctx)
    {op : OpId} {data : Operation} {block : BlockId} (found : ctx.op op = .ok data)
    (attached : data.parentBlock = some block) (discarded : .discardOp op ∈ requests) :
    Revived requests op := by
  -- The last request either left the operation in its block or brought it there.
  refine performAll_induction (motive := fun requests ctx =>
    (∀ request ∈ requests, request.isEdit = false) → ∀ data, ctx.op op = .ok data →
      data.parentBlock = some block → .discardOp op ∈ requests → Revived requests op)
    ?_ ?_ built plain data found attached discarded
  · intro _ data found
    simp [Context.op] at found
  · intro requests mid request ctx' earlier done plain data found attached discarded
    have notLast : request ≠ .discardOp op := by
      -- Only an operation in no block can be discarded, and discarding puts it into none.
      rintro rfl
      obtain ⟨old, foundOld, free, -, rfl⟩ := discardOp_eq_ok.mp done
      cases foundOld.symm.trans found
      rw [free] at attached
      cases attached
    have before : .discardOp op ∈ requests := by
      simpa [Ne.symm notLast] using discarded
    rcases (change_of_perform done).attached_before (plain request (by simp)) found attached with
      ⟨old, foundOld, attachedOld⟩ | attaches
    · have plainEarlier : ∀ request ∈ requests, request.isEdit = false :=
        fun request member => plain request (by simp [member])
      exact (earlier plainEarlier old foundOld attachedOld before).concat request
    · exact ⟨requests, request, [], rfl, before, attaches⟩

/--
After any requests without direct edits, an operand slot of an operation in a block is in the chain
of the value that it holds, unless the operation was put into a block after it was discarded. So
whatever is in a block and reads a value without uses has come back in this way.
-/
theorem mem_usesOf_iff_not_revived {requests : List Request} {ctx : Context}
    (plain : ∀ request ∈ requests, request.isEdit = false) (built : build requests = .ok ctx) :
    (∀ op data block index value, ctx.op op = .ok data → data.parentBlock = some block →
      data.operands[index]? = some value →
        (⟨op, index⟩ ∈ ctx.usesOf value ↔ ¬ Revived requests op)) ∧
      ∀ value, ctx.isUsed value = false → ∀ op data block, ctx.op op = .ok data →
        data.parentBlock = some block → value ∈ data.operands → Revived requests op := by
  have keep : ∀ request ∈ requests, request.keepsUses :=
    fun request member => Request.keepsUses_of_plain (plain request member)
  have exact := UsesExact.of_build keep built
  have atSlot (op : OpId) (data : Operation) (block : BlockId) (index : Nat) (value : ValueId)
      (found : ctx.op op = .ok data) (attached : data.parentBlock = some block)
      (here : data.operands[index]? = some value) :
      ⟨op, index⟩ ∈ ctx.usesOf value ↔ ¬ Revived requests op := by
    -- The chains leave out the discarded operations, and in a block those are the revived ones.
    rw [exact.mem_iff]
    constructor
    · exact fun listed revived => listed.2 revived.discarded
    · intro unrevived
      refine ⟨operand?_eq_some_iff.mpr ⟨data, found, here⟩, fun discarded => unrevived ?_⟩
      exact revived_of_build plain built found attached discarded
  refine ⟨atSlot, fun value unused op data block found attached reads => ?_⟩
  -- A slot that is in no chain belongs to a revived operation.
  obtain ⟨index, here⟩ := List.mem_iff_getElem?.mp reads
  have empty : ctx.usesOf value = [] := by simpa [isUsed] using unused
  refine Classical.byContradiction fun unrevived => ?_
  have listed := (atSlot op data block index value found attached here).mpr unrevived
  rw [empty] at listed
  cases listed

/-- Requests for a constant and two uses of it, of which one comes back after it was discarded. -/
def revivedUse : List Request :=
  [.addOp { name := OpKind.constant.opName, resultTypes := [⟨0⟩] },
    .addOp { name := .bare "kept", operands := [⟨0⟩] },
    .addOp { name := .bare "back", operands := [⟨0⟩] }, .addBlock { ops := [⟨0⟩, ⟨1⟩, ⟨2⟩] },
    .detachOp ⟨0⟩ ⟨2⟩, .discardOp ⟨2⟩, .appendOp ⟨0⟩ ⟨2⟩]

/-- Of two operations in the block that use the constant, the chain leaves out the revived one. -/
theorem mem_usesOf_iff_not_revived_revivedUse :
    (∀ request ∈ revivedUse, request.isEdit = false) ∧
      ∃ ctx, build revivedUse = .ok ctx ∧
        (⟨⟨1⟩, 0⟩ ∈ ctx.usesOf ⟨0⟩ ↔ ¬ Revived revivedUse ⟨1⟩) ∧
        (⟨⟨2⟩, 0⟩ ∈ ctx.usesOf ⟨0⟩ ↔ ¬ Revived revivedUse ⟨2⟩) ∧
        ctx.usesOf ⟨0⟩ = [⟨⟨1⟩, 0⟩] := by
  have plain : ∀ request ∈ revivedUse, request.isEdit = false := by decide
  -- Both operations are in the block and read the constant, but the chain has the first one only.
  obtain ⟨ctx, built, kept, back, uses⟩ : ∃ ctx, build revivedUse = .ok ctx ∧
      (∃ data, ctx.op ⟨1⟩ = .ok data ∧ data.parentBlock = some ⟨0⟩ ∧
        data.operands[0]? = some ⟨0⟩) ∧
      (∃ data, ctx.op ⟨2⟩ = .ok data ∧ data.parentBlock = some ⟨0⟩ ∧
        data.operands[0]? = some ⟨0⟩) ∧
      ctx.usesOf ⟨0⟩ = [⟨⟨1⟩, 0⟩] :=
    ⟨_, rfl, ⟨_, rfl, rfl, rfl⟩, ⟨_, rfl, rfl, rfl⟩, by decide +kernel⟩
  -- The chain has an attached use exactly where its operation was not revived.
  obtain ⟨atSlot, -⟩ := mem_usesOf_iff_not_revived plain built
  obtain ⟨keptData, foundKept, keptAttached, keptReads⟩ := kept
  obtain ⟨backData, foundBack, backAttached, backReads⟩ := back
  exact ⟨plain, ctx, built, atSlot _ _ _ _ _ foundKept keptAttached keptReads,
    atSlot _ _ _ _ _ foundBack backAttached backReads, uses⟩

/-- Requests for a function with a constant and the one use of it, which comes back from discard. -/
def orphanedUse : List Request :=
  [.addOp { name := OpKind.constant.opName, resultTypes := [⟨0⟩] },
    .addOp { name := .bare "back", operands := [⟨0⟩] }, .addBlock { ops := [⟨0⟩] },
    .addRegion { blocks := [⟨0⟩] }, .addOp { name := OpKind.func.opName, regions := [⟨0⟩] },
    .discardOp ⟨1⟩, .appendOp ⟨0⟩ ⟨1⟩]

/-- An operation in a block reads a value without uses, and the definition of it is erased. -/
theorem not_visible_orphanedUse :
    (∀ request ∈ orphanedUse, request.isEdit = false) ∧
      ∃ ctx, build orphanedUse = .ok ctx ∧
        (∃ data, ctx.op ⟨1⟩ = .ok data ∧ data.parentBlock = some ⟨0⟩ ∧
          data.operands = [⟨0⟩]) ∧
        ⟨⟨1⟩, 0⟩ ∉ ctx.usesOf ⟨0⟩ ∧ ctx.isUsed ⟨0⟩ = false ∧
        ∃ ctx' block, DeadCode.eliminate {} ⟨2⟩ ctx = .ok (⟨1, 2, true⟩, ctx') ∧
          ctx'.block ⟨0⟩ = .ok block ∧ block.ops = [⟨1⟩] := by
  -- What elimination comes to and leaves in the block is evaluated together.
  have ran : (build orphanedUse >>= fun ctx => DeadCode.eliminate {} ⟨2⟩ ctx >>= fun answer =>
      (answer.2.block ⟨0⟩).map fun block => (answer.1, block.ops)) =
        .ok (⟨1, 2, true⟩, [⟨1⟩]) := by decide +kernel
  obtain ⟨ctx, built, ran⟩ := bind_eq_ok.mp ran
  obtain ⟨⟨result, ctx'⟩, eliminated, ran⟩ := bind_eq_ok.mp ran
  obtain ⟨block, known, left⟩ := map_eq_ok.mp ran
  obtain ⟨rfl, left⟩ := Prod.ext_iff.mp left
  obtain ⟨same, builtSame, attached, unlisted, unused⟩ : ∃ ctx, build orphanedUse = .ok ctx ∧
      (∃ data, ctx.op ⟨1⟩ = .ok data ∧ data.parentBlock = some ⟨0⟩ ∧ data.operands = [⟨0⟩]) ∧
      ⟨⟨1⟩, 0⟩ ∉ ctx.usesOf ⟨0⟩ ∧ ctx.isUsed ⟨0⟩ = false :=
    ⟨_, rfl, ⟨_, rfl, rfl, rfl⟩, by decide +kernel, by decide +kernel⟩
  cases built.symm.trans builtSame
  exact ⟨by decide, ctx, built, attached, unlisted, unused, ctx', block, eliminated, known, left⟩

end Context

end NestedIR
