import NestedIR.Proofs.Context.UseChains

/-! Redirecting a value by its use chain does what a scan of all operations would do. -/

namespace NestedIR

/-- The operation that a request takes out of the program, if it does so. -/
def Request.discarded? : Request → Option OpId
  | .discardOp op => some op
  | _ => none

namespace Context

/-- The operations that some requests take out of the program. -/
def discardedBy (requests : List Request) : List OpId := requests.filterMap Request.discarded?

/-- An operation is taken out by exactly the requests that ask for it. -/
theorem mem_discardedBy {requests : List Request} {op : OpId} :
    op ∈ discardedBy requests ↔ .discardOp op ∈ requests := by
  rw [discardedBy, List.mem_filterMap]
  constructor
  · intro asked
    obtain ⟨request, member, same⟩ := asked
    cases request <;> cases same
    exact member
  · exact fun member => ⟨_, member, rfl⟩

/-- The operands with one value in the place of another. -/
def substitute (old new : ValueId) (operands : List ValueId) : List ValueId :=
  operands.map fun value => if value = old then new else value

/-- The operations where a scan of all but some puts one value in the place of another. -/
def scanOps (ctx : Context) (leftOut : List OpId) (old new : ValueId) : Array Operation :=
  ctx.ops.mapIdx fun index data =>
    if ⟨index⟩ ∈ leftOut then data
    else { data with operands := substitute old new data.operands }

/-- An operation that the scan comes by differs in its operands alone, and no other one differs. -/
theorem op_of_scanOps {ctx ctx' : Context} {leftOut : List OpId} {old new : ValueId}
    (scanned : ctx'.ops = ctx.scanOps leftOut old new) (op : OpId) :
    ctx'.op op = (ctx.op op).map fun data =>
      if op ∈ leftOut then data
      else { data with operands := substitute old new data.operands } := by
  rw [Context.op, Context.op, scanned, scanOps, Array.getElem?_mapIdx]
  cases ctx.ops[op.index]? <;> rfl

/-- Programs with the same operations have one table of operations. -/
theorem ops_eq_of_op {ctx ctx' : Context} (same : ∀ op, ctx'.op op = ctx.op op) :
    ctx'.ops = ctx.ops := by
  refine Array.ext_getElem? fun index => Option.ext fun data => ?_
  have known : ctx'.op ⟨index⟩ = .ok data ↔ ctx'.ops[index]? = some data := op_eq_ok_iff
  rw [← known, same, op_eq_ok_iff]

/--
One value is put in the place of another, as a scan of all operations but some would do it.

The chain of the replaced value moves behind that of the new one, and nothing else changes.
-/
structure Substituted (leftOut : List OpId) (old new : ValueId) (ctx ctx' : Context) : Prop where
  /-- The operations are those that the scan leaves. -/
  ops : ctx'.ops = ctx.scanOps leftOut old new
  /-- The replaced value is no longer used. -/
  old_unused : ctx'.usesOf old = []
  /-- The new value keeps its uses and gets those of the replaced one behind them, in order. -/
  new_used : ctx'.usesOf new = ctx.usesOf new ++ ctx.usesOf old
  /-- No other value is used differently. -/
  others : ∀ value, value ≠ old → value ≠ new → ctx'.usesOf value = ctx.usesOf value
  /-- All else stays as it is. -/
  rest : ctx' = { ctx with ops := ctx'.ops, uses := ctx'.uses }

namespace UsesExact

variable {discarded : OpId → Prop} {ctx : Context}

/-- The chain of a value lists the slots of an operation where a scan would find the value. -/
theorem refill_eq_substitute (exact : UsesExact discarded ctx) {op : OpId} {data : Operation}
    (found : ctx.op op = .ok data) (kept : ¬ discarded op) (old new : ValueId) :
    refill (ctx.usesOf old) new op data.operands = substitute old new data.operands := by
  -- Position by position, being listed and holding the value are the same.
  refine List.ext_getElem? fun index => ?_
  simp only [refill, substitute, List.getElem?_mapIdx, List.getElem?_map]
  cases held : data.operands[index]? with
  | none => rfl
  | some value =>
    have listed : ⟨op, index⟩ ∈ ctx.usesOf old ↔ value = old := by
      rw [exact.mem_iff, operand?, found]
      simp [held, kept]
    simp [listed]

/-- No chain lists a slot of a discarded operation. -/
theorem refill_eq_self (exact : UsesExact discarded ctx) {op : OpId} (gone : discarded op)
    (old new : ValueId) (operands : List ValueId) :
    refill (ctx.usesOf old) new op operands = operands := by
  -- What has been taken out is in no chain.
  have unlisted (index : Nat) : ⟨op, index⟩ ∉ ctx.usesOf old :=
    fun listed => ((exact.mem_iff old ⟨op, index⟩).mp listed).2 gone
  refine List.ext_getElem? fun index => ?_
  simp [refill, unlisted]

/-- Where chains are exact, following one and scanning all operations leaves the same table. -/
theorem ops_redirectUses (exact : UsesExact discarded ctx) {leftOut : List OpId}
    (agree : ∀ op, op ∈ leftOut ↔ discarded op) {old new : ValueId} (differ : old ≠ new) :
    (ctx.redirectUses old new).ops = ctx.scanOps leftOut old new := by
  -- Both tables are compared one operation at a time.
  let scanned : Context := { ctx with ops := ctx.scanOps leftOut old new }
  have reads : scanned.ops = ctx.scanOps leftOut old new := rfl
  refine reads ▸ ops_eq_of_op fun op => ?_
  rw [op_redirectUses differ, op_of_scanOps reads]
  cases found : ctx.op op with
  | error fault => rfl
  | ok data =>
    simp only [Except.map, Except.ok.injEq]
    by_cases gone : discarded op
    · rw [if_pos ((agree op).mpr gone), exact.refill_eq_self gone]
    · rw [if_neg (mt (agree op).mp gone), exact.refill_eq_substitute found gone]

end UsesExact

/--
After any requests that are carried out, redirecting a value by its use chain does what a scan of
all operations that were never discarded would do, whether or not the two values are made yet.
-/
theorem redirectUses_of_build {requests : List Request} {ctx : Context}
    (keep : ∀ request ∈ requests, request.keepsUses) (built : build requests = .ok ctx)
    (old new : ValueId) :
    (old = new → ctx.redirectUses old new = ctx) ∧
      (old ≠ new →
        Substituted (discardedBy requests) old new ctx (ctx.redirectUses old new)) := by
  -- The chains record exactly the uses of the operations that were never discarded.
  have exact := UsesExact.of_build keep built
  refine ⟨fun same => by rw [redirectUses, if_pos same], fun differ => ?_⟩
  -- Where the values differ, all other tables stay and the chains are known one by one.
  have chains := @usesOf_redirectUses ctx old new differ
  exact {
    ops := exact.ops_redirectUses (fun op => mem_discardedBy) differ
    old_unused := by rw [chains, if_neg differ, if_pos rfl]
    new_used := by rw [chains, if_pos rfl]
    others := fun value notOld notNew => by rw [chains, if_neg notNew, if_neg notOld]
    rest := by rw [redirectUses_tables differ] }

/-- A value that is not made yet hands its slots to a result of the operation that has them. -/
theorem redirectUses_of_build_redirectedLoop :
    (∀ request ∈ redirectedLoop, request.keepsUses) ∧
      ∃ ctx, build redirectedLoop = .ok ctx ∧ ctx.redirectUses ⟨7⟩ ⟨7⟩ = ctx ∧
        Substituted (discardedBy redirectedLoop) ⟨7⟩ ⟨0⟩ ctx (ctx.redirectUses ⟨7⟩ ⟨0⟩) := by
  have keep : ∀ request ∈ redirectedLoop, request.keepsUses := by decide
  exact ⟨keep, _, rfl, (redirectUses_of_build keep rfl ⟨7⟩ ⟨7⟩).1 rfl,
    (redirectUses_of_build keep rfl ⟨7⟩ ⟨0⟩).2 (by decide)⟩

/-- The loop then reads its own result three times, and the discarded operation what it read. -/
example : (build redirectedLoop).toOption.map
    (fun ctx => (ctx.redirectUses ⟨7⟩ ⟨0⟩).ops.toList.map fun data => data.operands) =
      some [[⟨0⟩, ⟨0⟩, ⟨0⟩], [⟨0⟩]] := by
  decide

end Context

end NestedIR
