import NestedIR.Proofs.Context.UseChains
import NestedIR.Proofs.Pass.Folding
import NestedIR.Proofs.Pass.Frame
import NestedIR.Proofs.Pass.Requests

/-! Rewrites keep a program consistent, and leave alone what they do not rewrite. -/

namespace NestedIR

open Relation

/-- A built-in rewrite that applies to an operation and turns one program into another. -/
inductive Rewrite (op : OpId) (ctx ctx' : Context) : Prop where
  /-- An addition of constants is folded. -/
  | fold (block : BlockId) (data : Operation) (sum : Sum) (found : ctx.op op = .ok data)
    (computed : ctx.sum? data = .ok (some sum))
    (performed : ctx.performAll (ctx.foldRequests block op sum) = .ok ctx')
  /-- A dead operation is erased. -/
  | erase (block : BlockId) (data : Operation) (found : ctx.op op = .ok data)
    (dead : ctx.isDead data)
    (performed : ctx.performAll (Context.eraseRequests block op) = .ok ctx')

/-- A program that some rewrites turn into another, all of operations with a property. -/
def Rewrites (touched : OpId → Prop) : Context → Context → Prop :=
  ReflTransGen fun ctx ctx' => ∃ op, touched op ∧ Rewrite op ctx ctx'

namespace Evolves

variable {ctx : Context}

/-- Putting a new constant in front of an operation of a block is a change that rewrites nothing. -/
theorem withConstant (touched : OpId → Prop) {block : BlockId} {op : OpId} {target : Block}
    {front back : List OpId} (known : ctx.block block = .ok target)
    (split : target.ops = front ++ op :: back) (sum : Sum) :
    Evolves touched ctx
      ((ctx.withConstant sum).place block ⟨ctx.ops.size⟩ (front ++ ⟨ctx.ops.size⟩ :: op :: back))
    where
  blocks_size := by
    simp [Context.withConstant, Context.place, Context.modifyOp, Context.modifyBlock]
  regions_eq := rfl
  value_known found := (Context.value_eq_ok_of_define rfl).mpr (.inl found)
  op_known {other data} found := by
    have older := Context.op_ne_next found
    have kept : (ctx.withConstant sum).op other = .ok data :=
      (Context.op_eq_ok_of_push rfl).mpr (.inl found)
    refine ⟨data.operands, data.parentBlock, ?_, .inl rfl, fun _ listed => .inl listed⟩
    rw [Context.op_place, kept]
    simp [Except.map, older]
  op_new {other data} found new := by
    rw [Context.op_place, map_eq_ok] at found
    obtain ⟨old, foundOld, rfl⟩ := found
    rcases (Context.op_eq_ok_of_push rfl).mp foundOld with older | ⟨rfl, rfl⟩
    · exact absurd (Context.index_lt_of_op older) (Nat.not_lt.mpr new)
    · rw [if_pos rfl]
      refine ⟨rfl, fun value listed => ?_⟩
      cases listed
  block_known {other data} found := by
    have placed := @Context.block_place (ctx.withConstant sum) block other ⟨ctx.ops.size⟩
      (front ++ ⟨ctx.ops.size⟩ :: op :: back)
    rw [show (ctx.withConstant sum).block other = .ok data from found] at placed
    -- Only the block that takes the constant changes its list.
    by_cases here : other = block
    · subst here
      rw [found] at known
      cases known
      refine ⟨front ++ ⟨ctx.ops.size⟩ :: op :: back,
        placed.trans (by simp only [Except.map, if_true]), ?_, ?_⟩
      · intro member listed
        simp only [List.mem_append, List.mem_cons] at listed
        rw [split]
        rcases listed with before | rfl | rfl | after
        · simp [before]
        · -- The constant comes in next to the operation, so the list was not empty.
          refine .inr ⟨by simp, Nat.le_refl _, ?_⟩
          simp [Context.withConstant, Context.place, Context.modifyOp, Context.modifyBlock]
        · simp
        · simp [after]
      · intro member listed
        rw [split, List.mem_append, List.mem_cons] at listed
        rcases listed with before | rfl | after
        · simp [before]
        · simp
        · simp [after]
    · exact ⟨data.ops, placed.trans (by simp only [Except.map, here, if_false]),
        fun _ listed => .inl listed, fun _ listed => .inl listed⟩

/-- Redirecting a value to a known one changes nothing but operands. -/
theorem redirectUses (touched : OpId → Prop) (old : ValueId) {new : ValueId} {value : Value}
    (defined : ctx.value new = .ok value) : Evolves touched ctx (ctx.redirectUses old new) := by
  -- Without a difference between the values there is nothing to do.
  by_cases differ : old = new
  · rw [Context.redirectUses, if_pos differ]
    exact refl touched ctx
  · obtain ⟨values, blocks, regions, -⟩ := ctx.redirectUses_frame old new
    have known {op : OpId} {data : Operation}
        (found : (ctx.redirectUses old new).op op = .ok data) :
        ∃ older, ctx.op op = .ok older := by
      rw [Context.op_redirectUses differ, map_eq_ok] at found
      obtain ⟨older, foundOlder, -⟩ := found
      exact ⟨older, foundOlder⟩
    refine ⟨by rw [blocks], regions, fun {value data} found => ?_, ?_, ?_, ?_⟩
    · rw [Context.value_congr values, found]
    · intro op data found
      refine ⟨Context.refill (ctx.usesOf old) new op data.operands, data.parentBlock, ?_, .inl rfl,
        fun read listed => ?_⟩
      · rw [Context.op_redirectUses differ, found]
        rfl
      · -- A slot that is filled anew holds the known value.
        obtain ⟨index, inside, rfl⟩ := List.mem_mapIdx.mp listed
        split
        · exact .inr ⟨value, by rw [Context.value_congr values, defined]⟩
        · exact .inl (List.getElem_mem inside)
    · intro op data found new
      obtain ⟨older, foundOlder⟩ := known found
      exact absurd (Context.index_lt_of_op foundOlder) (Nat.not_lt.mpr new)
    · intro block data found
      exact ⟨data.ops, by rw [Context.block_congr blocks, found],
        fun _ listed => .inl listed, fun _ listed => .inl listed⟩

/-- A constant in a block and in place of a sum is a change that rewrites nothing. -/
theorem withFolded (touched : OpId → Prop) {block : BlockId} {op : OpId} {target : Block}
    {front back : List OpId} (known : ctx.block block = .ok target)
    (split : target.ops = front ++ op :: back) (sum : Sum) :
    Evolves touched ctx (ctx.withFolded sum block (front ++ ⟨ctx.ops.size⟩ :: op :: back)) := by
  -- The constant defines the value that takes the place of the sum.
  have defined : (ctx.withConstant sum).value ⟨ctx.values.size⟩ =
      .ok ⟨.result ⟨ctx.ops.size⟩ 0, sum.type⟩ :=
    (Context.value_eq_ok_of_define rfl).mpr (.inr ⟨0, sum.type, rfl, rfl, rfl⟩)
  exact (withConstant touched known split sum).trans (redirectUses touched sum.result defined)

/-- Erasing an operation takes it out of its block and frees it. -/
theorem withErased {block : BlockId} {op : OpId} {data : Operation}
    (found : ctx.op op = .ok data)
    (owned : data.parentBlock = some block ∨ data.parentBlock = none) :
    Evolves (· = op) ctx (ctx.withErased block op data.operands) where
  blocks_size := by simp [Context.withErased, Context.displace, Context.modifyOp,
    Context.modifyBlock]
  regions_eq := rfl
  value_known found := found
  op_known {other old} foundOld := by
    -- Only the operation itself may lose its owner.
    refine ⟨old.operands, _, by rw [Context.op_withErased, foundOld]; rfl, ?_,
      fun _ listed => .inl listed⟩
    split
    · rename_i freed
      exact .inr ⟨freed.1, rfl⟩
    · exact .inl rfl
  op_new {other old} foundOld new := by
    rw [Context.op_withErased, map_eq_ok] at foundOld
    obtain ⟨older, foundOlder, -⟩ := foundOld
    exact absurd (Context.index_lt_of_op foundOlder) (Nat.not_lt.mpr new)
  block_known {other old} foundOld := by
    have after := @Context.block_displace ctx block other op
    rw [foundOld] at after
    have freed := @Context.op_withErased ctx block op op data.operands
    rw [found] at freed
    by_cases here : other = block
    · refine ⟨old.ops.filter (· ≠ op), after.trans (by simp only [Except.map, here, if_true]), ?_,
        ?_⟩
      · intro member listed
        exact .inl (List.mem_filter.mp listed).1
      · intro member listed
        -- Only the operation itself leaves the list, and nothing owns it from then on.
        by_cases same : member = op
        · subst same
          refine .inr ⟨rfl, _, freed, ?_⟩
          rcases owned with owned | owned <;> simp [owned]
        · exact .inl (List.mem_filter.mpr ⟨listed, by simpa using same⟩)
    · exact ⟨old.ops, after.trans (by simp only [Except.map, here, if_false]),
        fun _ listed => .inl listed, fun _ listed => .inl listed⟩

end Evolves

namespace Rewrite

variable {op : OpId} {ctx ctx' : Context}

/-- A rewrite is some requests, none of which edits an operation directly. -/
theorem exists_performAll (rewrite : Rewrite op ctx ctx') :
    ∃ requests, (∀ request ∈ requests, request.isEdit = false) ∧
      ctx.performAll requests = .ok ctx' := by
  -- Neither list of requests has a direct edit in it.
  cases rewrite with
  | fold block data sum found computed performed =>
    refine ⟨_, fun request member => ?_, performed⟩
    simp only [Context.foldRequests, Context.eraseRequests, List.mem_append, List.mem_cons,
      List.not_mem_nil, or_false] at member
    rcases member with (rfl | rfl | rfl) | rfl | rfl <;> rfl
  | erase block data found dead performed =>
    refine ⟨_, fun request member => ?_, performed⟩
    simp only [Context.eraseRequests, List.mem_cons, List.not_mem_nil, or_false] at member
    rcases member with rfl | rfl <;> rfl

/-- A rewrite leaves alone everything that does not evolve. -/
theorem evolves (rewrite : Rewrite op ctx ctx') : Evolves (· = op) ctx ctx' := by
  -- Both kinds of rewrites end with the erasure of the operation.
  have erased {ctx : Context} {block : BlockId}
      (performed : ctx.performAll (Context.eraseRequests block op) = .ok ctx') :
      Evolves (· = op) ctx ctx' := by
    obtain ⟨data, target, found, -, owned, -, rfl⟩ := Context.eraseRequests_eq_ok.mp performed
    exact .withErased found owned
  cases rewrite with
  | fold block data sum found computed performed =>
    obtain ⟨target, front, back, known, -, split, last⟩ :=
      Context.foldRequests_eq_ok.mp performed
    exact (Evolves.withFolded _ known split sum).trans (erased last)
  | erase block data found dead performed => exact erased performed

end Rewrite

/-- A dead operation is erased where a known block owns it, or no block does. -/
theorem exists_erased {ctx : Context} {block : BlockId} {op : OpId} {data : Operation}
    {target : Block} (found : ctx.op op = .ok data) (known : ctx.block block = .ok target)
    (owned : data.parentBlock = some block ∨ data.parentBlock = none) (dead : ctx.isDead data) :
    ∃ ctx', ctx.performAll (Context.eraseRequests block op) = .ok ctx' := by
  -- What is dead has no result with a use.
  refine ⟨_, Context.eraseRequests_eq_ok.mpr ⟨data, target, found, known, owned, ?_, rfl⟩⟩
  intro value listed
  have unused := (Bool.and_eq_true_iff.mp dead).2
  simpa [Context.isUsed] using List.all_eq_true.mp unused value listed

/-- An addition of constants is folded where its own block lists it. -/
theorem exists_folded {ctx : Context} {block : BlockId} {op : OpId} {data : Operation}
    {target : Block} {sum : Sum} (found : ctx.op op = .ok data)
    (owned : data.parentBlock = some block) (known : ctx.block block = .ok target)
    (listed : op ∈ target.ops) (computed : ctx.sum? data = .ok (some sum)) :
    ∃ ctx', ctx.performAll (ctx.foldRequests block op sum) = .ok ctx' := by
  -- What folding needs is still there after the constant has been put in.
  obtain ⟨front, back, split, first⟩ := List.eq_append_cons_of_mem listed
  obtain ⟨-, lhs, rhs, left, right, value, width, -, sole, -, -, foundSum, -⟩ :=
    Context.sum?_eq_some computed
  have folded := Evolves.withFolded (fun _ => False) known split sum
  obtain ⟨operands, owner, found', same, -⟩ := folded.op_known found
  obtain ⟨ops, known', -⟩ := folded.block_known known
  refine ⟨_, Context.foldRequests_eq_ok.mpr ⟨target, front, back, known, first, split,
    Context.eraseRequests_eq_ok.mpr ⟨_, _, found', known', ?_, ?_, rfl⟩⟩⟩
  · rcases same with same | impossible
    · exact .inl (same.trans owned)
    · exact absurd impossible.1 id
  · -- The only result is the sum, and all its uses have gone over to the constant.
    intro result inResults
    have only : result = sum.result := by
      simpa [Operation.soleResult?_eq_some.mp sole] using inResults
    have differ := Context.value_ne_next foundSum
    rw [only, Context.withFolded, Context.usesOf_redirectUses differ, if_neg differ, if_pos rfl]

/-- A program that has exact chains and defined results. -/
structure Consistent (ctx : Context) : Prop where
  /-- The chains list the operand slots of all operations but some. -/
  uses : ∃ discarded, Context.UsesExact discarded ctx
  /-- The results of operations are the values that they define. -/
  results : ctx.ResultsDefined

namespace Consistent

variable {ctx ctx' : Context}

/-- Requests that keep uses and results keep a program consistent. -/
theorem performAll (consistent : Consistent ctx) {requests : List Request}
    (keep : ∀ request ∈ requests, request.keepsUses)
    (performed : ctx.performAll requests = .ok ctx') : Consistent ctx' := by
  refine Context.performAll_induction (motive := fun requests ctx =>
    (∀ request ∈ requests, request.keepsUses) → Consistent ctx) (fun _ => consistent) ?_
    performed keep
  intro requests mid request ctx' earlier done keep
  -- The last request starts from a program that the earlier ones kept consistent.
  obtain ⟨⟨discarded, exact⟩, results⟩ :=
    earlier fun request member => keep request (by simp [member])
  have keeps := keep request (by simp)
  exact ⟨⟨_, exact.perform keeps done⟩, results.step keeps (Context.change_of_perform done)⟩

/-- What requests build from nothing is consistent. -/
theorem of_build {requests : List Request} (keep : ∀ request ∈ requests, request.keepsUses)
    (built : Context.build requests = .ok ctx) : Consistent ctx :=
  ⟨⟨_, .of_build keep built⟩, .of_build keep built⟩

/-- A rewrite keeps a program consistent. -/
theorem rewrite (consistent : Consistent ctx) {op : OpId} (rewrite : Rewrite op ctx ctx') :
    Consistent ctx' := by
  -- Requests that are no direct edits keep uses and results.
  obtain ⟨requests, plain, performed⟩ := rewrite.exists_performAll
  refine consistent.performAll (fun request member => ?_) performed
  exact Request.keepsUses_of_plain (plain request member)

end Consistent

namespace Rewrites

variable {touched other : OpId → Prop} {ctx mid ctx' : Context}

/-- Rewrites may come one after another. -/
theorem trans (first : Rewrites touched ctx mid) (second : Rewrites touched mid ctx') :
    Rewrites touched ctx ctx' :=
  ReflTransGen.trans first second

/-- More operations may be rewritten than are. -/
theorem mono (rewrites : Rewrites touched ctx ctx') (more : ∀ op, touched op → other op) :
    Rewrites other ctx ctx' := by
  refine ReflTransGen.mono (fun _ _ step => ?_) _ _ rewrites
  obtain ⟨op, wasTouched, rewrite⟩ := step
  exact ⟨op, more op wasTouched, rewrite⟩

/-- Rewrites leave alone everything that does not evolve. -/
theorem evolves (rewrites : Rewrites touched ctx ctx') : Evolves touched ctx ctx' := by
  induction rewrites with
  | refl => exact .refl touched ctx
  | tail _ step ih =>
    obtain ⟨op, wasTouched, rewrite⟩ := step
    exact ih.trans (rewrite.evolves.mono fun _ same => same ▸ wasTouched)

/-- Rewrites keep a program consistent. -/
theorem consistent (rewrites : Rewrites touched ctx ctx') (start : Consistent ctx) :
    Consistent ctx' := by
  induction rewrites with
  | refl => exact start
  | tail _ step ih =>
    obtain ⟨op, -, rewrite⟩ := step
    exact ih.rewrite rewrite

/-- Rewrites keep the operations of blocks owned. -/
theorem opsOwned (rewrites : Rewrites touched ctx ctx') (start : ctx.OpsOwned) :
    ctx'.OpsOwned := by
  induction rewrites with
  | refl => exact start
  | tail _ step ih =>
    obtain ⟨op, -, rewrite⟩ := step
    -- One rewrite is some requests, none of which is a direct edit.
    obtain ⟨requests, plain, performed⟩ := rewrite.exists_performAll
    refine Context.performAll_induction (motive := fun requests ctx =>
      (∀ request ∈ requests, request.isEdit = false) → ctx.OpsOwned) (fun _ => ih) ?_ performed
      plain
    intro requests mid request ctx' owned done plain
    have earlier := owned fun request member => plain request (by simp [member])
    exact earlier.step (Context.change_of_perform done) (plain request (by simp))

end Rewrites

end NestedIR
