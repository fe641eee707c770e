import NestedIR.Pass.Canonicalization
import NestedIR.Proofs.Context.Effect

/-! A built-in rewrite that applies is a short run of requests on one operation. -/

namespace NestedIR

namespace Context

variable {ctx ctx' : Context}

/-- What is said about the constant that an addition is folded into. -/
def foldedSpec (sum : Sum) : OpSpec where
  name := OpKind.constant.opName
  resultTypes := [sum.type]
  attributes := .ofList [(valueKey, .int sum.value)]

/-- The program with the constant that an addition is folded into, still in no block. -/
def withConstant (ctx : Context) (sum : Sum) : Context :=
  { ctx with
    ops := ctx.ops.push (ctx.newOp (foldedSpec sum))
    values := (ctx.defineValues (.result ⟨ctx.ops.size⟩) [sum.type]).values }

/-- The constant takes the next number. -/
theorem op_withConstant_new (ctx : Context) (sum : Sum) :
    (ctx.withConstant sum).op ⟨ctx.ops.size⟩ = .ok (ctx.newOp (foldedSpec sum)) :=
  op_eq_ok_iff.mpr Array.getElem?_push_size

/-- The constant has one result, which takes the next number as well. -/
theorem result_withConstant (ctx : Context) (sum : Sum) (block : BlockId) (ops : List OpId) :
    ((ctx.withConstant sum).place block ⟨ctx.ops.size⟩ ops).result ⟨ctx.ops.size⟩ 0 =
      .ok ⟨ctx.values.size⟩ := by
  -- Moving the constant into the block leaves its results alone.
  have placed := @op_place (ctx.withConstant sum) block ⟨ctx.ops.size⟩ ⟨ctx.ops.size⟩ ops
  rw [op_withConstant_new] at placed
  rw [result, results, op_eq_ok_iff.mp placed]
  simp only [if_true]
  rfl

/-- The program with that constant in a block and in place of the sum wherever it is used. -/
def withFolded (ctx : Context) (sum : Sum) (block : BlockId) (ops : List OpId) : Context :=
  ((ctx.withConstant sum).place block ⟨ctx.ops.size⟩ ops).redirectUses sum.result
    ⟨ctx.values.size⟩

/-- The program without an operation in a block or among the uses of its operands. -/
def withErased (ctx : Context) (block : BlockId) (op : OpId) (operands : List ValueId) : Context :=
  { ctx.displace block op with uses := ctx.uses.forgetAll op operands }

/-- What erasing an operation of a block asks for, in order. -/
def eraseRequests (block : BlockId) (op : OpId) : List Request :=
  [.detachOp block op, .discardOp op]

/-- What folding an addition of a block asks for, in order. -/
def foldRequests (ctx : Context) (block : BlockId) (op : OpId) (sum : Sum) : List Request :=
  [.addOp (foldedSpec sum), .insertOp block op ⟨ctx.ops.size⟩,
    .redirectUses sum.result ⟨ctx.values.size⟩] ++ eraseRequests block op

/-- Erasing an operation of a block is these requests. -/
theorem performAll_eraseRequests (block : BlockId) (op : OpId) :
    ctx.performAll (eraseRequests block op) = ctx.eraseOp block op := by
  show (ctx.detachOp block op >>= fun mid => mid.discardOp op >>= pure) = _
  rw [eraseOp]
  simp

/-- Folding first makes the constant, which always succeeds, and erases the addition last. -/
theorem performAll_foldRequests (block : BlockId) (op : OpId) (sum : Sum) :
    ctx.performAll (ctx.foldRequests block op sum) =
      (ctx.withConstant sum).insertOp block op ⟨ctx.ops.size⟩ >>= fun placed =>
        (placed.redirectUses sum.result ⟨ctx.values.size⟩).eraseOp block op := by
  simp only [← performAll_eraseRequests]
  rfl

/-- Erasing goes through where the block is known and owns the operation if any block does. -/
theorem eraseRequests_eq_ok {block : BlockId} {op : OpId} :
    ctx.performAll (eraseRequests block op) = .ok ctx' ↔
      ∃ data target, ctx.op op = .ok data ∧ ctx.block block = .ok target ∧
        (data.parentBlock = some block ∨ data.parentBlock = none) ∧
        (∀ value ∈ data.results, ctx.usesOf value = []) ∧
        ctx' = ctx.withErased block op data.operands := by
  -- Taking the operation out of the block is what makes it free to be discarded.
  have freed {data : Operation} (found : ctx.op op = .ok data) :
      (ctx.displace block op).op op = .ok { data with
        parentBlock := if data.parentBlock = some block then none else data.parentBlock } := by
    rw [op_displace, found]
    simp [Except.map]
  rw [performAll_eraseRequests, eraseOp, bind_eq_ok]
  constructor
  · intro performed
    obtain ⟨mid, detached, discarded⟩ := performed
    obtain ⟨data, target, found, known, rfl⟩ := detachOp_eq_ok.mp detached
    obtain ⟨after, foundAfter, free, unused, rfl⟩ := discardOp_eq_ok.mp discarded
    rw [freed found] at foundAfter
    cases foundAfter
    refine ⟨data, target, found, known, ?_, ?_, ?_⟩
    · by_cases owned : data.parentBlock = some block
      · exact .inl owned
      · exact .inr (by simpa [owned] using free)
    · exact unused
    · rfl
  · intro ready
    obtain ⟨data, target, found, known, owned, unused, rfl⟩ := ready
    refine ⟨_, detachOp_eq_ok.mpr ⟨data, target, found, known, rfl⟩, discardOp_eq_ok.mpr ?_⟩
    refine ⟨_, freed found, ?_, unused, rfl⟩
    rcases owned with owned | owned <;> simp [owned]

/-- Folding goes through where the block lists the operation and erasing it goes through. -/
theorem foldRequests_eq_ok {block : BlockId} {op : OpId} {sum : Sum} :
    ctx.performAll (ctx.foldRequests block op sum) = .ok ctx' ↔
      ∃ target front back, ctx.block block = .ok target ∧ op ∉ front ∧
        target.ops = front ++ op :: back ∧
        (ctx.withFolded sum block (front ++ ⟨ctx.ops.size⟩ :: op :: back)).performAll
          (eraseRequests block op) = .ok ctx' := by
  -- The constant is free, so that only the place in the block can be missing.
  have found := ctx.op_withConstant_new sum
  rw [performAll_foldRequests, bind_eq_ok]
  simp only [← performAll_eraseRequests]
  constructor
  · intro performed
    obtain ⟨placed, inserted, erased⟩ := performed
    obtain ⟨data, target, ops, -, -, known, listed, rfl⟩ := insertOp_eq_ok.mp inserted
    obtain ⟨front, back, first, split, rfl⟩ := insertBefore_eq_some_iff.mp listed
    exact ⟨target, front, back, known, first, split, erased⟩
  · intro ready
    obtain ⟨target, front, back, known, first, split, erased⟩ := ready
    refine ⟨_, insertOp_eq_ok.mpr ⟨_, target, _, found, rfl, known, ?_, rfl⟩, erased⟩
    exact insertBefore_eq_some_iff.mpr ⟨front, back, first, split, rfl⟩

/-- Erasing an operation frees it if the block owns it, and changes no other operation. -/
theorem op_withErased (block : BlockId) (op other : OpId) (operands : List ValueId) :
    (ctx.withErased block op operands).op other = (ctx.op other).map fun data =>
      { data with
        parentBlock :=
          if other = op ∧ data.parentBlock = some block then none else data.parentBlock } :=
  op_displace block op other

section Folded

variable {sum : Sum} {block : BlockId} {ops : List OpId}

/-- A folded addition leaves the data of known operations as they are, but for operands. -/
theorem op_withFolded (differ : sum.result ≠ ⟨ctx.values.size⟩) {op : OpId} {data : Operation}
    (found : ctx.op op = .ok data) :
    (ctx.withFolded sum block ops).op op = .ok { data with
      operands := refill (ctx.usesOf sum.result) ⟨ctx.values.size⟩ op data.operands } := by
  -- A known operation is not the new constant, which alone is moved into the block.
  have older := op_ne_next found
  have kept : (ctx.withConstant sum).op op = .ok data :=
    (op_eq_ok_of_push rfl).mpr (.inl found)
  rw [withFolded, op_redirectUses differ, op_place, kept]
  simp only [Except.map, older, if_false]
  rfl

/-- A folded addition defines one more value, and changes no type. -/
theorem withFolded_frame (ctx : Context) (sum : Sum) (block : BlockId) (ops : List OpId) :
    (ctx.withFolded sum block ops).values =
        (ctx.defineValues (.result ⟨ctx.ops.size⟩) [sum.type]).values ∧
      (ctx.withFolded sum block ops).types = ctx.types := by
  -- The values are those that the constant brought along.
  obtain ⟨values, -, -, types⟩ :=
    ((ctx.withConstant sum).place block ⟨ctx.ops.size⟩ ops).redirectUses_frame sum.result
      ⟨ctx.values.size⟩
  exact ⟨values, types⟩

end Folded

end Context

/-- Folding applies exactly where there is a sum to compute, and is then these requests. -/
theorem foldAddition_eq {ctx : Context} {block : BlockId} {op : OpId} {data : Operation}
    (found : ctx.op op = .ok data) :
    foldAddition.rewrite block op ctx = ctx.sum? data >>= fun sum? =>
      match sum? with
      | none => .ok (false, ctx)
      | some sum => (ctx.performAll (ctx.foldRequests block op sum)).map (true, ·) := by
  -- The lookup of the new result succeeds whenever the constant is in its place.
  show (ctx.op op >>= fun data => ctx.sum? data >>= fun sum? => _) = _
  rw [found]
  show (ctx.sum? data >>= fun sum? => _) = _
  congr 1
  funext sum?
  cases sum? with
  | none => rfl
  | some sum =>
    show ((ctx.withConstant sum).insertOp block op ⟨ctx.ops.size⟩ >>= fun placed =>
      placed.result ⟨ctx.ops.size⟩ 0 >>= fun new =>
        (placed.redirectUses sum.result new).eraseOp block op >>= fun erased =>
          pure (true, erased)) =
      (ctx.performAll (ctx.foldRequests block op sum)).map (true, ·)
    rw [Context.performAll_foldRequests]
    cases inserted : (ctx.withConstant sum).insertOp block op ⟨ctx.ops.size⟩ with
    | error fault => rfl
    | ok placed =>
      obtain ⟨constant, target, ops, -, -, -, -, rfl⟩ := Context.insertOp_eq_ok.mp inserted
      have result := ctx.result_withConstant sum block ops
      generalize (ctx.withConstant sum).place block ⟨ctx.ops.size⟩ ops = placed at result
      show (placed.result ⟨ctx.ops.size⟩ 0 >>= _) = _
      rw [result]
      show ((placed.redirectUses sum.result ⟨ctx.values.size⟩).eraseOp block op >>= _) =
        ((placed.redirectUses sum.result ⟨ctx.values.size⟩).eraseOp block op).map _
      cases (placed.redirectUses sum.result ⟨ctx.values.size⟩).eraseOp block op <;> rfl

/-- Erasing applies exactly to dead operations, and is then these requests. -/
theorem eraseIfDead_eq {ctx : Context} {block : BlockId} {op : OpId} {data : Operation}
    (found : ctx.op op = .ok data) :
    DeadCode.eraseIfDead block op ctx =
      if ctx.isDead data then (ctx.performAll (Context.eraseRequests block op)).map (true, ·)
      else .ok (false, ctx) := by
  -- The operation is known, so the test alone decides.
  show (ctx.op op >>= fun data => if ctx.isDead data then
    ctx.eraseOp block op >>= fun erased => pure (true, erased) else pure (false, ctx)) = _
  rw [found, Context.performAll_eraseRequests]
  show (if ctx.isDead data then _ else _) = _
  split
  · cases ctx.eraseOp block op <;> rfl
  · rfl

/-- The first built-in rewrite that applies folds where there is a sum, and erases what is dead. -/
theorem applyFirst_builtinPatterns {ctx : Context} {block : BlockId} {op : OpId}
    {data : Operation} (found : ctx.op op = .ok data) :
    Pattern.applyFirst block op Canonicalization.builtinPatterns ctx =
      ctx.sum? data >>= fun sum? =>
        match sum? with
        | some sum => (ctx.performAll (ctx.foldRequests block op sum)).map (true, ·)
        | none =>
          if ctx.isDead data then (ctx.performAll (Context.eraseRequests block op)).map (true, ·)
          else .ok (false, ctx) := by
  -- Each pattern is replaced by what it comes to on a known operation.
  show (foldAddition.rewrite block op ctx >>= fun folded =>
    if folded.1 then pure (true, folded.2) else
      DeadCode.eraseIfDead block op folded.2 >>= fun erased =>
        if erased.1 then pure (true, erased.2) else pure (false, erased.2)) = _
  rw [foldAddition_eq found]
  cases ctx.sum? data with
  | error fault => rfl
  | ok sum? =>
    cases sum? with
    | some sum =>
      show ((ctx.performAll (ctx.foldRequests block op sum)).map (true, ·) >>= _) =
        (ctx.performAll (ctx.foldRequests block op sum)).map (true, ·)
      cases ctx.performAll (ctx.foldRequests block op sum) <;> rfl
    | none =>
      show (DeadCode.eraseIfDead block op ctx >>= _) = if ctx.isDead data then _ else _
      rw [eraseIfDead_eq found]
      split
      · cases ctx.performAll (Context.eraseRequests block op) <;> rfl
      · rfl

end NestedIR
