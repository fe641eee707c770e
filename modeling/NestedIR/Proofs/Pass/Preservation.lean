import NestedIR.Proofs.Pass.Canonicalization
import NestedIR.Proofs.Pass.Meaning

/-! Canonicalization keeps what every operand evaluates to, however many rewrites it takes. -/

namespace NestedIR

namespace Context

variable {ctx ctx' : Context}

/-- A value whose number can be looked up is a constant. -/
theorem origin_of_constantInt {value : ValueId} {number : Int64}
    (computed : ctx.constantInt? value = .ok (some number)) :
    ctx.origin value = .constant number.toInt := by
  -- The value is looked up first, and then the operation that defines it.
  obtain ⟨⟨definition, type⟩, known, rest⟩ := bind_eq_ok.mp computed
  dsimp only at rest
  split at rest
  · obtain ⟨data, found, last⟩ := bind_eq_ok.mp rest
    rw [origin_of_result known found]
    have named : (if data.isKind .constant then data.constantInt? else none) = some number :=
      Except.ok.inj last
    split at named
    · rename_i kind
      exact Operation.origin_of_constant _ kind named
    · cases named
  · cases rest

/-- The addition that a sum is computed from is a sum of two constants. -/
theorem origin_of_sum (defined : ctx.ResultsDefined) {op : OpId} {data : Operation} {sum : Sum}
    (found : ctx.op op = .ok data) (computed : ctx.sum? data = .ok (some sum)) :
    ∃ lhs rhs width left right, ctx.origin sum.result = .sum lhs rhs width ∧
      ctx.origin lhs = .constant left ∧ ctx.origin rhs = .constant right ∧ 1 ≤ width ∧
      SignedForm width (left + right) sum.value.toInt := by
  obtain ⟨kind, lhs, rhs, left, right, value, width, addends, sole, foundLeft, foundRight, known,
    -, typed, exact⟩ := sum?_eq_some computed
  obtain ⟨positive, bounded⟩ := integerWidth?_bounds typed
  -- The result is defined by the addition.
  have results := Operation.soleResult?_eq_some.mp sole
  obtain ⟨⟨definition, type⟩, known', defines⟩ :=
    (defined sum.result op 0).mpr ⟨data, found, by simp [results]⟩
  cases known.symm.trans known'
  cases defines
  refine ⟨lhs, rhs, width, left.toInt, right.toInt, ?_, origin_of_constantInt foundLeft,
    origin_of_constantInt foundRight, positive, ?_⟩
  · rw [origin_of_result known found, typed]
    exact Operation.origin_of_addition 0 kind addends sole
  · exact exact ▸ signedForm_signExtend_add positive bounded left right

/-- Erasing an operation changes no origin, not even those of its own results. -/
theorem origin_withErased (block : BlockId) (op : OpId) (operands : List ValueId)
    (value : ValueId) : (ctx.withErased block op operands).origin value = ctx.origin value := by
  -- An origin does not depend on the owner of the operation that defines the value.
  have values : (ctx.withErased block op operands).value value = ctx.value value := rfl
  have types : (ctx.withErased block op operands).types = ctx.types := rfl
  unfold origin
  rw [values]
  split
  · rename_i definer index type known
    rw [op_withErased, types]
    cases ctx.op definer <;> rfl
  · rfl

/-- Erasing an operation keeps the meaning of all operands, even of its own. -/
theorem keepsMeaning_withErased (block : BlockId) (op : OpId) (operands : List ValueId) :
    KeepsMeaning ctx (ctx.withErased block op operands) := by
  have agrees : Agrees Eq ctx (ctx.withErased block op operands) := by
    intro value _ same
    subst same
    exact .inl ⟨rfl, origin_withErased block op operands value ▸ .refl _⟩
  refine .of_agrees agrees fun other data found => ⟨_, by rw [op_withErased, found]; rfl, ?_⟩
  -- The operands themselves do not change.
  exact List.forall₂_same.mpr fun _ _ => rfl

section Folded

variable {sum : Sum} {block : BlockId} {ops : List OpId}

/-- The new constant has the number of the folded sum. -/
theorem origin_withFolded_new (differ : sum.result ≠ ⟨ctx.values.size⟩) :
    (ctx.withFolded sum block ops).origin ⟨ctx.values.size⟩ = .constant sum.value.toInt := by
  -- Neither the move into the block nor the redirection changes what the constant is.
  obtain ⟨values, -⟩ := ctx.withFolded_frame sum block ops
  have known : (ctx.withFolded sum block ops).value ⟨ctx.values.size⟩ =
      .ok ⟨.result ⟨ctx.ops.size⟩ 0, sum.type⟩ :=
    (value_eq_ok_of_define values).mpr (.inr ⟨0, sum.type, rfl, rfl, rfl⟩)
  have found : ∃ operands, (ctx.withFolded sum block ops).op ⟨ctx.ops.size⟩ =
      .ok { ctx.newOp (foldedSpec sum) with operands, parentBlock := some block } := by
    rw [withFolded, op_redirectUses differ, op_place, op_withConstant_new]
    simp only [Except.map, if_true]
    exact ⟨_, rfl⟩
  obtain ⟨operands, found⟩ := found
  rw [origin_of_result known found]
  rfl

/-- A known value stays when an addition is folded, or it is the sum and becomes the constant. -/
def Moves (ctx : Context) (sum : Sum) (old new : ValueId) : Prop :=
  (∃ data, ctx.value old = .ok data) ∧
    (new = old ∨ old = sum.result ∧ new = ⟨ctx.values.size⟩)

/-- The operands of a known operation move when an addition is folded. -/
theorem forall₂_moves_refill {discarded : OpId → Prop} (exact : UsesExact discarded ctx)
    (reads : ctx.ReadsKnown fun _ => False) {op : OpId} {data : Operation}
    (found : ctx.op op = .ok data) :
    List.Forall₂ (ctx.Moves sum) data.operands
      (refill (ctx.usesOf sum.result) ⟨ctx.values.size⟩ op data.operands) := by
  -- Operands are compared one position at a time.
  refine List.forall₂_iff_get.mpr ⟨by simp [refill], fun index inside inside' => ?_⟩
  have held : data.operands[index]? = some data.operands[index] := List.getElem?_eq_getElem inside
  have known := (reads op data _ found (List.getElem_mem inside)).resolve_right id
  refine ⟨known, ?_⟩
  simp only [List.get_eq_getElem, refill, List.getElem_mapIdx]
  split
  · -- A chain lists only slots that hold its value.
    rename_i listed
    have holds := ((exact.mem_iff _ _).mp listed).1
    obtain ⟨again, foundAgain, heldAgain⟩ := operand?_eq_some_iff.mp holds
    cases found.symm.trans foundAgain
    rw [held] at heldAgain
    exact .inr ⟨Option.some.inj heldAgain, rfl⟩
  · exact .inl rfl

/-- Folding an addition keeps the meaning of all operands. -/
theorem keepsMeaning_withFolded (consistent : Consistent ctx)
    (reads : ctx.ReadsKnown fun _ => False) {op : OpId} {data : Operation}
    (found : ctx.op op = .ok data) (computed : ctx.sum? data = .ok (some sum)) :
    KeepsMeaning ctx (ctx.withFolded sum block ops) := by
  -- Every operand moves, and the values that it moves between agree.
  obtain ⟨⟨discarded, exact⟩, defined⟩ := consistent
  obtain ⟨-, -, -, -, -, value, -, -, -, -, -, known, -⟩ := sum?_eq_some computed
  have differ := value_ne_next known
  obtain ⟨values, types⟩ := ctx.withFolded_frame sum block ops
  have moves (other : OpId) (old : Operation) (foundOld : ctx.op other = .ok old) :
      ∃ operands owner, (ctx.withFolded sum block ops).op other =
        .ok { old with operands, parentBlock := owner } ∧
          List.Forall₂ (ctx.Moves sum) old.operands operands :=
    ⟨_, old.parentBlock, op_withFolded differ foundOld, forall₂_moves_refill exact reads foundOld⟩
  have agrees : Agrees (ctx.Moves sum) ctx (ctx.withFolded sum block ops) := by
    intro old new move
    obtain ⟨⟨data, foundOld⟩, rfl | ⟨rfl, rfl⟩⟩ := move
    · refine .inl ⟨rfl, follows_of_moved defined types moves foundOld ?_⟩
      exact (value_eq_ok_of_define values).mpr (.inl foundOld)
    · -- The sum of two constants has one number, which is that of the new constant.
      obtain ⟨lhs, rhs, width, left, right, isSum, isLeft, isRight, positive, form⟩ :=
        origin_of_sum defined found computed
      refine .inr ⟨sum.value.toInt, fun env number => ⟨?_, ?_⟩⟩
      · exact evaluates_sum_iff isSum isLeft isRight positive form
      · exact evaluates_constant_iff (origin_withFolded_new differ)
  refine .of_agrees agrees fun other old foundOld => ?_
  obtain ⟨operands, owner, foundNew, read⟩ := moves other old foundOld
  exact ⟨_, foundNew, read⟩

end Folded

end Context

/-- A built-in rewrite keeps the meaning of all operands. -/
theorem Rewrite.keepsMeaning {ctx ctx' : Context} {op : OpId} (rewrite : Rewrite op ctx ctx')
    (consistent : Consistent ctx) (reads : ctx.ReadsKnown fun _ => False) :
    ctx.KeepsMeaning ctx' := by
  -- Folding keeps the meaning before the addition is erased, and erasing keeps it after.
  have erased {mid : Context} {block : BlockId}
      (performed : mid.performAll (Context.eraseRequests block op) = .ok ctx') :
      mid.KeepsMeaning ctx' := by
    obtain ⟨data, target, -, -, -, -, rfl⟩ := Context.eraseRequests_eq_ok.mp performed
    exact Context.keepsMeaning_withErased block op data.operands
  cases rewrite with
  | fold block data sum found computed performed =>
    obtain ⟨target, front, back, -, -, -, last⟩ := Context.foldRequests_eq_ok.mp performed
    exact (Context.keepsMeaning_withFolded consistent reads found computed).trans (erased last)
  | erase block data found dead performed => exact erased performed

/-- Rewrites keep the meaning of all operands, however many there are. -/
theorem Rewrites.keepsMeaning {touched : OpId → Prop} {ctx ctx' : Context}
    (rewrites : Rewrites touched ctx ctx') (consistent : Consistent ctx)
    (reads : ctx.ReadsKnown fun _ => False) : ctx.KeepsMeaning ctx' := by
  induction rewrites with
  | refl => exact .refl ctx
  | tail before step ih =>
    -- The earlier rewrites leave a program that is as consistent as the first.
    obtain ⟨op, -, rewrite⟩ := step
    have earlier : Rewrites touched ctx _ := before
    exact ih.trans (rewrite.keepsMeaning (earlier.consistent consistent)
      (earlier.evolves.reads reads))

namespace Canonicalization

/-- A run of the pass is the visits that its configuration allows, and leaves the notes alone. -/
theorem run_pass {σ : Type} (config : Config) (root : OpId) (ctx : Context) (notes : σ) :
    (pass config).run root (ctx, notes) =
      (iterate builtinPatterns root config.maxIterations ctx).map fun answer =>
        (outcome config answer.1, answer.2, notes) := by
  -- No further patterns are tried after the built-in ones.
  show ((iterate (builtinPatterns ++ []) root config.maxIterations ctx >>= fun answer =>
    pure (outcome config answer.1, answer.2)) >>= fun answer =>
      pure (answer.1, answer.2, notes)) = _
  rw [List.append_nil]
  cases iterate builtinPatterns root config.maxIterations ctx <;> rfl

/--
Canonicalization comes to an answer on every operation below which everything is known and nothing
is inside itself. Whatever the answer is, every operand slot that was there before is still there,
and evaluates in every environment to the numbers that it evaluated to before.
-/
theorem keepsMeaning_of_build {σ : Type} {requests : List Request} {ctx : Context}
    (keep : ∀ request ∈ requests, request.keepsUses) (built : Context.build requests = .ok ctx)
    (reads : ∀ op data value, ctx.op op = .ok data → value ∈ data.operands →
      ∃ known, ctx.value value = .ok known) (config : Config) (root : OpId) (notes : σ) :
    (ctx.KnownBelow (.op root) → ctx.AcyclicBelow (.op root) → ∃ outcome ctx',
      (pass config).run root (ctx, notes) = .ok (outcome, ctx', notes)) ∧
      ∀ outcome ctx' notes',
        (pass config).run root (ctx, notes) = .ok (outcome, ctx', notes') →
          ctx.KeepsMeaning ctx' := by
  have consistent := Consistent.of_build keep built
  have readsKnown : ctx.ReadsKnown fun _ => False :=
    fun op data value found listed => .inl (reads op data value found listed)
  rw [run_pass]
  constructor
  · intro known acyclic
    -- No fault at all is allowed here.
    have meets : Meets (fun _ => False) (ctx.Within root) ctx
        (iterate builtinPatterns root config.maxIterations ctx) :=
      Meets.iterate consistent readsKnown (.inr (Context.fits_depthBound known acyclic)) _
    cases result : iterate builtinPatterns root config.maxIterations ctx with
    | ok answer => exact ⟨_, _, rfl⟩
    | error fault =>
      rw [result] at meets
      cases meets
  · intro outcome ctx' notes' ran
    obtain ⟨answer, done, same⟩ := map_eq_ok.mp ran
    cases same
    -- Any fault is allowed, because the run has come to an answer.
    have meets : Meets (fun _ => True) (ctx.Within root) ctx
        (iterate builtinPatterns root config.maxIterations ctx) :=
      Meets.iterate consistent (fun _ _ _ _ _ => .inr trivial) (.inl fun _ => trivial) _
    rw [done] at meets
    exact Rewrites.keepsMeaning meets consistent readsKnown

/-- Requests for two constants of eight bits, their sum, which does not fit, and a use of it. -/
def overflowingSum : List Request :=
  [.internType (.integer 8),
    .addOp { name := OpKind.constant.opName, resultTypes := [⟨0⟩]
             attributes := .ofList [(valueKey, .int 100)] },
    .addOp { name := OpKind.addi.opName, operands := [⟨0⟩, ⟨0⟩], resultTypes := [⟨0⟩] },
    .addOp { name := OpKind.testOp.opName, operands := [⟨1⟩] },
    .addBlock { ops := [⟨0⟩, ⟨1⟩, ⟨2⟩] }, .addRegion { blocks := [⟨0⟩] },
    .addOp { name := OpKind.func.opName, regions := [⟨0⟩] }]

/-- The sum is folded, and what uses it reads the same number as before. -/
theorem keepsMeaning_of_build_overflowingSum :
    (∀ request ∈ overflowingSum, request.keepsUses) ∧
      ∃ ctx, Context.build overflowingSum = .ok ctx ∧
        (∀ op data value, ctx.op op = .ok data → value ∈ data.operands →
          ∃ known, ctx.value value = .ok known) ∧
        ∃ outcome ctx', (pass {}).run ⟨3⟩ (ctx, ()) = .ok (outcome, ctx', ()) ∧
          ctx.KeepsMeaning ctx' := by
  -- The hypotheses are decided by evaluating the requests.
  obtain ⟨ctx, built, inside, listed⟩ : ∃ ctx, Context.build overflowingSum = .ok ctx ∧
      (∀ data ∈ ctx.ops.toList, ∀ value ∈ data.operands, value.index < ctx.values.size) ∧
        ∃ listing, ctx.preorder (.op ⟨3⟩) = .ok listing :=
    ⟨_, rfl, by decide, _, rfl⟩
  have keep : ∀ request ∈ overflowingSum, request.keepsUses := by decide
  have reads : ∀ op data value, ctx.op op = .ok data → value ∈ data.operands →
      ∃ known, ctx.value value = .ok known := by
    intro op data value found read
    have member : data ∈ ctx.ops.toList :=
      Array.mem_toList_iff.mpr (Array.mem_of_getElem? (Context.op_eq_ok_iff.mp found))
    exact Context.exists_value_of_lt (inside data member value read)
  obtain ⟨returns, keeps⟩ := keepsMeaning_of_build keep built reads {} ⟨3⟩ ()
  obtain ⟨known, acyclic⟩ := Context.preorder_ok_iff.mp listed
  obtain ⟨outcome, ctx', ran⟩ := returns known acyclic
  exact ⟨keep, ctx, built, reads, outcome, ctx', ran, keeps outcome ctx' () ran⟩

end Canonicalization

end NestedIR
