import NestedIR.Proofs.Pass.Preservation
import NestedIR.Proofs.Pass.Rest

/-! A canonicalization that succeeds leaves nothing for another one or for dead code elimination. -/

namespace NestedIR

open Relation

namespace Context

variable {ctx ctx' : Context}

/-- A value is an integer constant when it is the first result of one. -/
def IsIntConstant (ctx : Context) (value : ValueId) : Prop :=
  ∃ data op definer number, ctx.value value = .ok data ∧ data.definition = .result op 0 ∧
    ctx.op op = .ok definer ∧ definer.isKind .constant ∧ definer.constantInt? = some number

/--
An addition can be folded when it has two integer constants as operands and one result.

The result must have an integer type.
-/
def Foldable (ctx : Context) (data : Operation) : Prop :=
  data.isKind .addi ∧ ∃ lhs rhs result value width, data.operands = [lhs, rhs] ∧
    ctx.IsIntConstant lhs ∧ ctx.IsIntConstant rhs ∧ data.results = [result] ∧
    ctx.value result = .ok value ∧ ctx.types.integerWidth? value.type = some width

/-- The number of an integer constant can be looked up. -/
theorem IsIntConstant.exists_constantInt {value : ValueId} (constant : ctx.IsIntConstant value) :
    ∃ number, ctx.constantInt? value = .ok (some number) := by
  obtain ⟨⟨definition, type⟩, op, definer, number, known, defines, found, kind, named⟩ := constant
  -- The value leads to the operation that defines it.
  dsimp only at defines
  subst defines
  refine ⟨number, bind_eq_ok.mpr ⟨_, known, bind_eq_ok.mpr ⟨definer, found, ?_⟩⟩⟩
  rw [if_pos kind, named]
  rfl

/-- What can be folded has a sum. -/
theorem Foldable.exists_sum {data : Operation} (foldable : ctx.Foldable data) :
    ∃ sum, ctx.sum? data = .ok (some sum) := by
  obtain ⟨kind, lhs, rhs, result, value, width, operands, left, right, results, known, typed⟩ :=
    foldable
  obtain ⟨leftNumber, foundLeft⟩ := left.exists_constantInt
  obtain ⟨rightNumber, foundRight⟩ := right.exists_constantInt
  have addends := Operation.addends?_eq_some.mpr operands
  have sole := Operation.soleResult?_eq_some.mpr results
  -- Each lookup finds what makes the addition foldable.
  refine ⟨⟨result, value.type, signExtend (leftNumber + rightNumber) width⟩, ?_⟩
  unfold sum?
  simp only [kind, addends, sole, if_true]
  refine bind_eq_ok.mpr ⟨_, foundLeft, bind_eq_ok.mpr ⟨_, foundRight, ?_⟩⟩
  refine bind_eq_ok.mpr ⟨value, known, ?_⟩
  simp only [typed]
  rfl

end Context

namespace Canonicalization

variable {ctx ctx' : Context}

/-- An operation is settled when it has no sum to fold and is not dead. -/
def Settled (ctx : Context) (op : OpId) : Prop :=
  ∃ data, ctx.op op = .ok data ∧ ctx.sum? data = .ok none ∧ ctx.isDead data = false

/-- No built-in pattern applies exactly to settled operations, and then nothing changes. -/
theorem applyFirst_eq_false_iff {block : BlockId} {op : OpId} :
    Pattern.applyFirst block op builtinPatterns ctx = .ok (false, ctx') ↔
      ctx' = ctx ∧ Settled ctx op := by
  cases found : ctx.op op with
  | error fault =>
    have failed : Pattern.applyFirst block op builtinPatterns ctx = .error fault := by
      show ((ctx.op op >>= _) >>= _) = _
      rw [found]
      rfl
    refine iff_of_false (by simp [failed]) fun both => ?_
    obtain ⟨data, foundToo, -⟩ := both.2
    cases found.symm.trans foundToo
  | ok data =>
    -- What it is to be settled is read off the record that was found.
    have settled : Settled ctx op ↔ ctx.sum? data = .ok none ∧ ctx.isDead data = false := by
      constructor
      · intro settled
        obtain ⟨data', foundToo, none, alive⟩ := settled
        cases found.symm.trans foundToo
        exact ⟨none, alive⟩
      · exact fun both => ⟨data, found, both⟩
    rw [settled, applyFirst_builtinPatterns found]
    constructor
    · intro done
      obtain ⟨sum?, computed, rest⟩ := bind_eq_ok.mp done
      -- What is folded or erased counts as a change.
      cases sum? with
      | some sum =>
        obtain ⟨_, -, made⟩ := map_eq_ok.mp rest
        cases made
      | none =>
        dsimp only at rest
        split at rest
        · obtain ⟨_, -, made⟩ := map_eq_ok.mp rest
          cases made
        · rename_i alive
          cases rest
          exact ⟨rfl, computed, Bool.not_eq_true _ ▸ alive⟩
    · intro both
      obtain ⟨rfl, computed, alive⟩ := both
      refine bind_eq_ok.mpr ⟨none, computed, ?_⟩
      dsimp only
      rw [if_neg (Bool.not_eq_true _ ▸ alive)]

/-- Trying the built-in patterns is honest. -/
theorem honest_applyFirst (block : BlockId) (op : OpId) :
    Attempt.Honest (Pattern.applyFirst block op builtinPatterns) :=
  fun _ _ done => (applyFirst_eq_false_iff.mp done).1

/-- The visit of an operation in a block, by way of what is below it. -/
def visitOp (visit : OpId → Sweep) (block : BlockId) (op : OpId) : Sweep := fun ctx => do
  if (← ctx.op op).parentBlock = some block then
    (visit op).andThen (Pattern.applyFirst block op builtinPatterns).counted ctx
  else return (0, ctx)

/-- An operation of a block is visited honestly if what is below it is. -/
theorem honest_visitOp {visit : OpId → Sweep} (honest : ∀ op, (visit op).Honest)
    (block : BlockId) (op : OpId) : (visitOp visit block op).Honest := by
  intro ctx ctx' done
  obtain ⟨data, -, rest⟩ := bind_eq_ok.mp done
  split at rest
  · exact (honest op).andThen (honest_applyFirst block op).counted ctx ctx' rest
  · -- An operation that has left the block is passed over.
    cases rest
    rfl

/-- A visit of what is below an operation is honest. -/
theorem honest_visitBelow (depth : Nat) (op : OpId) :
    (visitBelow builtinPatterns depth op).Honest := by
  -- What is nested deeper is visited with less depth left.
  induction depth generalizing op with
  | zero => exact fun _ _ done => nomatch done
  | succ depth ih =>
    exact Sweep.Honest.eachBlock
      (fun block => Sweep.Honest.eachListed id (honest_visitOp ih block) block) op

/-- The visit of an operation that its block owns is at rest exactly when both parts of it are. -/
theorem rests_visitOp_iff {visit : OpId → Sweep} (honest : ∀ op, (visit op).Honest)
    {block : BlockId} {op : OpId} {data : Operation} (found : ctx.op op = .ok data)
    (attached : data.parentBlock = some block) :
    (visitOp visit block op).Rests ctx ↔ (visit op).Rests ctx ∧ Settled ctx op := by
  -- The operation is known and owned by its block, so that it is visited below and then tried.
  have reached : visitOp visit block op ctx =
      (visit op).andThen (Pattern.applyFirst block op builtinPatterns).counted ctx := by
    show (ctx.op op >>= _) = _
    rw [found]
    show (if data.parentBlock = some block then _ else _) = _
    rw [if_pos attached]
  -- Both parts are at rest exactly if the second one is after the first one has done nothing.
  rw [Sweep.Rests, reached, ← Sweep.Rests, Sweep.rests_andThen_iff (honest op)]
  refine and_congr_right fun _ => ?_
  rw [Sweep.Rests, Attempt.counted_eq_zero_iff, applyFirst_eq_false_iff]
  exact and_iff_right rfl

/-- A visit is at rest exactly when everything inside its root is settled. -/
theorem rests_visitBelow_iff {depth : Nat} {op : OpId} (fits : ctx.Fits depth (.op op))
    (owned : ctx.OwnedBelow op) :
    (visitBelow builtinPatterns depth op).Rests ctx ↔
      ∀ inner, TransGen ctx.Contains (.op op) (.op inner) → Settled ctx inner := by
  -- What is nested deeper is visited with less depth left, in which it fits.
  induction depth generalizing op with
  | zero => cases fits
  | succ depth ih =>
    have honest := honest_visitBelow depth
    have honestBlock (block : BlockId) :=
      Sweep.Honest.eachListed id (honest_visitOp honest block) block
    have atOp {inner : OpId} {block : BlockId} (holds : ctx.Holds op block inner) :
        (visitOp (visitBelow builtinPatterns depth) block inner).Rests ctx ↔
          (visitBelow builtinPatterns depth inner).Rests ctx ∧ Settled ctx inner := by
      obtain ⟨target, _, known, listed, same⟩ := Context.contains_block.mp holds.2
      cases same
      obtain ⟨data, found, attached⟩ := owned block target inner holds.1.transGen known listed
      exact rests_visitOp_iff honest found attached
    refine (Sweep.rests_eachBlock_iff honestBlock fits).trans ?_
    -- What is nested deeper is in an operation that some block of this one lists.
    constructor
    · intro rest inner inside
      obtain ⟨mid, ⟨block, holds⟩, after⟩ :=
        TransGen.head'_iff.mp (Context.transGen_nests_iff.mpr inside)
      have listed := (Sweep.rests_eachListed_iff id (by simp) (honest_visitOp honest block)).mp
        (rest block holds.1)
      obtain ⟨nested, settled⟩ := (atOp holds).mp (listed.2 mid holds.2)
      rcases reflTransGen_iff_eq_or_transGen.mp after with rfl | deeper
      · exact settled
      · have insideMid := Context.transGen_nests_iff.mp deeper
        exact (ih (fits.of_holds holds) (owned.inside holds.transGen)).mp nested inner insideMid
    · intro settled block encloses
      refine (Sweep.rests_eachListed_iff id (by simp) (honest_visitOp honest block)).mpr
        ⟨fits.exists_enclosed encloses, fun inner contains => ?_⟩
      have holds : ctx.Holds op block inner := ⟨encloses, contains⟩
      refine (atOp holds).mpr ⟨?_, settled inner holds.transGen⟩
      refine (ih (fits.of_holds holds) (owned.inside holds.transGen)).mpr ?_
      exact fun deeper inside => settled deeper (holds.transGen.trans inside)

/-- A visit of everything below an operation is at rest exactly when all of it is settled. -/
theorem rests_visit_iff {root : OpId} (fits : ctx.Fits ctx.depthBound (.op root))
    (owned : ctx.OwnedBelow root) :
    (visit builtinPatterns root).Rests ctx ↔
      ∀ inner, TransGen ctx.Contains (.op root) (.op inner) → Settled ctx inner := by
  -- A visit starts with more depth than is needed.
  have room : ctx.depthBound ≤ ctx.depthBound * (builtinPatterns.length + 1) :=
    Nat.le_mul_of_pos_right _ (by simp)
  rw [← rests_visitBelow_iff (fits.mono room) owned, Sweep.Rests, visit, Sweep.Rests]

/-- Only a known operation can be visited. -/
theorem exists_op_of_visitBelow {patterns : List Pattern} {depth : Nat} {op : OpId}
    {answer : Nat × Context} (done : visitBelow patterns depth op ctx = .ok answer) :
    ∃ data, ctx.op op = .ok data := by
  cases depth with
  | zero => cases done
  | succ depth =>
    obtain ⟨data, found, -⟩ := bind_eq_ok.mp done
    exact ⟨data, found⟩

/-- A canonicalization that has converged started at a known operation, and a visit is at rest. -/
theorem rests_of_iterate {root : OpId} {remaining : Nat} {result : Result}
    (done : iterate builtinPatterns root remaining ctx = .ok (result, ctx'))
    (converged : result.converged = true) :
    (∃ data, ctx.op root = .ok data) ∧ (visit builtinPatterns root).Rests ctx' := by
  -- The last visit is the one that counted nothing.
  induction remaining generalizing ctx result with
  | zero =>
    cases done
    cases converged
  | succ remaining ih =>
    obtain ⟨⟨count, mid⟩, visited, rest⟩ := bind_eq_ok.mp done
    refine ⟨exists_op_of_visitBelow visited, ?_⟩
    dsimp only at rest
    split at rest
    · rename_i none
      cases rest
      subst none
      have unchanged : ctx' = ctx := honest_visitBelow _ root ctx ctx' visited
      exact unchanged ▸ visited
    · obtain ⟨⟨later, last⟩, again, made⟩ := bind_eq_ok.mp rest
      cases made
      exact (ih again converged).2

/-- A canonicalization converges at once where a visit is at rest, and changes nothing. -/
theorem iterate_of_rests {root : OpId} (rests : (visit builtinPatterns root).Rests ctx)
    {remaining : Nat} (some_ : 1 ≤ remaining) :
    iterate builtinPatterns root remaining ctx = .ok (⟨[0], true⟩, ctx) := by
  obtain ⟨less, rfl⟩ : ∃ less, remaining = less + 1 := ⟨remaining - 1, by omega⟩
  exact bind_eq_ok.mpr ⟨(0, ctx), rests, rfl⟩

/-- A canonicalization that succeeds has converged. -/
theorem exists_converged_of_run {σ : Type} {config : Config} {root : OpId} {notes notes' : σ}
    (ran : (pass config).run root (ctx, notes) = .ok (.ok (), ctx', notes')) :
    ∃ result, iterate builtinPatterns root config.maxIterations ctx = .ok (result, ctx') ∧
      result.converged = true := by
  rw [run_pass] at ran
  obtain ⟨⟨result, last⟩, done, made⟩ := map_eq_ok.mp ran
  simp only [Prod.mk.injEq] at made
  obtain ⟨ended, rfl, -⟩ := made
  -- A run that has not converged ends in a failure.
  refine ⟨result, done, Classical.byContradiction fun other => ?_⟩
  simp [outcome, other] at ended

/--
After a canonicalization that succeeds, nothing inside its root is dead and nothing can be folded.
Another one succeeds without a change, and so does dead code elimination in its first sweep. The
program must have been built without direct edits, and without a cycle below the root.
-/
theorem normalForm_of_build {requests : List Request} {ctx : Context}
    (plain : ∀ request ∈ requests, request.isEdit = false)
    (built : Context.build requests = .ok ctx) {root : OpId}
    (acyclic : ctx.AcyclicBelow (.op root)) {σ : Type} {config : Config} {notes notes' : σ}
    {ctx' : Context} (ran : (pass config).run root (ctx, notes) = .ok (.ok (), ctx', notes')) :
    (∀ op data, TransGen ctx'.Contains (.op root) (.op op) → ctx'.op op = .ok data →
      ¬ (data.isPure = true ∧ ∀ value ∈ data.results, ctx'.isUsed value = false) ∧
        ¬ ctx'.Foldable data) ∧
      (∀ {τ : Type} (again : Config) (notes : τ), 1 ≤ again.maxIterations →
        (pass again).run root (ctx', notes) = .ok (.ok (), ctx', notes)) ∧
      ∀ config, DeadCode.eliminate config root ctx' = .ok (⟨0, 1, true⟩, ctx') := by
  obtain ⟨result, done, converged⟩ := exists_converged_of_run ran
  obtain ⟨known, rests⟩ := rests_of_iterate done converged
  -- The run is some rewrites, after which owners agree and depth is enough as before.
  have keep : ∀ request ∈ requests, request.keepsUses :=
    fun request member => Request.keepsUses_of_plain (plain request member)
  have meets : Meets (fun _ => True) (ctx.Within root) ctx
      (iterate builtinPatterns root config.maxIterations ctx) :=
    Meets.iterate (.of_build keep built) (fun _ _ _ _ _ => .inr trivial) (.inl fun _ => trivial) _
  rw [done] at meets
  have rewrites : Rewrites (ctx.Within root) ctx ctx' := meets
  obtain ⟨ops, -⟩ := Context.owned_of_build plain built
  obtain ⟨data, found⟩ := known
  have fits := (rewrites.evolves.fits (Context.fits_of_build plain built found acyclic)).mono
    rewrites.evolves.depthBound_le
  have owned := (rewrites.opsOwned ops).ownedBelow root
  have settled := (rests_visit_iff fits owned).mp rests
  -- Nothing below is dead or can be folded, so neither pass finds anything to do.
  refine ⟨fun op data inside found => ?_, fun again notes some_ => ?_, fun config => ?_⟩
  · obtain ⟨data', foundToo, none, alive⟩ := settled op inside
    cases found.symm.trans foundToo
    constructor
    · intro dead
      rw [Context.isDead_iff.mpr dead] at alive
      cases alive
    · intro foldable
      obtain ⟨sum, computed⟩ := foldable.exists_sum
      rw [computed] at none
      cases none
  · rw [run_pass, iterate_of_rests rests some_]
    rfl
  · refine DeadCode.eliminate_of_rests ((DeadCode.rests_sweep_iff fits).mpr ?_)
    intro inner covers
    obtain ⟨data, found, -, alive⟩ := settled inner covers.transGen
    exact ⟨data, found, alive⟩

/-- After the sum has been folded, nothing below the function is left to do. -/
theorem normalForm_of_build_overflowingSum :
    (∀ request ∈ overflowingSum, request.isEdit = false) ∧
      ∃ ctx, Context.build overflowingSum = .ok ctx ∧ ctx.AcyclicBelow (.op ⟨3⟩) ∧
        ∃ ctx', (pass {}).run ⟨3⟩ (ctx, ()) = .ok (.ok (), ctx', ()) ∧
          (∀ op data, TransGen ctx'.Contains (.op ⟨3⟩) (.op op) → ctx'.op op = .ok data →
            ¬ (data.isPure = true ∧ ∀ value ∈ data.results, ctx'.isUsed value = false) ∧
              ¬ ctx'.Foldable data) ∧
          (pass {}).run ⟨3⟩ (ctx', ()) = .ok (.ok (), ctx', ()) ∧
          DeadCode.eliminate {} ⟨3⟩ ctx' = .ok (⟨0, 1, true⟩, ctx') := by
  -- The run and the listing of everything below the function are evaluated.
  have evaluated : (Context.build overflowingSum >>= fun ctx => ctx.preorder (.op ⟨3⟩) >>= fun _ =>
      ((pass {}).run ⟨3⟩ (ctx, ())).map (·.1)) = .ok (.ok ()) := by decide +kernel
  obtain ⟨ctx, built, evaluated⟩ := bind_eq_ok.mp evaluated
  obtain ⟨listing, listed, evaluated⟩ := bind_eq_ok.mp evaluated
  obtain ⟨⟨outcome, ctx', notes⟩, ran, ended⟩ := map_eq_ok.mp evaluated
  cases ended
  have plain : ∀ request ∈ overflowingSum, request.isEdit = false := by decide
  have acyclic := (Context.preorder_ok_iff.mp ⟨listing, listed⟩).2
  obtain ⟨settled, again, eliminated⟩ := normalForm_of_build plain built acyclic ran
  exact ⟨plain, ctx, built, acyclic, ctx', ran, settled, again {} () (by decide), eliminated {}⟩

end Canonicalization

end NestedIR
