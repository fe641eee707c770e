import NestedIR.Proofs.Pass.Optimization
import NestedIR.Proofs.Pass.Turns

/-! The additions and constants below a root bound the changes that canonicalization makes. -/

namespace NestedIR

open Relation

namespace Context

variable {discarded touched : OpId → Prop} {ctx ctx' : Context} {kind : OpKind} {op : OpId}

/-- The operations of a kind somewhere inside an operation. -/
def opsBelow (ctx : Context) (root : OpId) (kind : OpKind) : Set OpId :=
  {op | TransGen ctx.Contains (.op root) (.op op) ∧
    ∃ data, ctx.op op = .ok data ∧ data.isKind kind}

/-- The operations of a kind that are in a block, of those that may be touched. -/
def opsInBlocks (ctx : Context) (touched : OpId → Prop) (kind : OpKind) : Set OpId :=
  {op | touched op ∧
    ∃ data block, ctx.op op = .ok data ∧ data.parentBlock = some block ∧ data.isKind kind}

/--
How many changes may still be made.

An addition allows for two, as it may be folded and the constant in its place erased later.
-/
noncomputable def workload (ctx : Context) (touched : OpId → Prop) : Nat :=
  2 * (ctx.opsInBlocks touched .addi).ncard + (ctx.opsInBlocks touched .constant).ncard

/-- The operations of a kind that are in a block are finitely many. -/
theorem finite_opsInBlocks (ctx : Context) (touched : OpId → Prop) (kind : OpKind) :
    (ctx.opsInBlocks touched kind).Finite :=
  finite_of_known fun _ ⟨_, data, _, found, _⟩ => ⟨data, found⟩

/-- Of what a sound program has below a root or not yet at all, what is in a block is below. -/
theorem opsInBlocks_within (sound : Sound discarded ctx) (root : OpId) (kind : OpKind) :
    ctx.opsInBlocks (ctx.Within root) kind = ctx.opsBelow root kind := by
  -- What is within the root is below it or not made yet, and what is below it is in a block.
  ext op
  constructor
  · intro inBlock
    obtain ⟨below | new, data, block, found, -, isKind⟩ := inBlock
    · exact ⟨below, data, found, isKind⟩
    · exact absurd (index_lt_of_op found) (Nat.not_lt.mpr new)
  · intro inside
    obtain ⟨below, data, found, isKind⟩ := inside
    obtain ⟨same, block, foundSame, owner⟩ := sound.attached_below below
    cases found.symm.trans foundSame
    exact ⟨.inl below, data, block, found, owner, isKind⟩

/-- The workload of a root is twice the additions below it and the constants below it. -/
theorem workload_within (sound : Sound discarded ctx) (root : OpId) :
    ctx.workload (ctx.Within root) =
      2 * (ctx.opsBelow root .addi).ncard + (ctx.opsBelow root .constant).ncard := by
  rw [workload, opsInBlocks_within sound, opsInBlocks_within sound]

end Context

namespace Replaces

variable {touched : OpId → Prop} {heir : Option OpId} {moved : ValueId → ValueId}
  {ctx ctx' : Context} {kind : OpKind} {op other : OpId}

/-- What is in a block after a replacement was so before, or is the heir, which is a constant. -/
theorem mem_opsInBlocks (replaces : Replaces op heir moved ctx ctx')
    (inBlock : other ∈ ctx'.opsInBlocks touched kind) :
    other ∈ ctx.opsInBlocks touched kind \ {op} ∨ heir = some other ∧ ¬ kind = .addi := by
  obtain ⟨touch, data, block, found, owner, isKind⟩ := inBlock
  rcases replaces.op_new found with ⟨old, foundOld⟩ | ⟨isHeir, -⟩
  · -- The replaced operation itself is in no block any more.
    cases found.symm.trans (replaces.op_known foundOld)
    by_cases same : other = op
    · simp [same] at owner
    · exact .inl ⟨⟨touch, old, block, foundOld, by simpa [same] using owner, isKind⟩, same⟩
  · obtain ⟨-, -, made, -, -, foundMade, isConstant, -⟩ := replaces.heir_eq isHeir
    cases found.symm.trans foundMade
    exact .inr ⟨isHeir, fun same => Operation.not_addi_of_constant isConstant (same ▸ isKind)⟩

/-- An operation of a kind that nothing replaces is one less of that kind. -/
theorem ncard_opsInBlocks_lt (replaces : Replaces op heir moved ctx ctx')
    (heirless : heir = none ∨ kind = .addi) (inBlock : op ∈ ctx.opsInBlocks touched kind) :
    (ctx'.opsInBlocks touched kind).ncard + 1 ≤ (ctx.opsInBlocks touched kind).ncard := by
  have finite := ctx.finite_opsInBlocks touched kind
  -- There is no heir, or none that is an addition as well, so that none of the kind comes in.
  have fewer : ctx'.opsInBlocks touched kind ⊆ ctx.opsInBlocks touched kind \ {op} := by
    intro other after
    refine (replaces.mem_opsInBlocks after).resolve_right fun ⟨isHeir, notSum⟩ => ?_
    rcases heirless with none | isSum
    · exact nomatch none.symm.trans isHeir
    · exact notSum isSum
  have bound := Set.ncard_le_ncard fewer (finite.subset Set.sdiff_subset)
  rw [← Set.ncard_sdiff_singleton_add_one inBlock finite]
  omega

/-- Of each kind there is one operation more at most, and none without an heir. -/
theorem ncard_opsInBlocks_le (replaces : Replaces op heir moved ctx ctx')
    (touched : OpId → Prop) (kind : OpKind) :
    (ctx'.opsInBlocks touched kind).ncard ≤
      (ctx.opsInBlocks touched kind).ncard + heir.toList.length := by
  have finite := ctx.finite_opsInBlocks touched kind
  -- At most the heir comes in, and without one nothing does.
  cases heir with
  | none =>
    refine Set.ncard_le_ncard (fun other after => ?_) finite
    exact ((replaces.mem_opsInBlocks after).resolve_right fun isHeir => nomatch isHeir.1).1
  | some new =>
    have among : ctx'.opsInBlocks touched kind ⊆ insert new (ctx.opsInBlocks touched kind) := by
      intro other after
      rcases replaces.mem_opsInBlocks after with before | ⟨isHeir, -⟩
      · exact .inr before.1
      · exact .inl (Option.some.inj isHeir).symm
    exact (Set.ncard_le_ncard among (finite.insert new)).trans (Set.ncard_insert_le new _)

end Replaces

namespace Canonicalization

variable {discarded touched : OpId → Prop} {ctx ctx' : Context} {op root : OpId} {count : Nat}

/-- A turn that changes something leaves less to change. -/
theorem workload_of_turn (sound : Sound discarded ctx) (touch : touched op)
    (done : turn op ctx = .ok (count, ctx')) :
    count + ctx'.workload touched ≤ ctx.workload touched := by
  obtain ⟨data, found, -⟩ := bind_eq_ok.mp done
  unfold Context.workload
  cases turnsInto_of_turn found done with
  | free free => omega
  | stay block owner sumless alive => omega
  | fold block sum owner computed performed =>
    -- An addition goes, and one constant at most comes.
    have replaces := Replaces.of_fold sound found computed performed
    have isSum := (Context.sum?_eq_some computed).1
    have sums := replaces.ncard_opsInBlocks_lt (.inr rfl) ⟨touch, data, block, found, owner, isSum⟩
    have constants := replaces.ncard_opsInBlocks_le touched .constant
    simp only [Option.toList_some, List.length_singleton] at constants
    omega
  | erase block owner sumless dead performed =>
    -- What is dead is a constant or an addition, and nothing comes.
    have replaces := Replaces.of_erase sound found dead performed
    have isPure := (Context.isDead_iff_usesOf.mp dead).1
    have sums := replaces.ncard_opsInBlocks_le touched .addi
    have constants := replaces.ncard_opsInBlocks_le touched .constant
    simp only [Option.toList_none, List.length_nil, Nat.add_zero] at sums constants
    rcases Bool.or_eq_true_iff.mp isPure with isConstant | isSum
    · have fewer := replaces.ncard_opsInBlocks_lt (.inl rfl)
        ⟨touch, data, block, found, owner, isConstant⟩
      omega
    · have fewer := replaces.ncard_opsInBlocks_lt (.inl rfl)
        ⟨touch, data, block, found, owner, isSum⟩
      omega

/-- The turns of operations that may be touched take as much off the workload as they change. -/
theorem workload_of_turns {ops : List OpId} (sound : Sound discarded ctx)
    (touch : ∀ op ∈ ops, touched op) (done : Sweep.each turn ops ctx = .ok (count, ctx')) :
    count + ctx'.workload touched ≤ ctx.workload touched := by
  -- Each turn starts from a program that the earlier ones have left sound.
  induction ops generalizing ctx discarded count with
  | nil =>
    cases done
    omega
  | cons op rest ih =>
    obtain ⟨⟨first, mid⟩, ran, done⟩ := bind_eq_ok.mp done
    obtain ⟨⟨more, last⟩, ranRest, made⟩ := bind_eq_ok.mp done
    cases made
    have here := workload_of_turn sound (touch op (by simp)) ran
    have soundMid : ∃ discarded, Sound discarded mid := by
      rcases same_or_rewrite_of_turn ran with rfl | rewrite
      · exact ⟨_, sound⟩
      · exact ⟨_, sound.rewrite rewrite⟩
    obtain ⟨gone, soundMid⟩ := soundMid
    have later := ih soundMid (fun other listed => touch other (by simp [listed])) ranRest
    omega

/-- A visit takes as much off the workload as it changes. -/
theorem workload_of_visit (sound : Sound discarded ctx)
    (fits : ctx.Fits ctx.depthBound (.op root)) (touch : ∀ op, ctx.Within root op → touched op)
    (done : visit builtinPatterns root ctx = .ok (count, ctx')) :
    count + ctx'.workload touched ≤ ctx.workload touched := by
  rw [visit_eq_turns sound fits] at done
  refine workload_of_turns sound (fun op hasTurn => touch op (.inl ?_)) done
  exact (Context.mem_turnsWithin_iff fits).mp hasTurn

/-- All visits together make no more changes than the workload at the start. -/
theorem workload_of_iterate {remaining : Nat} {result : Result} (sound : Sound discarded ctx)
    (fits : ctx.Fits ctx.depthBound (.op root)) (touch : ∀ op, ctx.Within root op → touched op)
    (done : iterate builtinPatterns root remaining ctx = .ok (result, ctx')) :
    result.changes.sum + ctx'.workload touched ≤ ctx.workload touched := by
  induction remaining generalizing ctx discarded result with
  | zero =>
    cases done
    simp
  | succ remaining ih =>
    obtain ⟨⟨count, mid⟩, visited, rest⟩ := bind_eq_ok.mp done
    have here := workload_of_visit sound fits touch visited
    dsimp only at rest
    split at rest
    · rename_i none
      cases rest
      subst none
      simpa using here
    · obtain ⟨⟨later, last⟩, again, made⟩ := bind_eq_ok.mp rest
      cases made
      -- A visit is some rewrites, so that the next one finds a sound program with no more below.
      have meets : Meets (fun _ => True) (ctx.Within root) ctx
          (visit builtinPatterns root ctx) :=
        Meets.visitBelow sound.consistent (fun _ _ _ _ _ _ => .inr trivial)
          (.inl fun _ => trivial)
      rw [visited] at meets
      have rewrites : Rewrites (ctx.Within root) ctx mid := meets
      obtain ⟨⟨gone, soundMid⟩, -⟩ := Condenses.of_rewrites sound rewrites
      have fitsMid := (rewrites.evolves.fits fits).mono rewrites.evolves.depthBound_le
      have less : later.changes.sum + last.workload touched ≤ mid.workload touched :=
        ih soundMid fitsMid (fun op within => touch op (rewrites.evolves.within within)) again
      simp only [List.sum_cons]
      omega

/-- Visits that have not converged were as many as allowed, and each of them changed something. -/
theorem changes_of_not_converged {remaining : Nat} {result : Result}
    (done : iterate builtinPatterns root remaining ctx = .ok (result, ctx'))
    (unfinished : result.converged = false) :
    result.changes.length = remaining ∧ ∀ count ∈ result.changes, 1 ≤ count := by
  induction remaining generalizing ctx result with
  | zero =>
    cases done
    simp
  | succ remaining ih =>
    -- The first visit changes something, for otherwise the visits would have converged.
    obtain ⟨⟨count, mid⟩, visited, rest⟩ := bind_eq_ok.mp done
    dsimp only at rest
    split at rest
    · cases rest
      cases unfinished
    · rename_i some_
      obtain ⟨⟨later, last⟩, again, made⟩ := bind_eq_ok.mp rest
      cases made
      obtain ⟨length, each⟩ := ih again unfinished
      exact ⟨by simp [length], by simpa using ⟨by omega, each⟩⟩

/-- A canonicalization is successful exactly when it has converged. -/
theorem outcome_eq_ok_iff {config : Config} {result : Result} :
    outcome config result = .ok () ↔ result.converged = true := by
  cases converged : result.converged <;> simp [outcome, converged]

/--
Canonicalization comes to an answer, with no more changes than there are constants and twice as many
additions below the root, and it is successful if one more visit than that is allowed. Where it is
not, it has made all the visits that are allowed, and each of them has changed something. The
program must have been built without direct edits, read known values only and have no cycle below
the root.
-/
theorem converges_of_build {requests : List Request} {ctx : Context}
    (plain : ∀ request ∈ requests, request.isEdit = false)
    (built : Context.build requests = .ok ctx)
    (reads : ∀ op data value, ctx.op op = .ok data → value ∈ data.operands →
      ∃ known, ctx.value value = .ok known)
    {root : OpId} {rootData : Operation} (found : ctx.op root = .ok rootData)
    (acyclic : ctx.AcyclicBelow (.op root)) {σ : Type} (config : Config) (notes : σ) :
    ∃ result ctx',
      iterate builtinPatterns root config.maxIterations ctx = .ok (result, ctx') ∧
      (pass config).run root (ctx, notes) = .ok (outcome config result, ctx', notes) ∧
      result.changes.sum ≤
        2 * (ctx.opsBelow root .addi).ncard + (ctx.opsBelow root .constant).ncard ∧
      (2 * (ctx.opsBelow root .addi).ncard + (ctx.opsBelow root .constant).ncard + 1 ≤
        config.maxIterations → outcome config result = .ok ()) ∧
      (outcome config result ≠ .ok () →
        result.changes.length = config.maxIterations ∧ ∀ count ∈ result.changes, 1 ≤ count) := by
  have sound := Sound.of_build plain built
  have fits := Context.fits_of_build plain built found acyclic
  have readsKnown : ctx.ReadsKnown fun _ => False :=
    fun op data value found listed => .inl (reads op data value found listed)
  obtain ⟨result, ctx', done, -⟩ :=
    (Meets.iterate sound.consistent readsKnown (.inr fits) config.maxIterations).exists_ok
  have spent := workload_of_iterate sound fits (fun _ => id) done
  rw [Context.workload_within sound] at spent
  have unfinished (failed : outcome config result ≠ .ok ()) :
      result.changes.length = config.maxIterations ∧ ∀ count ∈ result.changes, 1 ≤ count := by
    refine changes_of_not_converged done (Bool.eq_false_iff.mpr fun converged => ?_)
    exact failed (outcome_eq_ok_iff.mpr converged)
  refine ⟨result, ctx', done, ?_, by omega, fun room => ?_, unfinished⟩
  · rw [run_pass, done]
    rfl
  · -- Otherwise each of the visits would have made a change, which are more than there can be.
    refine Classical.byContradiction fun failed => ?_
    obtain ⟨length, each⟩ := unfinished failed
    have many := List.length_le_sum_of_one_le result.changes each
    omega

/-- One sum of one constant allows for three changes, so that ten visits are more than enough. -/
theorem converges_of_build_overflowingSum :
    (∀ request ∈ overflowingSum, request.isEdit = false) ∧
      ∃ ctx, Context.build overflowingSum = .ok ctx ∧
        (∀ op data value, ctx.op op = .ok data → value ∈ data.operands →
          ∃ known, ctx.value value = .ok known) ∧
        (∃ rootData, ctx.op ⟨3⟩ = .ok rootData) ∧ ctx.AcyclicBelow (.op ⟨3⟩) ∧
        2 * (ctx.opsBelow ⟨3⟩ .addi).ncard + (ctx.opsBelow ⟨3⟩ .constant).ncard + 1 ≤ 4 ∧
        ∃ result ctx', iterate builtinPatterns ⟨3⟩ 10 ctx = .ok (result, ctx') ∧
          (pass {}).run ⟨3⟩ (ctx, ()) = .ok (.ok (), ctx', ()) ∧ result.changes.sum ≤ 3 := by
  -- The hypotheses are decided by evaluating the requests.
  obtain ⟨ctx, built, inside, kinds, found, listed⟩ : ∃ ctx,
      Context.build overflowingSum = .ok ctx ∧
        (∀ data ∈ ctx.ops.toList, ∀ value ∈ data.operands, value.index < ctx.values.size) ∧
        (∀ entry ∈ ctx.ops.toList.zipIdx, (entry.1.isKind .addi → entry.2 = 1) ∧
          (entry.1.isKind .constant → entry.2 = 0)) ∧
        (∃ rootData, ctx.op ⟨3⟩ = .ok rootData) ∧
        ∃ listing, ctx.preorder (.op ⟨3⟩) = .ok listing :=
    ⟨_, rfl, by decide, by decide, ⟨_, rfl⟩, _, rfl⟩
  have plain : ∀ request ∈ overflowingSum, request.isEdit = false := by decide
  have reads : ∀ op data value, ctx.op op = .ok data → value ∈ data.operands →
      ∃ known, ctx.value value = .ok known :=
    fun op data value found read =>
      Context.exists_value_of_lt (inside data (Context.mem_ops_of_op found) value read)
  have acyclic := (Context.preorder_ok_iff.mp listed).2
  -- There is one addition and one constant in all.
  have sums : (ctx.opsBelow ⟨3⟩ .addi).ncard ≤ 1 := by
    refine (Set.ncard_le_ncard (t := {⟨1⟩}) ?_).trans_eq (Set.ncard_singleton _)
    rintro op ⟨-, data, foundSum, isSum⟩
    exact congrArg OpId.mk ((kinds _ (Context.mem_zipIdx_of_op foundSum)).1 isSum)
  have constants : (ctx.opsBelow ⟨3⟩ .constant).ncard ≤ 1 := by
    refine (Set.ncard_le_ncard (t := {⟨0⟩}) ?_).trans_eq (Set.ncard_singleton _)
    rintro op ⟨-, data, foundConstant, isConstant⟩
    exact congrArg OpId.mk ((kinds _ (Context.mem_zipIdx_of_op foundConstant)).2 isConstant)
  obtain ⟨rootData, foundRoot⟩ := found
  obtain ⟨result, ctx', done, ran, few, converges, -⟩ :=
    converges_of_build plain built reads foundRoot acyclic {} ()
  have bound : (4 : Nat) ≤ ({} : Config).maxIterations := by decide
  rw [converges (by omega)] at ran
  exact ⟨plain, ctx, built, reads, ⟨rootData, foundRoot⟩, acyclic, by omega, result, ctx', done,
    ran, by omega⟩

end Canonicalization

end NestedIR
