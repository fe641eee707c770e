import NestedIR.Proofs.Pass.Pipeline

/-! Pipelines of passes that always end run up to the first failure, and end with it. -/

namespace NestedIR

open Relation

namespace Context

/-- Below every operation everything is known, and nothing is inside itself. -/
def Traversable (ctx : Context) : Prop :=
  ∀ op data, ctx.op op = .ok data → ctx.KnownBelow (.op op) ∧ ctx.AcyclicBelow (.op op)

/-- Whether everything below each operation can be listed. -/
def isTraversable (ctx : Context) : Bool :=
  ctx.ops.toList.zipIdx.all fun entry => (ctx.preorder (.op ⟨entry.2⟩)).toBool

/-- A program can be traversed if everything below each of its operations can be listed. -/
theorem traversable_of_isTraversable {ctx : Context} (checked : ctx.isTraversable = true) :
    ctx.Traversable := by
  intro op data found
  -- Every known operation has been checked under its own number.
  have listing := List.all_eq_true.mp checked _ (mem_zipIdx_of_op found)
  refine preorder_ok_iff.mp ?_
  cases listed : ctx.preorder (.op op) with
  | error fault => simp [listed, Except.toBool] at listing
  | ok listing => exact ⟨listing, rfl⟩

/-- Every operation that was known still is. -/
def Retains (ctx ctx' : Context) : Prop :=
  ∀ op data, ctx.op op = .ok data → ∃ kept, ctx'.op op = .ok kept

/-- What is retained twice is retained. -/
theorem Retains.trans {ctx mid ctx' : Context} (first : ctx.Retains mid)
    (second : mid.Retains ctx') : ctx.Retains ctx' := by
  intro op data found
  obtain ⟨kept, foundMid⟩ := first op data found
  exact second op kept foundMid

end Context

section Answers

variable {σ φ : Type} {start : Context × σ}

/-- A run comes to an answer, leaves a program that can be traversed, and forgets nothing. -/
def Answers (start : Context × σ) (run : PassM σ (Except φ Unit)) : Prop :=
  ∃ ended stop, run start = .ok (ended, stop) ∧ stop.1.Traversable ∧ start.1.Retains stop.1

/-- Two runs answer if the second does from wherever the first may end. -/
theorem Answers.andThen {first later : PassM σ (Except φ Unit)} (answers : Answers start first)
    (goesOn : ∀ mid : Context × σ, mid.1.Traversable → start.1.Retains mid.1 →
      Answers mid later) : Answers start (Pass.andThen first later) := by
  -- Only a run that succeeds lets the next one start.
  obtain ⟨ended, mid, ran, traversable, retains⟩ := answers
  cases ended with
  | error failure =>
    exact ⟨_, mid, Pass.andThen_eq_ok.mpr (.inl ⟨failure, ran, rfl⟩), traversable, retains⟩
  | ok =>
    obtain ⟨ended, stop, ranLater, traversable', retains'⟩ := goesOn mid traversable retains
    exact ⟨ended, stop, Pass.andThen_eq_ok.mpr (.inr ⟨mid, ran, ranLater⟩), traversable',
      retains.trans retains'⟩

/-- Doing nothing is an answer. -/
theorem Answers.pure (traversable : start.1.Traversable) :
    Answers start (Pure.pure (.ok ()) : PassM σ (Except φ Unit)) :=
  ⟨.ok (), start, rfl, traversable, fun _ data found => ⟨data, found⟩⟩

end Answers

namespace Pass

variable {σ : Type} {pass : Pass σ}

/-- A pass that answers on every known operation of a program that can be traversed. -/
def Reliable (pass : Pass σ) : Prop :=
  ∀ target (start : Context × σ), start.1.Traversable →
    (∃ data, start.1.op target = .ok data) → Answers start (pass.run target)

/-- A reliable pass answers on known targets in turn. -/
theorem Reliable.runEach (reliable : pass.Reliable) {targets : List OpId} {start : Context × σ}
    (traversable : start.1.Traversable)
    (known : ∀ target ∈ targets, ∃ data, start.1.op target = .ok data) :
    Answers start (pass.runEach targets) := by
  induction targets generalizing start with
  | nil => exact .pure traversable
  | cons target rest ih =>
    rw [runEach_cons]
    refine (reliable target start traversable (known target (by simp))).andThen
      fun mid traversable retains => ih traversable fun other listed => ?_
    -- The targets were looked up at the start, and are still known later on.
    obtain ⟨data, found⟩ := known other (by simp [listed])
    exact retains other data found

/-- A reliable pass stays reliable under a layer of nesting. -/
theorem Reliable.nested (reliable : pass.Reliable) (kind : OpKind) :
    (Pass.nested kind pass).Reliable := by
  intro root start traversable known
  obtain ⟨data, found⟩ := known
  -- Below a known operation the targets can be looked up, and are known themselves.
  obtain ⟨knownBelow, acyclic⟩ := traversable root data found
  obtain ⟨targets, outermost⟩ : ∃ targets, start.1.outermost kind root = .ok targets :=
    Context.exists_outermost (Context.fits_depthBound knownBelow acyclic)
  obtain ⟨ended, stop, ran, rest⟩ := reliable.runEach traversable fun target listed => by
    obtain ⟨-, data, foundTarget, -⟩ := Context.live_of_outermost outermost target listed
    exact ⟨data, foundTarget⟩
  exact ⟨ended, stop, (run_nested outermost).trans ran, rest⟩

/-- A reliable pass stays reliable under any number of layers. -/
theorem Reliable.toPass {layered : Layered σ} (reliable : layered.pass.Reliable) :
    layered.toPass.Reliable := by
  obtain ⟨kinds, pass⟩ := layered
  induction kinds with
  | nil => exact reliable
  | cons kind kinds ih => exact (ih reliable).nested kind

/-- Reliable passes answer one after the other. -/
theorem Reliable.runFrom {passes : List (Pass σ)} (reliable : ∀ pass ∈ passes, pass.Reliable)
    {root : OpId} {start : Context × σ} (traversable : start.1.Traversable)
    (known : ∃ data, start.1.op root = .ok data) (index : Nat) :
    Answers start (Pipeline.runFrom root index passes) := by
  induction passes generalizing start index with
  | nil => exact .pure traversable
  | cons pass rest ih =>
    rw [Pipeline.runFrom_cons]
    obtain ⟨ended, stop, ran, left⟩ := reliable pass (by simp) root start traversable known
    -- The place and the name change nothing about what is left behind.
    have answers : Answers start (pass.staged root index) :=
      ⟨_, stop, map_eq_ok.mpr ⟨_, ran, rfl⟩, left⟩
    refine answers.andThen fun mid traversable retains => ?_
    obtain ⟨data, found⟩ := known
    exact ih (fun pass listed => reliable pass (by simp [listed])) traversable
      (retains root data found) (index + 1)

end Pass

section FailsFast

variable {σ : Type} {root : OpId} {layers : List (Layered σ)} {start stop : Context × σ}
  {log : List (Invocation σ)} {ended : Except Pipeline.Failure Unit}

/-- What a pipeline does up to its first failure, which it tells, and what it leaves behind. -/
structure FailsFast (root : OpId) (layers : List (Layered σ)) (start : Context × σ)
    (log : List (Invocation σ)) (ended : Except Pipeline.Failure Unit) (stop : Context × σ) :
    Prop where
  /-- Every invocation took place, and is one of a pass of the pipeline. -/
  real : ∀ invocation ∈ log,
    invocation.Real ∧ ∃ layered ∈ layers, invocation.pass = layered.pass
  /-- Each invocation starts where the one before ended, and nothing else changes the state. -/
  chain : Invocation.Chain start log (ended.mapError Pipeline.Failure.failure) stop
  /-- Without a failure, every invocation has succeeded. -/
  finished : ended = .ok () → ∀ invocation ∈ log, invocation.outcome = .ok ()
  /-- A failure is that of the last invocation, which leaves the final state. -/
  culprit : ∀ failure, ended = .error failure → ∃ front last, log = front ++ [last] ∧
    (∀ invocation ∈ front, invocation.outcome = .ok ()) ∧
      last.outcome = .error failure.failure ∧ last.after = stop
  /-- It names the first pass that fails by its place and its name under all layers. -/
  stopped : ∀ failure, ended = .error failure → ∃ front layered back early last mid,
    layers = front ++ layered :: back ∧ failure.index = front.length ∧
      failure.pass =
        layered.kinds.foldr (fun kind name => s!"{kind.fullName}({name})") layered.pass.name ∧
      log = early ++ last ∧ Stages root front start early (.ok ()) mid ∧
      Invokes layered.pass layered.kinds root mid last (.error failure.failure) stop

/-- The stages of a pipeline fail fast. -/
theorem Stages.failsFast (stages : Stages root layers start log ended stop) :
    FailsFast root layers start log ended stop := by
  have chain : Invocation.Chain start log (ended.mapError Pipeline.Failure.failure) stop := by
    refine InTurn.chain stages fun stage start log ended stop described => ?_
    obtain ⟨outcome, invokes, rfl⟩ := described
    -- The place and the name do not matter for the reason of a failure.
    cases outcome <;> exact invokes.chain
  refine ⟨InTurn.forall_log stages ?_, chain, fun succeeded => ?_, fun failure failed => ?_,
    fun failure failed => ?_⟩
  · intro stage isStage _ _ _ _ described invocation listed
    obtain ⟨outcome, invokes, -⟩ := described
    obtain ⟨ofPass, real⟩ := invokes.real invocation listed
    exact ⟨real, stage.1, List.fst_mem_of_mem_zipIdx isStage, ofPass⟩
  · subst succeeded
    exact chain.outcome_of_ok rfl
  · subst failed
    obtain ⟨front, last, same, before, outcome, after⟩ := chain.split_of_error
    exact ⟨front, last, same, before.outcome_of_ok rfl, outcome, after⟩
  · subst failed
    obtain ⟨front, stage, back, early, last, mid, split, same, before, described⟩ :=
      InTurn.split_of_error stages
    -- The stage that fails is a pass under its own place.
    obtain ⟨first, rest, rfl, rfl, splitRest⟩ := List.zipIdx_eq_append_iff.mp split
    obtain ⟨layered, others, rfl, rfl, -⟩ := List.zipIdx_eq_cons_iff.mp splitRest.symm
    obtain ⟨outcome, invokes, ends⟩ := described
    cases outcome with
    | ok => cases ends
    | error reason =>
      cases ends
      exact ⟨first, layered, others, early, last, mid, rfl, by simp, layered.toPass_name, same,
        before, invokes⟩

end FailsFast

namespace Pipeline

/--
A pipeline of passes under any layers of nesting makes the invocations of its stages, which a run
with a log shows, and fails fast. Two pipelines in a row are the first and then, unless it fails,
the second. If all passes are reliable, a pipeline ends on every known operation of a program that
can be traversed.
-/
theorem run_failsFast {σ : Type} (layers : List (Layered σ)) (root : OpId) (start : Context × σ) :
    (∀ ended stop, (Pipeline.mk (layers.map Layered.toPass)).run root start = .ok (ended, stop) ↔
      ∃ log, Stages root layers start log ended stop) ∧
    (∀ log ended stop, Stages root layers start log ended stop ↔
      (Pipeline.mk (layers.map Layered.logged)).run root (start.1, start.2, []) =
        .ok (ended, stop.1, stop.2, log)) ∧
    (∀ log ended stop, Stages root layers start log ended stop →
      FailsFast root layers start log ended stop) ∧
    (∀ more : List (Layered σ),
      (Pipeline.mk ((layers ++ more).map Layered.toPass)).run root =
        Pass.andThen ((Pipeline.mk (layers.map Layered.toPass)).run root) fun state =>
          ((Pipeline.mk (more.map Layered.toPass)).run root state).map fun answer =>
            (answer.1.mapError (Failure.after layers.length), answer.2)) ∧
    ((∀ layered ∈ layers, layered.pass.Reliable) → start.1.Traversable →
      (∃ data, start.1.op root = .ok data) →
        ∃ log ended stop, Stages root layers start log ended stop ∧ stop.1.Traversable) := by
  have plain (ended : Except Failure Unit) (stop : Context × σ) :
      (Pipeline.mk (layers.map Layered.toPass)).run root start = .ok (ended, stop) ↔
        ∃ log, Stages root layers start log ended stop := by
    have realizes := Realizes.stages (fun _ => rfl)
      (fun layered => layered.realizes_toPass root) layers 0 start [] ended stop
    show runFrom root 0 (layers.map Layered.toPass) start = _ ↔ _
    simpa [Stages] using realizes
  refine ⟨plain, fun log ended stop => ?_, fun _ _ _ => Stages.failsFast, fun more => ?_,
    fun reliable traversable known => ?_⟩
  · have realizes := Realizes.stages Layered.logged_name
      (fun layered => layered.realizes_logged root) layers 0 start [] ended (stop.1, stop.2, log)
    show _ ↔ runFrom root 0 (layers.map Layered.logged) (start.1, start.2, []) = _
    rw [realizes]
    constructor
    · exact fun stages => ⟨log, stop, stages, rfl⟩
    · -- The view shows the whole state and the whole log.
      intro described
      obtain ⟨made, ⟨ctx, notes⟩, stages, same⟩ := described
      obtain ⟨ctx', notes'⟩ := stop
      cases same
      exact stages
  · rw [List.map_append, run_append, List.length_map]
  · have all : ∀ pass ∈ layers.map Layered.toPass, pass.Reliable := by
      intro pass listed
      obtain ⟨layered, isLayered, rfl⟩ := List.mem_map.mp listed
      exact (reliable layered isLayered).toPass
    obtain ⟨ended, stop, ran, left, -⟩ := Pass.Reliable.runFrom all traversable known 0
    obtain ⟨log, stages⟩ := (plain ended stop).mp ran
    exact ⟨log, ended, stop, stages, left⟩

/-- A pass that changes nothing, and fails on one operation. -/
def refusing (refused : OpId) : Pass Unit where
  name := "check"
  run target := fun state => return (if target = refused then .error ⟨"refused"⟩ else .ok (), state)

/-- A pass that changes nothing is reliable. -/
theorem reliable_refusing (refused : OpId) : (refusing refused).Reliable := by
  intro target start traversable _
  exact ⟨_, start, rfl, traversable, fun _ data found => ⟨data, found⟩⟩

/-- Requests for a module with three functions. -/
def threeFunctions : List Request :=
  [.addOp { name := OpKind.func.opName }, .addOp { name := OpKind.func.opName },
    .addOp { name := OpKind.func.opName }, .addBlock { ops := [⟨0⟩, ⟨1⟩, ⟨2⟩] },
    .addRegion { blocks := [⟨0⟩] }, .addOp { name := OpKind.module.opName, regions := [⟨0⟩] }]

/-- Checks of the module, of each of its functions, and of the module again. -/
def threeChecks : List (Layered Unit) :=
  [⟨[], refusing ⟨0⟩⟩, ⟨[.func], refusing ⟨1⟩⟩, ⟨[], refusing ⟨3⟩⟩]

/-- The second pass fails on the second function, and nothing is run on the third or later on. -/
theorem run_failsFast_threeFunctions : ∃ ctx, Context.build threeFunctions = .ok ctx ∧
    (∀ layered ∈ threeChecks, layered.pass.Reliable) ∧ ctx.Traversable ∧
    (∃ data, ctx.op ⟨3⟩ = .ok data) ∧ ∃ log stop, log.map Invocation.target = [⟨3⟩, ⟨0⟩, ⟨1⟩] ∧
      FailsFast ⟨3⟩ threeChecks (ctx, ()) log (.error ⟨1, "func(check)", ⟨"refused"⟩⟩) stop := by
  -- The run with a log is evaluated, and so are the listings below all operations.
  have evaluated : (Context.build threeFunctions >>= fun ctx => ctx.op ⟨3⟩ >>= fun _ =>
      ((Pipeline.mk (threeChecks.map Layered.logged)).run ⟨3⟩ (ctx, (), [])).map fun answer =>
        (answer.1, answer.2.2.2.map Invocation.target, ctx.isTraversable)) =
      .ok (.error ⟨1, "func(check)", ⟨"refused"⟩⟩, [⟨3⟩, ⟨0⟩, ⟨1⟩], true) := by decide +kernel
  obtain ⟨ctx, built, evaluated⟩ := bind_eq_ok.mp evaluated
  obtain ⟨data, found, evaluated⟩ := bind_eq_ok.mp evaluated
  obtain ⟨⟨outcome, left, notes, log⟩, ran, same⟩ := map_eq_ok.mp evaluated
  obtain ⟨rfl, same⟩ := Prod.ext_iff.mp same
  obtain ⟨targets, listed⟩ := Prod.ext_iff.mp same
  have traversable := Context.traversable_of_isTraversable listed
  have reliable : ∀ layered ∈ threeChecks, layered.pass.Reliable := by
    intro layered isLayered
    simp only [threeChecks, List.mem_cons, List.not_mem_nil, or_false] at isLayered
    rcases isLayered with rfl | rfl | rfl <;> exact reliable_refusing _
  obtain ⟨-, logged, failsFast, -, ends⟩ := run_failsFast threeChecks ⟨3⟩ (ctx, ())
  -- The invocations that are logged are those of the only run.
  obtain ⟨made, ended, stop, stages, -⟩ := ends reliable traversable ⟨data, found⟩
  cases ran.symm.trans ((logged made ended stop).mp stages)
  exact ⟨ctx, built, reliable, traversable, ⟨data, found⟩, log, stop, targets,
    failsFast _ _ _ stages⟩

end Pipeline

end NestedIR
