import NestedIR.Proofs.Pass.DefaultPipeline

/-! Pipelines run their passes in turn, stop at the first failure, and take nothing back. -/

namespace NestedIR

namespace Pass

section AndThen

variable {τ φ : Type} {first later last : PassM τ (Except φ Unit)}

/-- One run after another, unless the first one fails. -/
def andThen (first later : PassM τ (Except φ Unit)) : PassM τ (Except φ Unit) := do
  match ← first with
  | .ok () => later
  | .error failure => return .error failure

/-- Two runs break off where the first one does. -/
theorem andThen_of_broken {state : Context × τ} {fault : Fault}
    (broken : first state = .error fault) : andThen first later state = .error fault := by
  show (first state >>= _) = _
  rw [broken]
  rfl

/-- A failure of the first run is that of both, and the second one is left out. -/
theorem andThen_of_failed {state mid : Context × τ} {failure : φ}
    (failed : first state = .ok (.error failure, mid)) :
    andThen first later state = .ok (.error failure, mid) := by
  show (first state >>= _) = _
  rw [failed]
  rfl

/-- After a success of the first run, the second one decides. -/
theorem andThen_of_succeeded {state mid : Context × τ}
    (succeeded : first state = .ok (.ok (), mid)) : andThen first later state = later mid := by
  show (first state >>= _) = _
  rw [succeeded]
  rfl

/-- Two runs end with the failure of the first, or as the second ends after the first. -/
theorem andThen_eq_ok {state final : Context × τ} {ended : Except φ Unit} :
    andThen first later state = .ok (ended, final) ↔
      (∃ failure, first state = .ok (.error failure, final) ∧ ended = .error failure) ∨
        ∃ mid, first state = .ok (.ok (), mid) ∧ later mid = .ok (ended, final) := by
  cases ran : first state with
  | error fault => simp [andThen_of_broken ran]
  | ok answer =>
    obtain ⟨outcome, mid⟩ := answer
    cases outcome with
    | error failure =>
      -- Only the first alternative is left, with this failure.
      simp [andThen_of_failed ran, eq_comm, and_comm]
    | ok => simp [andThen_of_succeeded ran]

/-- Two runs break off where the first does, or where the second does after the first. -/
theorem andThen_eq_error {state : Context × τ} {fault : Fault} :
    andThen first later state = .error fault ↔ first state = .error fault ∨
      ∃ mid, first state = .ok (.ok (), mid) ∧ later mid = .error fault := by
  -- The first run breaks off, fails or succeeds, and only then is there a second one.
  cases ran : first state with
  | error fault => simp [andThen_of_broken ran]
  | ok answer =>
    obtain ⟨outcome, mid⟩ := answer
    cases outcome with
    | error failure => simp [andThen_of_failed ran]
    | ok => simp [andThen_of_succeeded ran]

/-- It does not matter which two of three runs are taken together. -/
theorem andThen_assoc :
    andThen (andThen first later) last = andThen first (andThen later last) := by
  -- A failure of the first run leaves out the other two either way.
  funext state
  show ((first state >>= _) >>= _) = (first state >>= _)
  cases first state with
  | error fault => rfl
  | ok answer =>
    obtain ⟨outcome, mid⟩ := answer
    cases outcome <;> rfl

/-- A pass runs on the first target, and then on the rest. -/
theorem runEach_cons (pass : Pass τ) (target : OpId) (rest : List OpId) :
    pass.runEach (target :: rest) = andThen (pass.run target) (pass.runEach rest) := by
  -- The other targets have their turns only after a pass that succeeds.
  funext state
  show (pass.run target state >>= _) = (pass.run target state >>= _)
  cases pass.run target state with
  | error fault => rfl
  | ok answer =>
    obtain ⟨outcome, mid⟩ := answer
    cases outcome <;> rfl

end AndThen

/-- A pass as part of a pipeline tells its place and its name when it fails. -/
def staged {τ : Type} (pass : Pass τ) (root : OpId) (index : Nat) :
    PassM τ (Except Pipeline.Failure Unit) := fun state =>
  (pass.run root state).map fun answer =>
    (answer.1.mapError (Pipeline.Failure.mk index pass.name), answer.2)

end Pass

namespace Pipeline

variable {τ : Type} {root : OpId}

/-- The same failure with a number of passes in front. -/
def Failure.after (count : Nat) (stop : Failure) : Failure :=
  { stop with index := count + stop.index }

/-- The first pass runs as part of the pipeline, and the rest after it. -/
theorem runFrom_cons (index : Nat) (pass : Pass τ) (rest : List (Pass τ)) :
    runFrom root index (pass :: rest) =
      Pass.andThen (pass.staged root index) (runFrom root (index + 1) rest) := by
  funext state
  -- A pass that fails names its place, and otherwise the rest takes over with the next place.
  show (pass.run root state >>= _) = ((pass.run root state).map _ >>= _)
  cases pass.run root state with
  | error fault => rfl
  | ok answer =>
    obtain ⟨outcome, mid⟩ := answer
    cases outcome <;> rfl

/-- Passes run after other ones, with their places counted on. -/
theorem runFrom_append (index : Nat) (front back : List (Pass τ)) :
    runFrom root index (front ++ back) =
      Pass.andThen (runFrom root index front) (runFrom root (index + front.length) back) := by
  -- Each pass in front moves the places of the others on by one.
  induction front generalizing index with
  | nil => rfl
  | cons pass rest ih =>
    rw [List.cons_append, runFrom_cons, runFrom_cons, ih, Pass.andThen_assoc, List.length_cons,
      Nat.add_assoc index, Nat.add_comm 1]

/-- Passes whose places start later fail at later places, and in no other way. -/
theorem runFrom_add (count index : Nat) (passes : List (Pass τ)) (state : Context × τ) :
    runFrom root (count + index) passes state = (runFrom root index passes state).map
      fun answer => (answer.1.mapError (Failure.after count), answer.2) := by
  -- Where the counting starts shows only in the failure that is told.
  induction passes generalizing index state with
  | nil => rfl
  | cons pass rest ih =>
    show (pass.run root state >>= _) = (pass.run root state >>= _).map _
    cases pass.run root state with
    | error fault => rfl
    | ok answer =>
      obtain ⟨outcome, mid⟩ := answer
      cases outcome with
      | error failure => rfl
      | ok => exact ih (index + 1) mid

/-- Two pipelines in a row are the first one, and then the second one unless the first fails. -/
theorem run_append (front back : List (Pass τ)) :
    (Pipeline.mk (front ++ back)).run root =
      Pass.andThen ((Pipeline.mk front).run root) fun state =>
        ((Pipeline.mk back).run root state).map fun answer =>
          (answer.1.mapError (Failure.after front.length), answer.2) := by
  -- The places in the second pipeline are counted on from the end of the first one.
  show runFrom root 0 (front ++ back) = _
  rw [runFrom_append, Nat.zero_add]
  congr 1
  funext state
  exact runFrom_add front.length 0 back state

end Pipeline

section Realizes

variable {β ε τ φ : Type}

/-- A run does what a description says, where a view adds a log to the states that it is about. -/
def Realizes (view : β → List ε → Context × τ) (run : PassM τ (Except φ Unit))
    (describes : β → List ε → Except φ Unit → β → Prop) : Prop :=
  ∀ start past ended final, run (view start past) = .ok (ended, final) ↔
    ∃ log stop, describes start log ended stop ∧ final = view stop (past ++ log)

namespace Realizes

variable {view : β → List ε → Context × τ}

/-- Doing nothing realizes work on nothing. -/
theorem done {α : Type} (work : α → β → List ε → Except φ Unit → β → Prop) :
    Realizes view (pure (.ok ())) (InTurn work []) := by
  intro start past ended final
  constructor
  · intro ran
    -- Without an item, nothing is logged and nothing changes.
    cases ran
    exact ⟨[], start, .done start, by rw [List.append_nil]⟩
  · intro described
    obtain ⟨log, stop, inTurn, rfl⟩ := described
    cases inTurn
    rw [List.append_nil]
    rfl

/-- What realizes work on one item, and then work on the rest, realizes work on them in turn. -/
theorem next {α : Type} {work : α → β → List ε → Except φ Unit → β → Prop} {item : α}
    {rest : List α} {first later : PassM τ (Except φ Unit)}
    (realizes : Realizes view first (work item))
    (realizesRest : Realizes view later (InTurn work rest)) :
    Realizes view (Pass.andThen first later) (InTurn work (item :: rest)) := by
  intro start past ended final
  rw [Pass.andThen_eq_ok]
  constructor
  · rintro (⟨failure, ran, rfl⟩ | ⟨mid, ran, ranRest⟩)
    · obtain ⟨log, stop, described, same⟩ := (realizes _ _ _ _).mp ran
      exact ⟨log, stop, .failed described, same⟩
    · -- The rest starts with what has been logged so far.
      obtain ⟨log, between, described, rfl⟩ := (realizes _ _ _ _).mp ran
      obtain ⟨more, stop, inTurn, same⟩ := (realizesRest _ _ _ _).mp ranRest
      exact ⟨log ++ more, stop, .next described inTurn, by rw [same, List.append_assoc]⟩
  · intro described
    obtain ⟨log, stop, inTurn, rfl⟩ := described
    cases inTurn with
    | failed first => exact .inl ⟨_, (realizes _ _ _ _).mpr ⟨log, stop, first, rfl⟩, rfl⟩
    | @next _ _ _ mid _ early more _ first inTurn =>
      refine .inr ⟨view mid (past ++ early), (realizes _ _ _ _).mpr ⟨early, mid, first, rfl⟩, ?_⟩
      exact (realizesRest _ _ _ _).mpr ⟨more, stop, inTurn, by rw [List.append_assoc]⟩

end Realizes

end Realizes

section Nested

variable {σ τ : Type} {view : Context × σ → List (Invocation σ) → Context × τ}

/-- A pass on targets in turn realizes what it does on each of them. -/
theorem Realizes.runEach {pass : Pass τ}
    {work : OpId → Context × σ → List (Invocation σ) → Outcome → Context × σ → Prop}
    (realizes : ∀ target, Realizes view (pass.run target) (work target)) (targets : List OpId) :
    Realizes view (pass.runEach targets) (InTurn work targets) := by
  -- The recursion on the targets is the one by which work is done in turn.
  induction targets with
  | nil => exact .done work
  | cons target rest ih =>
    rw [Pass.runEach_cons]
    exact (realizes target).next ih

/-- Layers of nesting realize the invocations of a pass if the pass itself does. -/
theorem Realizes.invokes (view : Context × σ → List (Invocation σ) → Context × τ)
    {pass : Pass σ} {inner : Pass τ}
    (same : ∀ state log, (view state log).1 = state.1)
    (realizes : ∀ target, Realizes view (inner.run target) (Invokes pass [] target))
    (kinds : List OpKind) (root : OpId) :
    Realizes view ((kinds.foldr Pass.nested inner).run root) (Invokes pass kinds root) := by
  induction kinds generalizing root with
  | nil => exact realizes root
  | cons kind kinds ih =>
    intro start past ended final
    -- The targets are those of the program at the start, whatever has been logged.
    have ran {targets : List OpId} (outermost : start.1.outermost kind root = .ok targets) :
        (((kind :: kinds).foldr Pass.nested inner).run root) (view start past) =
          (kinds.foldr Pass.nested inner).runEach targets (view start past) := by
      rw [← same start past] at outermost
      exact Pass.run_nested outermost
    constructor
    · intro done
      -- A run that comes to an answer has found its targets first.
      obtain ⟨⟨targets, state⟩, looked, rest⟩ := bind_eq_ok.mp done
      obtain ⟨found, outermost, made⟩ := bind_eq_ok.mp looked
      cases made
      rw [same] at outermost
      obtain ⟨log, stop, inTurn, final⟩ := (Realizes.runEach ih targets _ _ _ _).mp rest
      exact ⟨log, stop, ⟨targets, outermost, inTurn⟩, final⟩
    · intro described
      obtain ⟨log, stop, ⟨targets, outermost, inTurn⟩, final⟩ := described
      rw [ran outermost]
      exact (Realizes.runEach ih targets _ _ _ _).mpr ⟨log, stop, inTurn, final⟩

end Nested

section Stages

variable {σ τ : Type}

/-- The invocations of one stage of a pipeline, which tells its place and its name when it fails. -/
def Stage (root : OpId) (stage : Layered σ × Nat) (start : Context × σ)
    (log : List (Invocation σ)) (ended : Except Pipeline.Failure Unit) (stop : Context × σ) :
    Prop :=
  ∃ outcome, Invokes stage.1.pass stage.1.kinds root start log outcome stop ∧
    ended = outcome.mapError (Pipeline.Failure.mk stage.2 stage.1.toPass.name)

/-- The invocations of a pipeline, stage by stage. -/
def Stages (root : OpId) (layers : List (Layered σ)) : Context × σ → List (Invocation σ) →
    Except Pipeline.Failure Unit → Context × σ → Prop :=
  InTurn (Stage root) layers.zipIdx

/-- A pipeline realizes its stages if each of its passes realizes its invocations. -/
theorem Realizes.stages {view : Context × σ → List (Invocation σ) → Context × τ} {root : OpId}
    {make : Layered σ → Pass τ} (named : ∀ layered, (make layered).name = layered.toPass.name)
    (realizes : ∀ layered,
      Realizes view ((make layered).run root) (Invokes layered.pass layered.kinds root))
    (layers : List (Layered σ)) (index : Nat) :
    Realizes view (Pipeline.runFrom root index (layers.map make))
      (InTurn (Stage root) (layers.zipIdx index)) := by
  induction layers generalizing index with
  | nil => exact .done _
  | cons layered rest ih =>
    rw [List.map_cons, Pipeline.runFrom_cons, List.zipIdx_cons]
    refine Realizes.next (fun start past ended final => ?_) (ih (index + 1))
    -- The stage ends as its pass does, with the place and the name added to a failure.
    rw [Pass.staged, map_eq_ok, named]
    constructor
    · intro staged
      obtain ⟨⟨outcome, reached⟩, ran, made⟩ := staged
      cases made
      obtain ⟨log, stop, invokes, rfl⟩ := (realizes layered _ _ _ _).mp ran
      exact ⟨log, stop, ⟨outcome, invokes, rfl⟩, rfl⟩
    · intro described
      obtain ⟨log, stop, ⟨outcome, invokes, rfl⟩, rfl⟩ := described
      exact ⟨_, (realizes layered _ _ _ _).mpr ⟨log, stop, invokes, rfl⟩, rfl⟩

end Stages

/-- A pass that also keeps a log of its invocations. -/
def Pass.logged {σ : Type} (pass : Pass σ) : Pass (σ × List (Invocation σ)) where
  name := pass.name
  run target := fun (ctx, notes, log) => do
    let (outcome, after) ← pass.run target (ctx, notes)
    return (outcome, after.1, after.2, log ++ [⟨pass, target, (ctx, notes), outcome, after⟩])

namespace Layered

variable {σ : Type}

/-- A layered pass of which the innermost one keeps a log. -/
def logged (layered : Layered σ) : Pass (σ × List (Invocation σ)) :=
  layered.kinds.foldr Pass.nested layered.pass.logged

/-- Every layer puts its kind in front of the name. -/
theorem toPass_name (layered : Layered σ) : layered.toPass.name =
    layered.kinds.foldr (fun kind name => s!"{kind.fullName}({name})") layered.pass.name := by
  obtain ⟨kinds, pass⟩ := layered
  induction kinds with
  | nil => rfl
  | cons kind kinds ih => exact congrArg (fun name => s!"{kind.fullName}({name})") ih

/-- Keeping a log does not change the name. -/
theorem logged_name (layered : Layered σ) : layered.logged.name = layered.toPass.name := by
  obtain ⟨kinds, pass⟩ := layered
  induction kinds with
  | nil => rfl
  | cons kind kinds ih => exact congrArg (fun name => s!"{kind.fullName}({name})") ih

/-- A layered pass makes its invocations. -/
theorem realizes_toPass (layered : Layered σ) (root : OpId) :
    Realizes (fun state _ => state) (layered.toPass.run root)
      (Invokes layered.pass layered.kinds root) := by
  refine Realizes.invokes _ (fun _ _ => rfl) (fun target start past ended final => ?_) _ root
  simp [Invokes]

/-- A layered pass with a log makes the same invocations, and logs them. -/
theorem realizes_logged (layered : Layered σ) (root : OpId) :
    Realizes (fun state log => (state.1, state.2, log)) (layered.logged.run root)
      (Invokes layered.pass layered.kinds root) := by
  refine Realizes.invokes (fun state log => (state.1, state.2, log)) (fun _ _ => rfl)
    (fun target start past ended final => ?_) _ root
  -- After the pass itself has run, one entry is put behind what has been logged so far.
  show (layered.pass.run target start >>= _) = _ ↔ _
  rw [bind_eq_ok]
  constructor
  · intro ran
    obtain ⟨⟨outcome, stop⟩, ran, made⟩ := ran
    cases made
    exact ⟨_, stop, ⟨ran, rfl⟩, rfl⟩
  · intro described
    obtain ⟨_, stop, ⟨ran, rfl⟩, rfl⟩ := described
    exact ⟨(ended, stop), ran, rfl⟩

end Layered

end NestedIR
