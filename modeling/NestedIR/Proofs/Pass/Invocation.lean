import NestedIR.Pass.Pipeline
import NestedIR.Proofs.Traversal

/-! Which operations a pass is run on in which order and from which state, however deep it nests. -/

namespace NestedIR

/-- One run of a pass on an operation, from the state that it found to the one that it left. -/
structure Invocation (σ : Type) where
  /-- The pass that is run. -/
  pass : Pass σ
  /-- The operation that it is run on. -/
  target : OpId
  /-- The program and the notes before the run. -/
  before : Context × σ
  /-- How the run ended. -/
  outcome : Outcome
  /-- The program and the notes after the run. -/
  after : Context × σ

namespace Invocation

variable {σ : Type} {start mid stop : Context × σ} {log more : List (Invocation σ)}
  {ended : Outcome}

/-- An invocation that took place. -/
def Real (invocation : Invocation σ) : Prop :=
  invocation.pass.run invocation.target invocation.before =
    .ok (invocation.outcome, invocation.after)

/--
Invocations of which each starts from the state that the one before it left.

Only the last one may have failed, and nothing else changes the state.
-/
inductive Chain : Context × σ → List (Invocation σ) → Outcome → Context × σ → Prop where
  /-- Without an invocation nothing changes. -/
  | nil (state : Context × σ) : Chain state [] (.ok ()) state
  /-- A failure ends the chain. -/
  | failed {invocation : Invocation σ} {failure : Pass.Failure}
    (outcome : invocation.outcome = .error failure) :
    Chain invocation.before [invocation] (.error failure) invocation.after
  /-- After a success the chain goes on from the state that is left. -/
  | next {invocation : Invocation σ} {rest : List (Invocation σ)} {ended : Outcome}
    {stop : Context × σ} (outcome : invocation.outcome = .ok ())
    (later : Chain invocation.after rest ended stop) :
    Chain invocation.before (invocation :: rest) ended stop

namespace Chain

/-- One invocation is a chain. -/
theorem single (invocation : Invocation σ) :
    Chain invocation.before [invocation] invocation.outcome invocation.after := by
  cases outcome : invocation.outcome with
  | error failure => exact .failed outcome
  | ok => exact .next outcome (.nil _)

/-- A chain without a failure may be followed by another one. -/
theorem append (first : Chain start log (.ok ()) mid) (second : Chain mid more ended stop) :
    Chain start (log ++ more) ended stop := by
  -- Only the last chain can hold a failure, so that the first one just goes on.
  generalize succeeded : (Except.ok () : Outcome) = outcome at first
  induction first with
  | nil => exact second
  | failed => cases succeeded
  | next outcome _ ih => exact .next outcome (ih second succeeded)

/-- A chain that ends well has no failure in it. -/
theorem outcome_of_ok (chain : Chain start log ended stop) (succeeded : ended = .ok ()) :
    ∀ invocation ∈ log, invocation.outcome = .ok () := by
  induction chain with
  | nil => simp
  | failed => cases succeeded
  | next outcome _ ih => simpa [outcome] using ih succeeded

/-- A chain that ends badly ends with its only failure, which leaves the last state. -/
theorem split_of_error {failure : Pass.Failure} (chain : Chain start log (.error failure) stop) :
    ∃ front last, log = front ++ [last] ∧ Chain start front (.ok ()) last.before ∧
      last.outcome = .error failure ∧ last.after = stop := by
  -- Nothing follows on a failure, so that it is found at the end.
  generalize failed : (Except.error failure : Outcome) = outcome at chain
  induction chain with
  | nil => cases failed
  | @failed invocation _ outcome =>
    cases failed
    exact ⟨[], invocation, rfl, .nil _, outcome, rfl⟩
  | @next invocation _ _ _ outcome _ ih =>
    obtain ⟨front, last, rfl, before, ends, leaves⟩ := ih failed
    exact ⟨invocation :: front, last, rfl, .next outcome before, ends, leaves⟩

end Chain

end Invocation

/--
Work on items in turn up to the first failure, with all that is logged on the way.

Each item is worked on from the state that the item before it left.
-/
inductive InTurn {α β ε φ : Type} (work : α → β → List ε → Except φ Unit → β → Prop) :
    List α → β → List ε → Except φ Unit → β → Prop where
  /-- Without an item nothing is done. -/
  | done (state : β) : InTurn work [] state [] (.ok ()) state
  /-- An item that fails is the last one. -/
  | failed {item : α} {rest : List α} {start stop : β} {log : List ε} {failure : φ}
    (first : work item start log (.error failure) stop) :
    InTurn work (item :: rest) start log (.error failure) stop
  /-- After an item that succeeds, the rest is worked on. -/
  | next {item : α} {rest : List α} {start mid stop : β} {log more : List ε}
    {ended : Except φ Unit} (first : work item start log (.ok ()) mid)
    (later : InTurn work rest mid more ended stop) :
    InTurn work (item :: rest) start (log ++ more) ended stop

namespace InTurn

variable {α β ε φ : Type} {work : α → β → List ε → Except φ Unit → β → Prop} {items : List α}
  {start stop : β} {log : List ε} {ended : Except φ Unit}

/-- What is logged for every item is logged for all of them together. -/
theorem forall_log {holds : ε → Prop} (inTurn : InTurn work items start log ended stop)
    (each : ∀ item ∈ items, ∀ start log ended stop, work item start log ended stop →
      ∀ entry ∈ log, holds entry) : ∀ entry ∈ log, holds entry := by
  -- An entry is logged by the first item or by a later one.
  induction inTurn with
  | done => simp
  | failed first => exact each _ (by simp) _ _ _ _ first
  | next first _ ih =>
    intro entry listed
    rcases List.mem_append.mp listed with early | late
    · exact each _ (by simp) _ _ _ _ first entry early
    · exact ih (fun item isItem => each item (by simp [isItem])) entry late

/-- A failure is that of one item, up to which everything succeeds. -/
theorem split_of_error {failure : φ} (inTurn : InTurn work items start log (.error failure) stop) :
    ∃ front item back early last mid, items = front ++ item :: back ∧ log = early ++ last ∧
      InTurn work front start early (.ok ()) mid ∧ work item mid last (.error failure) stop := by
  -- An item that succeeds only joins the items in front of the one that fails.
  generalize failed : (Except.error failure : Except φ Unit) = outcome at inTurn
  induction inTurn with
  | done => cases failed
  | @failed item rest start stop log _ first =>
    cases failed
    exact ⟨[], item, rest, [], log, start, rfl, rfl, .done start, first⟩
  | @next item rest _ _ _ log _ _ first _ ih =>
    obtain ⟨front, other, back, early, last, mid, rfl, rfl, before, fails⟩ := ih failed
    exact ⟨item :: front, other, back, log ++ early, last, mid, rfl, (List.append_assoc ..).symm,
      .next first before, fails⟩

/-- What is a chain for every item is a chain for all of them. -/
theorem chain {σ : Type} {work : α → Context × σ → List (Invocation σ) → Except φ Unit →
      Context × σ → Prop} {reason : φ → Pass.Failure} {start stop : Context × σ}
    {log : List (Invocation σ)} (inTurn : InTurn work items start log ended stop)
    (each : ∀ item start log ended stop, work item start log ended stop →
      Invocation.Chain start log (ended.mapError reason) stop) :
    Invocation.Chain start log (ended.mapError reason) stop := by
  -- Each item begins where the one before it has ended.
  induction inTurn with
  | done => exact .nil _
  | failed first => exact each _ _ _ _ _ first
  | next first _ ih => exact (each _ _ _ _ _ first).append ih

end InTurn

/-- A nested pass runs on the outermost operations of its kind. -/
theorem Pass.run_nested {σ : Type} {ctx : Context} {root : OpId} {notes : σ} {kind : OpKind}
    {pass : Pass σ} {targets : List OpId} (outermost : ctx.outermost kind root = .ok targets) :
    (Pass.nested kind pass).run root (ctx, notes) = pass.runEach targets (ctx, notes) := by
  show ((ctx.outermost kind root >>= fun targets => pure (targets, ctx, notes)) >>=
    fun found => pass.runEach found.1 found.2) = _
  rw [outermost]
  rfl

/-- A pass under layers of nesting. -/
structure Layered (σ : Type) where
  /-- The kinds of the layers, the outermost first. -/
  kinds : List OpKind
  /-- The pass that the innermost layer runs. -/
  pass : Pass σ

/-- The pass that the layers make of the innermost one. -/
def Layered.toPass {σ : Type} (layered : Layered σ) : Pass σ :=
  layered.kinds.foldr Pass.nested layered.pass

/--
The invocations of a pass under layers of nesting, as it is run on one operation.

Every layer looks for its targets when it is reached, and the layers below it are run on each.
-/
def Invokes {σ : Type} (pass : Pass σ) : List OpKind → OpId → Context × σ →
    List (Invocation σ) → Outcome → Context × σ → Prop
  | [], target, start, log, ended, stop =>
    pass.run target start = .ok (ended, stop) ∧ log = [⟨pass, target, start, ended, stop⟩]
  | kind :: kinds, root, start, log, ended, stop =>
    ∃ targets, start.1.outermost kind root = .ok targets ∧
      InTurn (Invokes pass kinds) targets start log ended stop

namespace Invokes

variable {σ : Type} {pass : Pass σ} {kinds : List OpKind} {root : OpId} {start stop : Context × σ}
  {log : List (Invocation σ)} {ended : Outcome}

/-- The invocations of a pass took place. -/
theorem real (invokes : Invokes pass kinds root start log ended stop) :
    ∀ invocation ∈ log, invocation.pass = pass ∧ invocation.Real := by
  induction kinds generalizing root start log ended stop with
  | nil =>
    obtain ⟨ran, rfl⟩ := invokes
    simpa [Invocation.Real] using ran
  | cons kind kinds ih =>
    -- What a layer logs is what the layers below it log for its targets.
    obtain ⟨targets, -, inTurn⟩ := invokes
    exact inTurn.forall_log fun target _ _ _ _ _ => ih

/-- The invocations of a pass are a chain. -/
theorem chain (invokes : Invokes pass kinds root start log ended stop) :
    Invocation.Chain start log ended stop := by
  induction kinds generalizing root start log ended stop with
  | nil =>
    obtain ⟨ran, rfl⟩ := invokes
    exact .single ⟨pass, root, start, ended, stop⟩
  | cons kind kinds ih =>
    obtain ⟨targets, -, inTurn⟩ := invokes
    -- A layer passes on the failures of its targets as they are.
    have same (outcome : Outcome) : outcome.mapError id = outcome := by cases outcome <;> rfl
    have chain : Invocation.Chain start log (ended.mapError id) stop :=
      inTurn.chain fun target start log ended stop invokes => (same ended).symm ▸ ih invokes
    rwa [same] at chain

end Invokes

end NestedIR
