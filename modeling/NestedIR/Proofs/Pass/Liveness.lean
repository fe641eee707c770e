import NestedIR.Proofs.Pass.FailFast
import NestedIR.Proofs.Pass.Targets

/-! A nested pass finds its targets where they were, as long as it keeps to what is inside them. -/

namespace NestedIR

open Relation

namespace Invocation

variable {σ : Type} {kind : OpKind} {root target : OpId} {invocation : Invocation σ}

/-- An invocation that breaks no way to an operation, which stays of a kind if it was. -/
structure Spares (kind : OpKind) (root target : OpId) (invocation : Invocation σ) : Prop where
  /-- What is listed on a way from the root to the operation still is. -/
  way : ∀ {outer inner}, ReflTransGen invocation.before.1.Contains (.op root) outer →
    invocation.before.1.Contains outer inner →
      ReflTransGen invocation.before.1.Contains inner (.op target) →
        invocation.after.1.Contains outer inner
  /-- The operation has not come to be of another kind. -/
  kind : ∀ {data}, invocation.before.1.op target = .ok data → data.isKind kind →
    ∃ left, invocation.after.1.op target = .ok left ∧ left.isKind kind

/-- An invocation that leaves the lists and the names outside its own target as they were. -/
structure Confined (invocation : Invocation σ) : Prop where
  /-- What is not inside the target lists what it listed. -/
  members : ∀ {entity listed},
    ¬ ReflTransGen invocation.before.1.Contains (.op invocation.target) entity →
      invocation.before.1.members entity = .ok listed →
        invocation.after.1.members entity = .ok listed
  /-- What is not inside the target has the name that it had. -/
  name : ∀ {op data},
    ¬ ReflTransGen invocation.before.1.Contains (.op invocation.target) (.op op) →
      invocation.before.1.op op = .ok data →
        ∃ left, invocation.after.1.op op = .ok left ∧ left.name = data.name

/-- A live target that is spared is still live. -/
theorem Spares.live (spares : invocation.Spares kind root target)
    (live : invocation.before.1.Live kind root target) :
    invocation.after.1.Live kind root target := by
  obtain ⟨path, data, found, isKind⟩ := live
  refine ⟨?_, spares.kind found isKind⟩
  -- The way down is followed step by step, with what is left of it at hand.
  have followed : ∀ {inner}, TransGen invocation.before.1.Contains (.op root) inner →
      ReflTransGen invocation.before.1.Contains inner (.op target) →
        TransGen invocation.after.1.Contains (.op root) inner := by
    intro inner path down
    induction path with
    | single step => exact .single (spares.way .refl step down)
    | tail front step ih =>
      exact (ih (down.head step)).tail (spares.way front.to_reflTransGen step down)
  exact followed path .refl

/-- An invocation that keeps to its own target spares whatever is apart from it. -/
theorem Confined.spares (confined : invocation.Confined)
    (apart : invocation.before.1.Apart (.op invocation.target) (.op target)) :
    invocation.Spares kind root target where
  way := by
    intro outer inner _ contains down
    -- What is above an operation is not inside anything that is apart from it.
    have outside : ¬ ReflTransGen invocation.before.1.Contains (.op invocation.target) outer :=
      fun path => apart _ (path.trans (down.head contains)) .refl
    obtain ⟨listed, members, isListed⟩ := contains
    exact ⟨listed, confined.members outside members, isListed⟩
  kind := by
    intro data found isKind
    obtain ⟨left, foundLeft, same⟩ := confined.name (fun path => apart _ path .refl) found
    exact ⟨left, foundLeft, by rwa [Operation.isKind, same, ← Operation.isKind]⟩

/-- What is inside an operation apart from the target lists what it listed. -/
theorem Confined.members_below (confined : invocation.Confined)
    (apart : invocation.before.1.Apart (.op invocation.target) (.op target))
    (known : invocation.before.1.KnownBelow (.op target)) {inner : Entity}
    (down : ReflTransGen invocation.before.1.Contains (.op target) inner) :
    ∃ listed, invocation.before.1.members inner = .ok listed ∧
      invocation.after.1.members inner = .ok listed := by
  obtain ⟨listed, members⟩ := known inner down
  exact ⟨listed, members, confined.members (fun path => apart _ path down) members⟩

/-- Nothing comes to be inside an operation apart from the target. -/
theorem Confined.reaches_before (confined : invocation.Confined)
    (apart : invocation.before.1.Apart (.op invocation.target) (.op target))
    (known : invocation.before.1.KnownBelow (.op target)) {inner : Entity}
    (down : ReflTransGen invocation.after.1.Contains (.op target) inner) :
    ReflTransGen invocation.before.1.Contains (.op target) inner := by
  -- A step that leads on from what was inside before is one in a list that has not changed.
  induction down with
  | refl => exact .refl
  | tail _ step ih =>
    obtain ⟨listed, members, members'⟩ := confined.members_below apart known ih
    obtain ⟨again, foundAgain, isListed⟩ := step
    cases members'.symm.trans foundAgain
    exact ih.tail ⟨listed, members, isListed⟩

end Invocation

/-- Targets that wait for their turn: live, known all the way down, and apart from each other. -/
structure Waiting (kind : OpKind) (root : OpId) (targets : List OpId) (ctx : Context) : Prop where
  /-- The targets are of the kind and below the root. -/
  live : ∀ target ∈ targets, ctx.Live kind root target
  /-- Everything inside the targets is known. -/
  known : ∀ target ∈ targets, ctx.KnownBelow (.op target)
  /-- The targets are apart from each other. -/
  apart : targets.Pairwise fun first second => ctx.Apart (.op first) (.op second)

/-- The targets that are found wait for their turn. -/
theorem Waiting.of_outermost {discarded : OpId → Prop} {kind : OpKind} {root : OpId}
    {targets : List OpId} {ctx : Context} (sound : Sound discarded ctx)
    (fits : ctx.Fits ctx.depthBound (.op root))
    (outermost : ctx.outermost kind root = .ok targets) : Waiting kind root targets ctx := by
  obtain ⟨below, apart⟩ := Context.targetsBelow_of_outermost sound fits outermost
  refine ⟨Context.live_of_outermost outermost, fun target listed inner down => ?_, apart⟩
  -- What is inside a target is below the root as well.
  exact fits.below.1 inner ((below target listed).to_reflTransGen.trans down)

/-- The other targets still wait after an invocation that keeps to the first of them. -/
theorem Waiting.step {σ : Type} {kind : OpKind} {root : OpId} {rest : List OpId}
    {invocation : Invocation σ}
    (waiting : Waiting kind root (invocation.target :: rest) invocation.before.1)
    (confined : invocation.Confined) : Waiting kind root rest invocation.after.1 := by
  obtain ⟨apartFirst, apartRest⟩ := List.pairwise_cons.mp waiting.apart
  have known (other : OpId) (isOther : other ∈ rest) := waiting.known other (by simp [isOther])
  -- Inside the others everything is as it was before.
  have before {other : OpId} (isOther : other ∈ rest) {inner : Entity}
      (down : ReflTransGen invocation.after.1.Contains (.op other) inner) :=
    confined.reaches_before (apartFirst other isOther) (known other isOther) down
  refine ⟨fun other isOther => ?_, fun other isOther inner down => ?_, ?_⟩
  · exact (confined.spares (apartFirst other isOther)).live (waiting.live other (by simp [isOther]))
  · obtain ⟨listed, -, members⟩ := confined.members_below (apartFirst other isOther)
      (known other isOther) (before isOther down)
    exact ⟨listed, members⟩
  · exact apartRest.imp_of_mem fun isFirst isSecond apart inner down path =>
      apart inner (before isFirst down) (before isSecond path)

/-- What each invocation passes on for the targets that are left, a run passes on to the last. -/
theorem InTurn.passes_on {σ : Type} {pass : Pass σ} (holds : List OpId → Context × σ → Prop)
    {front : List OpId} (back : List OpId) {start stop : Context × σ} {log : List (Invocation σ)}
    (inTurn : InTurn (Invokes pass []) front start log (.ok ()) stop)
    (step : ∀ invocation ∈ log, ∀ rest, holds (invocation.target :: rest) invocation.before →
      holds rest invocation.after)
    (before : holds (front ++ back) start) : holds back stop := by
  -- The invocation on the first target comes first, and its own step passes on to the rest.
  generalize succeeded : (Except.ok () : Outcome) = ended at inTurn
  induction inTurn with
  | done => exact before
  | failed => cases succeeded
  | @next item rest start mid _ _ _ _ first _ ih =>
    obtain ⟨-, rfl⟩ := first
    have passed : holds (rest ++ back) mid :=
      step ⟨pass, item, start, .ok (), mid⟩ (by simp) _ before
    exact ih (fun invocation listed => step invocation (by simp [listed])) passed succeeded

namespace Pass

variable {σ : Type} {pass : Pass σ} {kind : OpKind} {root target : OpId} {targets : List OpId}
  {start mid stop : Context × σ} {log : List (Invocation σ)} {ended : Outcome}

/--
The moment at which a nested pass comes to one of its targets.

The targets in front have been dealt with by the invocations that are logged.
-/
def ComesTo (pass : Pass σ) (kind : OpKind) (root : OpId) (start : Context × σ)
    (log : List (Invocation σ)) (target : OpId) (mid : Context × σ) : Prop :=
  ∃ front back, start.1.outermost kind root = .ok (front ++ target :: back) ∧
    InTurn (Invokes pass []) front start log (.ok ()) mid

/-- Every invocation on some targets is one on the next target, from where the others led. -/
theorem exists_split_of_invokes (inTurn : InTurn (Invokes pass []) targets start log ended stop)
    {early late : List (Invocation σ)} {invocation : Invocation σ}
    (split : log = early ++ invocation :: late) :
    ∃ front back, targets = front ++ invocation.target :: back ∧
      InTurn (Invokes pass []) front start early (.ok ()) invocation.before := by
  -- Each target makes one entry, so that the log and the targets are split at the same place.
  induction inTurn generalizing early with
  | done => simp at split
  | @failed item rest _ _ _ _ first =>
    obtain ⟨-, rfl⟩ := first
    cases early with
    | nil =>
      cases split
      exact ⟨[], rest, rfl, .done _⟩
    | cons _ early => simp at split
  | @next item rest _ _ _ _ _ _ first _ ih =>
    obtain ⟨ran, rfl⟩ := first
    cases early with
    | nil =>
      cases split
      exact ⟨[], rest, rfl, .done _⟩
    | cons _ early =>
      obtain ⟨rfl, splitRest⟩ := List.cons.inj split
      obtain ⟨front, back, rfl, before⟩ := ih splitRest
      exact ⟨item :: front, back, rfl, .next ⟨ran, rfl⟩ before⟩

/-- A pass on some targets breaks off where it breaks off on one of them. -/
theorem runEach_eq_error {fault : Fault} :
    pass.runEach targets start = .error fault ↔
      ∃ front target back log mid, targets = front ++ target :: back ∧
        InTurn (Invokes pass []) front start log (.ok ()) mid ∧
          pass.run target mid = .error fault := by
  -- The first target breaks off itself, or is one more in front of the target that does.
  induction targets generalizing start with
  | nil =>
    constructor
    · intro stopped
      cases stopped
    · rintro ⟨_, _, _, _, _, same, -⟩
      simp at same
  | cons first rest ih =>
    rw [runEach_cons, andThen_eq_error]
    constructor
    · rintro (stopped | ⟨mid, ran, stopped⟩)
      · exact ⟨[], first, rest, [], start, rfl, .done start, stopped⟩
      · obtain ⟨front, target, back, log, last, rfl, inTurn, stopped⟩ := ih.mp stopped
        exact ⟨first :: front, target, back, _, last, rfl, .next ⟨ran, rfl⟩ inTurn, stopped⟩
    · intro stops
      obtain ⟨front, target, back, log, last, split, inTurn, stopped⟩ := stops
      cases front with
      | nil =>
        cases split
        cases inTurn
        exact .inl stopped
      | cons _ front =>
        obtain ⟨rfl, rfl⟩ := List.cons.inj split
        cases inTurn with
        | next ran inTurn =>
          exact .inr ⟨_, ran.1, ih.mpr ⟨front, target, back, _, last, rfl, inTurn, stopped⟩⟩

/-- A nested pass breaks off where it breaks off on the target that it has come to. -/
theorem nested_eq_error {ctx : Context} {notes : σ} {fault : Fault}
    (outermost : ctx.outermost kind root = .ok targets) :
    (nested kind pass).run root (ctx, notes) = .error fault ↔
      ∃ log target mid, pass.ComesTo kind root (ctx, notes) log target mid ∧
        pass.run target mid = .error fault := by
  -- The targets are known from the start, so that only the passes on them can break off.
  rw [run_nested outermost, runEach_eq_error]
  constructor
  · intro stops
    obtain ⟨front, target, back, log, mid, rfl, inTurn, stopped⟩ := stops
    exact ⟨log, target, mid, ⟨front, back, outermost, inTurn⟩, stopped⟩
  · intro stops
    obtain ⟨log, target, mid, ⟨front, back, again, inTurn⟩, stopped⟩ := stops
    cases outermost.symm.trans again
    exact ⟨front, target, back, log, mid, rfl, inTurn, stopped⟩

/-- If all earlier invocations spare a target, it is live in its turn. -/
theorem ComesTo.live_of_spares (comes : pass.ComesTo kind root start log target mid)
    (spares : ∀ invocation ∈ log, invocation.Spares kind root target) :
    mid.1.Live kind root target := by
  obtain ⟨front, back, outermost, inTurn⟩ := comes
  have before : start.1.Live kind root target :=
    Context.live_of_outermost outermost target (by simp)
  -- Whatever waits behind it, the target stays live from one invocation to the next.
  exact InTurn.passes_on (fun _ state => state.1.Live kind root target) back inTurn
    (fun invocation listed _ => (spares invocation listed).live) before

/-- If all earlier invocations keep to their own targets, a target is live in its turn. -/
theorem ComesTo.live_of_confined {discarded : OpId → Prop} (sound : Sound discarded start.1)
    (fits : start.1.Fits start.1.depthBound (.op root))
    (comes : pass.ComesTo kind root start log target mid)
    (confined : ∀ invocation ∈ log, invocation.Confined) : mid.1.Live kind root target := by
  obtain ⟨front, back, outermost, inTurn⟩ := comes
  -- All targets wait at first, and the target and what is behind it still do in its turn.
  have waiting : Waiting kind root (target :: back) mid.1 :=
    InTurn.passes_on (fun rest state => Waiting kind root rest state.1) _ inTurn
      (fun invocation listed _ waiting => waiting.step (confined invocation listed))
      (.of_outermost sound fits outermost)
  exact waiting.live target (by simp)

/--
What a nested pass runs on, and what keeps its targets live until it comes to them.

Passes may change anything anywhere, and the targets are looked up only once.
-/
structure TargetsLive (pass : Pass σ) (kind : OpKind) (root : OpId) (start : Context × σ) :
    Prop where
  /-- The targets that are found are live, and the pass is run on each of them. -/
  found : ∃ targets, start.1.outermost kind root = .ok targets ∧
    (∀ target ∈ targets, start.1.Live kind root target) ∧
      (nested kind pass).run root start = pass.runEach targets start
  /-- A run that comes to an answer consists of its invocations. -/
  ran : ∀ {ended stop}, (nested kind pass).run root start = .ok (ended, stop) ↔
    ∃ log, Invokes pass [kind] root start log ended stop
  /-- A run that breaks off does so on the target that it has come to. -/
  broke : ∀ {fault}, (nested kind pass).run root start = .error fault ↔
    ∃ log target mid, pass.ComesTo kind root start log target mid ∧
      pass.run target mid = .error fault
  /-- Every invocation is one on the target that the run has come to. -/
  moment : ∀ {log ended stop early invocation late}, Invokes pass [kind] root start log ended stop →
    log = early ++ invocation :: late →
      pass.ComesTo kind root start early invocation.target invocation.before
  /-- A target is live in its turn unless an earlier invocation took it away or changed its kind. -/
  spared : ∀ {log target mid}, pass.ComesTo kind root start log target mid →
    (∀ invocation ∈ log, invocation.Spares kind root target) → mid.1.Live kind root target
  /-- It is live if the earlier invocations have kept to what is inside their own targets. -/
  confined : ∀ {log target mid}, pass.ComesTo kind root start log target mid →
    (∀ invocation ∈ log, invocation.Confined) → mid.1.Live kind root target

/--
Without direct edits, and without a cycle below the root, a nested pass finds live targets. Each is
still live when its turn comes, if no earlier invocation took it out of the tree or changed its
kind, and therefore if the pass changes nothing but what is inside its own target.
-/
theorem targetsLive_of_build {requests : List Request} {ctx : Context}
    (plain : ∀ request ∈ requests, request.isEdit = false)
    (built : Context.build requests = .ok ctx) {data : Operation} (known : ctx.op root = .ok data)
    (acyclic : ctx.AcyclicBelow (.op root)) (kind : OpKind) (pass : Pass σ) (notes : σ) :
    pass.TargetsLive kind root (ctx, notes) := by
  -- The search reads the program only, so that its targets are live when it ends.
  have sound := Sound.of_build plain built
  have fits := Context.fits_of_build plain built known acyclic
  obtain ⟨targets, outermost⟩ : ∃ targets, ctx.outermost kind root = .ok targets :=
    Context.exists_outermost fits
  refine ⟨⟨targets, outermost, Context.live_of_outermost outermost, run_nested outermost⟩, ?_,
    nested_eq_error outermost, ?_, fun comes spares => comes.live_of_spares spares,
    fun comes confined => comes.live_of_confined sound fits confined⟩
  · intro ended stop
    -- A nested pass is a layered one with a single layer.
    have realizes : (nested kind pass).run root (ctx, notes) = .ok (ended, stop) ↔ _ :=
      Layered.realizes_toPass ⟨[kind], pass⟩ root (ctx, notes) [] ended stop
    simpa using realizes
  · intro log ended stop early invocation late invokes split
    obtain ⟨targets, outermost, inTurn⟩ := invokes
    -- Each invocation in the log is on one target, after those on the targets in front of it.
    obtain ⟨front, back, rfl, before⟩ := exists_split_of_invokes inTurn split
    exact ⟨front, back, outermost, before⟩

/-- A pass that renames what it is run on, which is then of another kind. -/
def relabeling : Pass Unit := .ofContext "relabel" fun target ctx => do
  return (.ok (), ← ctx.editOp target (.setName (.bare "labeled")))

/-- The target gets a new name, and nothing else happens. -/
theorem relabeling_eq_ok {target : OpId} {before after : Context × Unit} {ended : Outcome}
    (ran : relabeling.run target before = .ok (ended, after)) :
    after.1 = before.1.modifyOp target (OpEdit.setName (.bare "labeled")).apply := by
  obtain ⟨answer, changed, made⟩ := bind_eq_ok.mp ran
  obtain ⟨ctx, edited, same⟩ := bind_eq_ok.mp changed
  cases same
  cases made
  obtain ⟨data, -, made⟩ := Context.editOp_eq_ok.mp edited
  exact made

/-- A new name for the target leaves everything else alone. -/
theorem confined_relabeling {invocation : Invocation Unit}
    (ofPass : invocation.pass = relabeling) (real : invocation.Real) : invocation.Confined := by
  rw [Invocation.Real, ofPass] at real
  have made := relabeling_eq_ok real
  -- Another operation is not inside the target, and looks as before.
  have other {op : OpId}
      (outside : ¬ ReflTransGen invocation.before.1.Contains (.op invocation.target) (.op op)) :
      invocation.after.1.op op = invocation.before.1.op op := by
    have differ : op ≠ invocation.target := by
      rintro rfl
      exact outside .refl
    rw [made, Context.op_modifyOp, if_neg differ]
  refine ⟨fun {entity listed} outside members => ?_, fun outside found => ?_⟩
  · cases entity with
    | op op => exact (congrArg (· >>= _) (other outside)).trans members
    | region region => rwa [made]
    | block block => rwa [made]
  · exact ⟨_, (other outside).trans found, rfl⟩

/-- The three functions are all live in their turn, although each one is renamed in its own. -/
theorem targetsLive_of_build_threeFunctions :
    (∀ request ∈ Pipeline.threeFunctions, request.isEdit = false) ∧
      ∃ ctx, Context.build Pipeline.threeFunctions = .ok ctx ∧ (∃ data, ctx.op ⟨3⟩ = .ok data) ∧
        ctx.AcyclicBelow (.op ⟨3⟩) ∧ relabeling.TargetsLive .func ⟨3⟩ (ctx, ()) ∧
        ∃ log stop, Invokes relabeling [.func] ⟨3⟩ (ctx, ()) log (.ok ()) stop ∧
          log.map Invocation.target = [⟨0⟩, ⟨1⟩, ⟨2⟩] ∧
          ∀ invocation ∈ log, invocation.Confined ∧
            invocation.before.1.Live .func ⟨3⟩ invocation.target := by
  have plain : ∀ request ∈ Pipeline.threeFunctions, request.isEdit = false := by decide
  -- The run with a log is evaluated, and so is the listing below the module.
  have evaluated : (Context.build Pipeline.threeFunctions >>= fun ctx => ctx.op ⟨3⟩ >>= fun _ =>
      ctx.preorder (.op ⟨3⟩) >>= fun _ =>
        ((Layered.mk [.func] relabeling).logged.run ⟨3⟩ (ctx, (), [])).map fun answer =>
          (answer.1, answer.2.2.2.map Invocation.target)) =
      .ok (.ok (), [⟨0⟩, ⟨1⟩, ⟨2⟩]) := by decide +kernel
  obtain ⟨ctx, built, evaluated⟩ := bind_eq_ok.mp evaluated
  obtain ⟨data, known, evaluated⟩ := bind_eq_ok.mp evaluated
  obtain ⟨listing, listed, evaluated⟩ := bind_eq_ok.mp evaluated
  obtain ⟨⟨ended, left, notes, logged⟩, ran, same⟩ := map_eq_ok.mp evaluated
  obtain ⟨rfl, targets⟩ := Prod.ext_iff.mp same
  have acyclic := (Context.preorder_ok_iff.mp ⟨listing, listed⟩).2
  have serves := targetsLive_of_build plain built known acyclic .func relabeling ()
  obtain ⟨log, stop, invokes, final⟩ :=
    (Layered.realizes_logged (Layered.mk [.func] relabeling) ⟨3⟩ (ctx, ()) [] _ _).mp ran
  cases final
  have confined : ∀ invocation ∈ log, invocation.Confined := by
    intro invocation isLogged
    obtain ⟨ofPass, real⟩ := invokes.real invocation isLogged
    exact confined_relabeling ofPass real
  refine ⟨plain, ctx, built, ⟨data, known⟩, acyclic, serves, log, stop, invokes, targets,
    fun invocation isLogged => ⟨confined invocation isLogged, ?_⟩⟩
  -- What was logged before an invocation has kept to other targets.
  obtain ⟨early, late, rfl⟩ := List.append_of_mem isLogged
  exact serves.confined (serves.moment invokes rfl) fun before isEarly =>
    confined before (by simp [isEarly])

/-- A pass that takes a given operation out of its block, wherever it is run. -/
def detaching (op : OpId) : Pass Unit := .ofContext "detach" fun _ ctx => do
  match (← ctx.op op).parentBlock with
  | some block => return (.ok (), ← ctx.detachOp block op)
  | none => return (.ok (), ctx)

/-- The second function is taken out by the run on the first, and the pass still runs on it. -/
theorem not_live_threeFunctions :
    (∀ request ∈ Pipeline.threeFunctions, request.isEdit = false) ∧
      ∃ ctx, Context.build Pipeline.threeFunctions = .ok ctx ∧ (∃ data, ctx.op ⟨3⟩ = .ok data) ∧
        ctx.AcyclicBelow (.op ⟨3⟩) ∧
        ∃ log stop, Invokes (detaching ⟨1⟩) [.func] ⟨3⟩ (ctx, ()) log (.ok ()) stop ∧
          ∃ invocation ∈ log, invocation.target = ⟨1⟩ ∧
            ¬ invocation.before.1.Live .func ⟨3⟩ invocation.target := by
  -- For every invocation, what is below the module beforehand is listed.
  have evaluated : (Context.build Pipeline.threeFunctions >>= fun ctx => ctx.op ⟨3⟩ >>= fun _ =>
      ctx.preorder (.op ⟨3⟩) >>= fun _ =>
        ((Layered.mk [.func] (detaching ⟨1⟩)).logged.run ⟨3⟩ (ctx, (), [])).map fun answer =>
          (answer.1, answer.2.2.2.map fun invocation =>
            (invocation.target, (invocation.before.1.preorder (.op ⟨3⟩)).toOption))) =
      .ok (.ok (), [
        (⟨0⟩, some [.op ⟨3⟩, .region ⟨0⟩, .block ⟨0⟩, .op ⟨0⟩, .op ⟨1⟩, .op ⟨2⟩]),
        (⟨1⟩, some [.op ⟨3⟩, .region ⟨0⟩, .block ⟨0⟩, .op ⟨0⟩, .op ⟨2⟩]),
        (⟨2⟩, some [.op ⟨3⟩, .region ⟨0⟩, .block ⟨0⟩, .op ⟨0⟩, .op ⟨2⟩])]) := by decide +kernel
  obtain ⟨ctx, built, evaluated⟩ := bind_eq_ok.mp evaluated
  obtain ⟨data, known, evaluated⟩ := bind_eq_ok.mp evaluated
  obtain ⟨listing, listed, evaluated⟩ := bind_eq_ok.mp evaluated
  obtain ⟨⟨ended, left, notes, logged⟩, ran, same⟩ := map_eq_ok.mp evaluated
  obtain ⟨rfl, views⟩ := Prod.ext_iff.mp same
  obtain ⟨log, stop, invokes, final⟩ :=
    (Layered.realizes_logged (Layered.mk [.func] (detaching ⟨1⟩)) ⟨3⟩ (ctx, ()) [] _ _).mp ran
  cases final
  -- The second invocation that is logged is found by what was listed for it.
  have second := List.mem_of_getElem? (congrArg (fun entries => entries[1]?) views)
  obtain ⟨invocation, isLogged, view⟩ := List.mem_map.mp second
  obtain ⟨isSecond, left⟩ := Prod.mk.inj view
  refine ⟨by decide, ctx, built, ⟨data, known⟩, (Context.preorder_ok_iff.mp ⟨listing, listed⟩).2,
    log, stop, invokes, invocation, isLogged, isSecond, fun live => ?_⟩
  -- What is live is below the module, and would have been listed.
  rw [isSecond] at live
  cases listedLater : invocation.before.1.preorder (.op ⟨3⟩) with
  | error fault => simp [listedLater, Except.toOption] at left
  | ok later =>
    have member := (Context.mem_preorderWithin_iff listedLater).mpr live.1.to_reflTransGen
    simp only [listedLater, Except.toOption, Option.some.injEq] at left
    simp [left] at member

end Pass

end NestedIR
