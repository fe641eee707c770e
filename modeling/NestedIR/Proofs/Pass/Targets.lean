import NestedIR.Proofs.Pass.Convergence

/-! Nested passes run on targets that have nothing in common, and leave each other alone. -/

namespace NestedIR

open Relation

namespace Context

variable {discarded : OpId → Prop} {ctx : Context} {depth : Nat}

/-- Operations below some entities that are apart from each other. -/
structure TargetsBelow (ctx : Context) (entities : List Entity) (targets : List OpId) : Prop where
  /-- The operations can be reached from the entities. -/
  below : ∀ target ∈ targets, ∃ entity ∈ entities, ReflTransGen ctx.Contains entity (.op target)
  /-- The operations are apart from each other. -/
  apart : targets.Pairwise fun first second => ctx.Apart (.op first) (.op second)

/-- What is collected below the first of some entities and below the others is collected. -/
theorem TargetsBelow.append {entity : Entity} {entities : List Entity} {front back : List OpId}
    (first : ctx.TargetsBelow [entity] front) (rest : ctx.TargetsBelow entities back)
    (apart : ∀ other ∈ entities, ctx.Apart entity other) :
    ctx.TargetsBelow (entity :: entities) (front ++ back) where
  below target listed := by
    rcases List.mem_append.mp listed with inFront | inBack
    · obtain ⟨_, same, path⟩ := first.below target inFront
      cases List.mem_singleton.mp same
      exact ⟨entity, by simp, path⟩
    · obtain ⟨other, isOther, path⟩ := rest.below target inBack
      exact ⟨other, by simp [isOther], path⟩
  apart := by
    -- What two of them have in common could be reached from both entities.
    refine List.pairwise_append.mpr ⟨first.apart, rest.apart, fun early inFront late inBack => ?_⟩
    obtain ⟨_, same, path⟩ := first.below early inFront
    cases List.mem_singleton.mp same
    obtain ⟨other, isOther, pathToo⟩ := rest.below late inBack
    exact fun inner down downToo =>
      apart other isOther inner (path.trans down) (pathToo.trans downToo)

/-- A search through entities collects what it collects in each of them. -/
theorem targetsBelow_of_findSomeM?
    {look : Entity → StateT (List OpId) (Except Fault) (Option Empty)} {entities : List Entity}
    (apart : entities.Pairwise ctx.Apart)
    (looks : ∀ entity ∈ entities, ∀ found answer, look entity found = .ok answer →
      ∃ more, answer.2 = found ++ more ∧ ctx.TargetsBelow [entity] more)
    {found : List OpId} {answer : Option Empty × List OpId}
    (searched : (entities.findSomeM? look) found = .ok answer) :
    ∃ more, answer.2 = found ++ more ∧ ctx.TargetsBelow entities more := by
  -- What is collected in front stays, and nothing stops the search.
  induction entities generalizing found with
  | nil =>
    cases searched
    exact ⟨[], (List.append_nil found).symm, by simp, .nil⟩
  | cons entity entities ih =>
    obtain ⟨apartFirst, apartRest⟩ := List.pairwise_cons.mp apart
    obtain ⟨⟨stop, mid⟩, looked, rest⟩ := bind_eq_ok.mp searched
    obtain ⟨front, rfl, first⟩ := looks entity (by simp) found _ looked
    cases stop with
    | some impossible => cases impossible
    | none =>
      obtain ⟨back, same, later⟩ :=
        ih apartRest (fun other isOther => looks other (by simp [isOther])) rest
      exact ⟨front ++ back, by rw [same, List.append_assoc], first.append later apartFirst⟩

/-- A walk collects operations that are apart from each other. -/
theorem targetsBelow_of_walkWithin (sound : Sound discarded ctx) {kind : OpKind} {entity : Entity}
    (fits : ctx.Fits depth entity) {found : List OpId} {answer : Option Empty × List OpId}
    (walked : ctx.walkWithin (ctx.collector kind) depth entity found = .ok answer) :
    ∃ more, answer.2 = found ++ more ∧ ctx.TargetsBelow [entity] more := by
  induction depth generalizing entity found answer with
  | zero => cases fits
  | succ depth ih =>
    obtain ⟨⟨advice, after⟩, advised, rest⟩ := bind_eq_ok.mp walked
    -- A region or a block is searched, and so is an operation of another kind.
    have descends (goes : advice = .descend) (same : after = found) :
        ∃ more, answer.2 = found ++ more ∧ ctx.TargetsBelow [entity] more := by
      subst goes same
      obtain ⟨⟨members, state⟩, looked, searched⟩ := bind_eq_ok.mp rest
      obtain ⟨known, rfl⟩ : ctx.members entity = .ok members ∧ state = after := by
        obtain ⟨again, known, made⟩ := bind_eq_ok.mp looked
        cases made
        exact ⟨known, rfl⟩
      obtain ⟨more, same, targets⟩ := targetsBelow_of_findSomeM? (pairwise_members sound fits known)
        (fun member isListed _ _ walked => ih (fits.of_contains ⟨members, known, isListed⟩) walked)
        searched
      refine ⟨more, same, fun target listed => ⟨entity, by simp, ?_⟩, targets.apart⟩
      obtain ⟨member, isListed, path⟩ := targets.below target listed
      exact path.head ⟨members, known, isListed⟩
    cases entity with
    | region region =>
      cases advised
      exact descends rfl rfl
    | block block =>
      cases advised
      exact descends rfl rfl
    | op op =>
      obtain ⟨⟨data, state⟩, looked, chosen⟩ := bind_eq_ok.mp advised
      obtain ⟨again, foundOp, made⟩ := bind_eq_ok.mp looked
      cases made
      by_cases isKind : data.isKind kind
      · -- An operation of the kind is collected, and what it contains is passed over.
        simp only [isKind, if_true] at chosen
        cases chosen
        cases rest
        exact ⟨[op], rfl, by simpa using .refl, List.pairwise_singleton _ _⟩
      · simp only [isKind] at chosen
        cases chosen
        exact descends rfl rfl

/-- The outermost operations of a kind are strictly below their root and apart from each other. -/
theorem targetsBelow_of_outermost (sound : Sound discarded ctx) {kind : OpKind} {root : OpId}
    (fits : ctx.Fits ctx.depthBound (.op root)) {targets : List OpId}
    (outermost : ctx.outermost kind root = .ok targets) :
    (∀ target ∈ targets, TransGen ctx.Contains (.op root) (.op target)) ∧
      targets.Pairwise fun first second => ctx.Apart (.op first) (.op second) := by
  -- The search starts from the regions of the root, so that the root is not collected itself.
  obtain ⟨regions, known, rest⟩ := bind_eq_ok.mp outermost
  obtain ⟨⟨stop, found⟩, searched, made⟩ := bind_eq_ok.mp rest
  cases made
  obtain ⟨more, same, below⟩ := targetsBelow_of_findSomeM? (pairwise_members sound fits known)
    (fun region isListed _ _ walked =>
      targetsBelow_of_walkWithin sound (fits.inner ⟨regions, known, isListed⟩) walked) searched
  cases same
  refine ⟨fun target listed => ?_, below.apart⟩
  obtain ⟨region, isListed, path⟩ := below.below target listed
  exact TransGen.head' ⟨regions, known, isListed⟩ path

end Context

/-- Targets of a pass: operations strictly below a root and apart from each other. -/
structure Separate (root : OpId) (targets : List OpId) (ctx : Context) : Prop where
  /-- Visits come to an answer below the root. -/
  ready : Ready root ctx
  /-- The targets are below the root. -/
  below : ∀ target ∈ targets, TransGen ctx.Contains (.op root) (.op target)
  /-- The targets are apart from each other. -/
  apart : targets.Pairwise fun first second => ctx.Apart (.op first) (.op second)

/-- What is ready below an operation is ready below what is inside it. -/
theorem Ready.inside {root target : OpId} {ctx : Context} (ready : Ready root ctx)
    (below : TransGen ctx.Contains (.op root) (.op target)) : Ready target ctx where
  sound := ready.sound
  ordered value use listed inside := ready.ordered value use listed (below.trans inside)
  reads op inside := ready.reads op (inside.trans below)
  fits := ready.fits.of_reaches below.to_reflTransGen

section Frame

variable {root first second op : OpId} {ctx ctx' : Context} {heir : Option OpId}
  {moved : ValueId → ValueId}

/-- A rewrite in one target is nothing that a visit of another one would notice. -/
theorem Ready.advances_apart (ready : Ready root ctx)
    (belowFirst : TransGen ctx.Contains (.op root) (.op first))
    (belowSecond : TransGen ctx.Contains (.op root) (.op second))
    (apart : ctx.Apart (.op first) (.op second))
    (inside : TransGen ctx.Contains (.op first) (.op op))
    (replaces : Replaces op heir moved ctx ctx') :
    Advances second (ctx.Folds second) (ctx.Folds second) op heir moved ctx ctx' := by
  obtain ⟨gone, sound⟩ := ready.sound
  obtain ⟨data, -, found, -⟩ := sound.attached_below inside
  -- Nothing within the operation is below the second target.
  have outside {other : OpId} (around : ReflTransGen ctx.Contains (.op op) (.op other)) :
      ¬ TransGen ctx.Contains (.op second) (.op other) :=
    fun path => apart _ (inside.to_reflTransGen.trans around) path.to_reflTransGen
  have definition {other : OpId} {known : Operation} {value : ValueId} {use : Use}
      (foundOther : ctx.op other = .ok known) (inResults : value ∈ known.results)
      (listed : use ∈ ctx.usesOf value)
      (below : TransGen ctx.Contains (.op root) (.op use.user)) : ctx.Precedes other use.user := by
    obtain ⟨index, here⟩ := List.mem_iff_getElem?.mp inResults
    obtain ⟨result, foundValue, defines⟩ :=
      (sound.results value other index).mpr ⟨known, foundOther, here⟩
    obtain ⟨again, foundAgain, inFront⟩ := ready.ordered value use listed below
    cases foundValue.symm.trans foundAgain
    exact inFront other index defines
  refine ⟨replaces, ⟨_, sound⟩, ⟨data, found⟩, ?_, ?_, ?_, ?_, ?_, ?_, fun _ _ => .rfl, ?_, ?_⟩
  · exact ready.fits.below.2 _ (belowFirst.trans inside).to_reflTransGen
  · exact fun around => apart _ (inside.to_reflTransGen.trans around) .refl
  · intro user slot value below held
    obtain ⟨reader, foundReader, here⟩ := Context.operand?_eq_some_iff.mp held
    exact (ready.reads user (.inl (belowSecond.trans below)) reader value foundReader
      (List.mem_of_getElem? here)).resolve_right id
  · -- What the operation uses stands in front of it, and so would be in the same target.
    intro other known value slot belowOther foundOther inResults listed
    have inFront := definition foundOther inResults listed (belowFirst.trans inside)
    exact absurd (inFront.inside sound belowOther).to_reflTransGen fun path =>
      apart _ inside.to_reflTransGen path
  · -- The same goes for what uses the operation.
    intro known value use foundOp inResults listed belowUser
    have inFront := definition foundOp inResults listed (belowSecond.trans belowUser)
    exact absurd (inFront.inside sound inside).to_reflTransGen fun path =>
      apart _ path belowUser.to_reflTransGen
  · exact fun within below => absurd below (outside within.to_reflTransGen)
  · exact fun below => absurd below (outside .refl)
  · exact fun below => absurd below (outside .refl)

/-- What visits of another target fold has not changed, so that lateness has not changed either. -/
theorem Advances.lastsBeyond_iff
    (advances : Advances second (ctx.Folds second) (ctx.Folds second) op heir moved ctx ctx')
    {visits : Nat} : ctx'.LastsBeyond second visits ↔
      ctx'.ErasesAfter second (ctx.Folds second) visits := by
  -- Lateness asks only what visits fold, which is what they folded before but for the operation.
  refine Context.erasesAfter_congr fun other data below _ _ => ?_
  rw [advances.folds_iff, and_iff_left]
  rintro rfl
  obtain ⟨data, found⟩ := advances.known
  -- The operation would be its own heir, or apart from itself.
  rcases advances.below_cases below with isHeir | ⟨-, apart⟩
  · exact advances.ne_heir found isHeir rfl
  · exact apart .refl

/-- What is apart stays apart when an operation is replaced. -/
theorem Replaces.apart (replaces : Replaces op heir moved ctx ctx') {discarded : OpId → Prop}
    (sound : Sound discarded ctx) (acyclic : ¬ TransGen ctx.Contains (.op op) (.op op))
    {known knownToo : Operation} (found : ctx.op first = .ok known)
    (foundToo : ctx.op second = .ok knownToo) (apart : ctx.Apart (.op first) (.op second)) :
    ctx'.Apart (.op first) (.op second) := by
  -- A way down to the heir was one to the operation, and any other way was there before.
  have before {target : OpId} {data : Operation} (found : ctx.op target = .ok data) {inner : Entity}
      (path : ReflTransGen ctx'.Contains (.op target) inner) :
      ReflTransGen ctx.Contains (.op target)
        (if ∃ new, heir = some new ∧ inner = .op new then .op op else inner) := by
    split
    · rename_i isHeir
      obtain ⟨new, isHeir, rfl⟩ := isHeir
      rcases reflTransGen_iff_eq_or_transGen.mp path with same | path
      · cases same
        exact absurd (replaces.heir_eq isHeir).1 (Context.op_ne_next found)
      · exact ((replaces.transGen_heir_iff sound acyclic isHeir).mp path).to_reflTransGen
    · rename_i other
      rcases reflTransGen_iff_eq_or_transGen.mp path with same | path
      · exact same ▸ .refl
      · refine (replaces.transGen_before (fun new isHeir same => ?_) path).to_reflTransGen
        exact other ⟨new, isHeir, same⟩
  exact fun inner down path => apart _ (before found down) (before foundToo path)

end Frame

namespace Separate

variable {root first second op : OpId} {rest targets : List OpId} {ctx ctx' : Context}

/-- The same is left for later visits of an operation, if only known values are used. -/
structure LastsAlike (root : OpId) (ctx ctx' : Context) : Prop where
  /-- Nothing comes to last. -/
  before : ∀ {visits}, ctx'.LastsBeyond root visits → ctx.LastsBeyond root visits
  /-- What lasts beyond the first visit still does. -/
  after : ctx.UsesKnown → ∀ {visits}, 1 ≤ visits → ctx.LastsBeyond root visits →
    ctx'.LastsBeyond root visits

/-- A rewrite in the first target keeps targets separate, and leaves the others as much to do. -/
theorem rewrite (separate : Separate root (first :: rest) ctx)
    (inside : TransGen ctx.Contains (.op first) (.op op)) (rewrite : Rewrite op ctx ctx') :
    Separate root (first :: rest) ctx' ∧ (ctx.UsesKnown → ctx'.UsesKnown) ∧
      ∀ other ∈ rest, LastsAlike other ctx ctx' := by
  obtain ⟨gone, sound⟩ := separate.ready.sound
  obtain ⟨heir, moved, replaces⟩ := rewrite.exists_replaces sound
  have belowFirst := separate.below first (by simp)
  have belowOp := belowFirst.trans inside
  have acyclic := separate.ready.fits.below.2 _ belowOp.to_reflTransGen
  have known {target : OpId} (listed : target ∈ first :: rest) :
      ∃ data, ctx.op target = .ok data := by
    obtain ⟨data, -, found, -⟩ := sound.attached_below (separate.below target listed)
    exact ⟨data, found⟩
  have apartFirst := (List.pairwise_cons.mp separate.apart).1
  refine ⟨⟨separate.ready.rewrite rewrite belowOp, fun target listed => ?_, ?_⟩,
    replaces.usesKnown, fun other isOther => ?_⟩
  · -- No target is within the operation, nor is any its heir.
    obtain ⟨data, found⟩ := known listed
    refine (replaces.transGen_iff (fun around => ?_) fun new isHeir same => ?_).mpr
      (separate.below target listed)
    · rcases List.mem_cons.mp listed with same | isRest
      · subst same
        exact separate.ready.fits.below.2 _ belowFirst.to_reflTransGen
          (TransGen.trans_left inside around)
      · exact apartFirst target isRest _ (inside.to_reflTransGen.trans around) .refl
    · cases same
      exact Context.op_ne_next found (replaces.heir_eq isHeir).1
  · refine separate.apart.imp_of_mem fun inFirst inSecond apart => ?_
    obtain ⟨data, found⟩ := known inFirst
    obtain ⟨dataToo, foundToo⟩ := known inSecond
    exact replaces.apart sound acyclic found foundToo apart
  -- The other targets see no difference, so they last alike.
  · have belowOther := separate.below other (by simp [isOther])
    have advances := separate.ready.advances_apart belowFirst belowOther
      (apartFirst other isOther) inside replaces
    exact ⟨fun lasts => advances.erasesAfter (advances.lastsBeyond_iff.mp lasts),
      fun known _ some_ lasts => advances.lastsBeyond_iff.mpr
        (advances.of_erasesAfter some_ known lasts)⟩

/-- Rewrites in the first target keep targets separate, and leave the others as much to do. -/
theorem rewrites (separate : Separate root (first :: rest) ctx)
    (rewrites : RewritesBelow first ctx ctx') :
    Separate root (first :: rest) ctx' ∧ (ctx.UsesKnown → ctx'.UsesKnown) ∧
      ∀ other ∈ rest, LastsAlike other ctx ctx' := by
  induction rewrites with
  | refl => exact ⟨separate, id, fun _ _ => ⟨id, fun _ _ _ => id⟩⟩
  -- Each rewrite keeps the rest apart, and the others have as much to do after it as before.
  | tail _ step ih =>
    obtain ⟨op, inside, rewrite⟩ := step
    obtain ⟨separateMid, knownMid, alike⟩ := ih
    obtain ⟨separateLast, knownLast, alikeToo⟩ := separateMid.rewrite inside rewrite
    refine ⟨separateLast, knownLast ∘ knownMid, fun other isOther => ⟨fun lasts => ?_,
      fun known _ some_ lasts => ?_⟩⟩
    · exact (alike other isOther).before ((alikeToo other isOther).before lasts)
    · exact (alikeToo other isOther).after (knownMid known) some_
        ((alike other isOther).after known some_ lasts)

/-- Fewer targets are separate too. -/
theorem tail (separate : Separate root (first :: rest) ctx) : Separate root rest ctx :=
  ⟨separate.ready, fun target isRest => separate.below target (by simp [isRest]),
    (List.pairwise_cons.mp separate.apart).2⟩

end Separate

namespace Canonicalization

variable {root : OpId} {targets : List OpId} {ctx : Context} {σ : Type}

/-- Visits of what is ready come to an answer. -/
theorem exists_iterate (ready : Ready root ctx) (limit : Nat) :
    ∃ result ctx', iterate builtinPatterns root limit ctx = .ok (result, ctx') ∧
      RewritesBelow root ctx ctx' := by
  obtain ⟨gone, sound⟩ := ready.sound
  -- No fault is allowed, and so there is an answer.
  have meets : Meets (fun _ => False) (ctx.Within root) ctx
      (iterate builtinPatterns root limit ctx) :=
    Meets.iterateBelow sound.consistent ready.reads (.inr ready.fits) limit
  obtain ⟨result, ctx', done, -⟩ := meets.exists_ok
  exact ⟨result, ctx', done, ready.rewritesBelow_of_iterate done⟩

/--
Canonicalizing separate targets comes to an answer. It succeeds if visits are enough on each, and
only then if all uses are of known values.
-/
theorem exists_runEach (separate : Separate root targets ctx) {config : Config} {visits : Nat}
    (limit : config.maxIterations = visits + 1) (some_ : 1 ≤ visits) (notes : σ) :
    ∃ ended ctx', (Pass.runEach (pass config) targets) (ctx, notes) = .ok (ended, ctx', notes) ∧
      (ended = .ok () ∨ ended = outcome config ⟨[], false⟩) ∧
      ((∀ target ∈ targets, ¬ ctx.LastsBeyond target visits) → ended = .ok ()) ∧
      (ctx.UsesKnown → ended = .ok () → ∀ target ∈ targets, ¬ ctx.LastsBeyond target visits) := by
  induction targets generalizing ctx with
  | nil => exact ⟨.ok (), ctx, rfl, .inl rfl, fun _ => rfl, by simp⟩
  | cons target rest ih =>
    have ready := separate.ready.inside (separate.below target (by simp))
    obtain ⟨result, mid, done, rewrites⟩ := exists_iterate ready config.maxIterations
    have ran : (pass config).run target (ctx, notes) = .ok (outcome config result, mid, notes) := by
      rw [run_pass, done]
      rfl
    obtain ⟨ends, lasts⟩ := ready.converged_of_iterate (.inl some_) (limit ▸ done)
    cases converged : result.converged with
    | false =>
      -- The first target that runs out of visits ends the run.
      have failed : outcome config result = outcome config ⟨[], false⟩ := by
        simp [outcome, converged]
      refine ⟨outcome config ⟨[], false⟩, mid, ?_, .inr rfl, fun none => ?_, fun _ succeeded => ?_⟩
      · show ((pass config).run target (ctx, notes) >>= _) = _
        rw [ran, failed]
        rfl
      · rw [ends (none target (by simp))] at converged
        cases converged
      · cases succeeded
    | true =>
      -- The others start where the first one ended, and they last as before.
      obtain ⟨separateMid, knownMid, alike⟩ := separate.rewrites rewrites
      obtain ⟨ended, ctx', ranRest, either, endsRest, lastsRest⟩ := ih separateMid.tail
      refine ⟨ended, ctx', ?_, either, fun none => ?_, fun known succeeded other listed => ?_⟩
      · have succeeded : outcome config result = .ok () := by simp [outcome, converged]
        show ((pass config).run target (ctx, notes) >>= _) = _
        rw [ran, succeeded]
        exact ranRest
      · exact endsRest fun other isRest left =>
          none other (by simp [isRest]) ((alike other isRest).before left)
      · rcases List.mem_cons.mp listed with same | isRest
        · exact same ▸ lasts known converged
        · exact fun left => lastsRest (knownMid known) succeeded other isRest
            ((alike other isRest).after known some_ left)

end Canonicalization

end NestedIR
