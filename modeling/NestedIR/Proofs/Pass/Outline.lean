import NestedIR.Proofs.Pass.Appearance
import NestedIR.Proofs.Pass.DefaultPipeline
import NestedIR.Proofs.Structure.Children

/-! The default pipeline changes nothing that a dump shows outside functions. -/

namespace NestedIR

open Relation

namespace Context

variable {ctx ctx' : Context}

/-- Whether an entity is an operation of a kind, other than the root. -/
def hides (ctx : Context) (kind : OpKind) (root : OpId) : Entity → Bool
  | .op op => op ≠ root && (ctx.op op).toOption.any (·.isKind kind)
  | .region _ => false
  | .block _ => false

/-- The lines of an entity down to a depth, each with whether it stands inside a hiding one. -/
def markedWithin (ctx : Context) (hides : Entity → Bool) :
    Nat → Bool → UInt64 → Entity → Except Fault (List (Line × Bool))
  | 0, _, _, entity => .error (.containmentCycle entity)
  | depth + 1, inside, indent, entity => do
    let own ← ctx.ownLines indent .wraps entity
    let listed ← ctx.members entity
    let parts ← listed.mapM
      (ctx.markedWithin hides depth (inside || hides entity) (indent + 1))
    return (own.1 :: own.2).map (·, inside) ++ parts.flatten

/-- The lines of an operation, each with whether it stands inside one of a kind strictly below. -/
def markedLines (ctx : Context) (kind : OpKind) (root : OpId) (indent : UInt64) :
    Except Fault (List (Line × Bool)) :=
  ctx.markedWithin (ctx.hides kind root) ctx.depthBound false indent (.op root)

/-- The lines that do not stand inside what hides them. -/
def outline (marked : List (Line × Bool)) : List Line :=
  (marked.filter fun entry => !entry.2).map Prod.fst

/-- What follows on some lines is outlined behind them. -/
theorem outline_append (front back : List (Line × Bool)) :
    outline (front ++ back) = outline front ++ outline back := by
  simp [outline]

/-- Lines with one mark are outlined as a whole or not at all. -/
theorem outline_map (inside : Bool) (lines : List Line) :
    outline (lines.map (·, inside)) = if inside then [] else lines := by
  cases inside <;> simp [outline, List.filter_map, Function.comp_def]

/-- Parts are outlined one after the other. -/
theorem outline_flatten (parts : List (List (Line × Bool))) :
    outline parts.flatten = parts.flatMap outline := by
  simp only [outline, List.filter_flatten, List.map_flatten, List.flatMap_def, List.map_map]
  rfl

/-- The marked lines of an entity are its own lines, and those of its members in order. -/
theorem markedWithin_eq_ok {hides : Entity → Bool} {depth : Nat} {indent : UInt64} {inside : Bool}
    {entity : Entity} {marked : List (Line × Bool)}
    (made : ctx.markedWithin hides (depth + 1) inside indent entity = .ok marked) :
    ∃ own listed, ctx.ownLines indent .wraps entity = .ok own ∧ ctx.members entity = .ok listed ∧
      ∃ part : Entity → List (Line × Bool),
        (∀ member ∈ listed, ctx.markedWithin hides depth (inside || hides entity) (indent + 1)
          member = .ok (part member)) ∧
          marked = (own.1 :: own.2).map (·, inside) ++ listed.flatMap part := by
  -- What the lines are made of was found, first the own lines and then those of the members.
  obtain ⟨own, first, made⟩ := bind_eq_ok.mp made
  obtain ⟨listed, members, made⟩ := bind_eq_ok.mp made
  obtain ⟨parts, mapped, made⟩ := bind_eq_ok.mp made
  cases made
  obtain ⟨part, rfl, each⟩ := exists_map_of_mapM mapped
  exact ⟨own, listed, first, members, part, each, by rw [List.flatMap_def]⟩

/-- The lines of a shape are marked, and none is added or left out. -/
theorem exists_markedWithin {hides : Entity → Bool} {depth : Nat} {entity : Entity}
    {shape : Shape} (found : ctx.shapeWithin depth entity = .ok shape) (inside : Bool)
    (indent : UInt64) : ∃ marked, ctx.markedWithin hides depth inside indent entity = .ok marked ∧
      marked.map Prod.fst = shape.lines indent := by
  induction depth generalizing entity shape inside indent with
  | zero => cases found
  | succ depth ih =>
    -- Each part of the shape comes in marked lines, of which those of the face come first.
    obtain ⟨face, listed, seen, members, inner, each, rfl⟩ := shapeWithin_eq_ok.mp found
    obtain ⟨own, first, begins⟩ := ownLines_of_face seen members indent
    have below (member : Entity) (isListed : member ∈ listed) :=
      ih (each member isListed) (inside || hides entity) (indent + 1)
    obtain ⟨parts, mapped⟩ := mapM_ok_iff.mpr fun member isListed =>
      (below member isListed).imp fun _ => And.left
    obtain ⟨part, rfl, eachPart⟩ := exists_map_of_mapM mapped
    refine ⟨_, bind_eq_ok.mpr ⟨own, first, bind_eq_ok.mpr ⟨listed, members,
      bind_eq_ok.mpr ⟨_, mapped, rfl⟩⟩⟩, ?_⟩
    rw [Shape.lines, Shape.linesAll_eq_flatMap, List.length_map, List.flatMap_map, ← begins,
      List.map_append, List.map_map, ← List.flatMap_def, List.map_flatMap]
    refine congrArg₂ (· ++ ·) (by simp [Function.comp_def])
      (List.flatMap_congr fun member isListed => ?_)
    -- The lines of a member are marked as they were made.
    obtain ⟨marked, here, same⟩ := below member isListed
    cases here.symm.trans (eachPart member isListed)
    exact same

/-- Inside what hides it, nothing of an entity is outlined. -/
theorem outline_inside {hides : Entity → Bool} {depth : Nat} {indent : UInt64} {entity : Entity}
    {marked : List (Line × Bool)}
    (made : ctx.markedWithin hides depth true indent entity = .ok marked) :
    outline marked = [] := by
  induction depth generalizing indent entity marked with
  | zero => cases made
  | succ depth ih =>
    -- The mark is handed on to everything inside.
    obtain ⟨own, listed, -, -, part, each, rfl⟩ := markedWithin_eq_ok made
    rw [outline_append, outline_map, List.flatMap_def, outline_flatten, List.flatMap_map]
    refine List.append_eq_nil_iff.mpr ⟨rfl, List.flatMap_eq_nil_iff.mpr fun member isListed => ?_⟩
    exact ih (each member isListed)

/--
Two programs are outlined alike below an entity where everything outside hiding entities keeps its
face and its members.
-/
theorem outline_congr {hides hides' : Entity → Bool} (free : Entity → Prop)
    (keeps : ∀ entity, free entity → ∀ face members, ctx.face entity = .ok face →
      ctx.members entity = .ok members →
        ctx'.face entity = .ok face ∧ ctx'.members entity = .ok members)
    (alike : ∀ entity face, ctx.face entity = .ok face → hides' entity = hides entity)
    (inner : ∀ entity member, free entity → hides entity = false → ctx.Contains entity member →
      free member)
    {depth depth' : Nat} {indent : UInt64} {entity : Entity} (isFree : free entity)
    {marked marked' : List (Line × Bool)}
    (made : ctx.markedWithin hides depth false indent entity = .ok marked)
    (made' : ctx'.markedWithin hides' depth' false indent entity = .ok marked') :
    outline marked = outline marked' := by
  -- Both go on with the same members, so that the induction is on the depth of either.
  induction depth generalizing depth' indent entity marked marked' with
  | zero => cases made
  | succ depth ih =>
    cases depth' with
    | zero => cases made'
    | succ depth' =>
      obtain ⟨own, listed, first, members, part, each, rfl⟩ := markedWithin_eq_ok made
      obtain ⟨own', listed', first', members', part', each', rfl⟩ := markedWithin_eq_ok made'
      obtain ⟨face, seen⟩ := exists_face first
      obtain ⟨seen', membersToo⟩ := keeps entity isFree face listed seen members
      cases members'.symm.trans membersToo
      obtain ⟨again, firstAgain, begins⟩ := ownLines_of_face seen members indent
      cases first.symm.trans firstAgain
      obtain ⟨again', firstAgain', begins'⟩ := ownLines_of_face seen' members' indent
      cases first'.symm.trans firstAgain'
      -- The lines of an entity come first, and its members follow in one order.
      rw [begins, begins', outline_append, outline_append, List.flatMap_def, List.flatMap_def,
        outline_flatten, outline_flatten, List.flatMap_map, List.flatMap_map]
      refine congrArg₂ (· ++ ·) rfl (List.flatMap_congr fun member isListed => ?_)
      have here := each member isListed
      have here' := each' member isListed
      rw [Bool.false_or] at here here'
      -- Of what is hidden no line counts, and what is shown is free again.
      cases hidden : hides entity with
      | true =>
        rw [hidden] at here
        rw [alike entity face seen, hidden] at here'
        rw [outline_inside here, outline_inside here']
      | false =>
        rw [hidden] at here
        rw [alike entity face seen, hidden] at here'
        exact ih (inner entity member isFree hidden ⟨listed, members, isListed⟩) here here'

/-- An operation is somewhere inside one of some targets, or not known yet. -/
def WithinAny (ctx : Context) (targets : List OpId) (op : OpId) : Prop :=
  ∃ target ∈ targets, ctx.Within target op

end Context

namespace Canonicalization

variable {σ : Type} {ctx : Context} {targets : List OpId}

/--
Where everything reads known values and everything below some targets is known, canonicalizing one
after the other comes to an answer and rewrites only what is within them.
-/
theorem exists_runEach_rewrites (consistent : Consistent ctx)
    (reads : ctx.ReadsKnown fun _ => False)
    (fits : ∀ target ∈ targets, ctx.Fits ctx.depthBound (.op target)) (config : Config)
    (notes : σ) : ∃ ended ctx',
      (Pass.runEach (pass config) targets) (ctx, notes) = .ok (ended, ctx', notes) ∧
        Rewrites (ctx.WithinAny targets) ctx ctx' := by
  induction targets generalizing ctx with
  | nil => exact ⟨.ok (), ctx, rfl, .refl⟩
  | cons target rest ih =>
    have meets : Meets (fun _ => False) (ctx.Within target) ctx
        (iterate builtinPatterns target config.maxIterations ctx) :=
      Meets.iterate consistent reads (.inr (fits target (by simp))) _
    obtain ⟨result, mid, done, first⟩ := meets.exists_ok
    have ran : (pass config).run target (ctx, notes) = .ok (outcome config result, mid, notes) := by
      rw [run_pass, done]
      rfl
    have before : Rewrites (ctx.WithinAny (target :: rest)) ctx mid :=
      first.mono fun op inside => ⟨target, by simp, inside⟩
    cases ended : outcome config result with
    | error failure =>
      refine ⟨.error failure, mid, ?_, before⟩
      show ((pass config).run target (ctx, notes) >>= _) = _
      rw [ran, ended]
      rfl
    | ok =>
      -- The other targets are canonicalized from what the first one left.
      obtain ⟨last, ctx', ranRest, later⟩ := ih (first.consistent consistent)
        (first.evolves.reads reads) fun other isRest =>
          (first.evolves.fits (fits other (by simp [isRest]))).mono first.evolves.depthBound_le
      refine ⟨last, ctx', ?_, before.trans (later.mono fun op inside => ?_)⟩
      · show ((pass config).run target (ctx, notes) >>= _) = _
        rw [ran, ended]
        exact ranRest
      · obtain ⟨other, isRest, inside⟩ := inside
        exact ⟨other, by simp [isRest], first.evolves.within inside⟩

end Canonicalization

namespace Leaves

variable {discarded : OpId → Prop} {ctx ctx' : Context} {root : OpId} {targets : List OpId}

/-- What is not inside a target keeps its face and its members when what is within them changes. -/
theorem keeps_outside (leaves : Leaves (ctx.WithinAny targets) ctx ctx')
    (sound : Sound discarded ctx) {entity : Entity}
    (outside : ∀ target ∈ targets, ¬ TransGen ctx.Contains (.op target) entity) {face : Face}
    {members : List Entity} (seen : ctx.face entity = .ok face)
    (listed : ctx.members entity = .ok members) :
    ctx'.face entity = .ok face ∧ ctx'.members entity = .ok members := by
  refine leaves.keeps seen listed fun op isListed within => ?_
  obtain ⟨target, isTarget, within⟩ := within
  exact sound.not_within (outside target isTarget) ⟨members, listed, isListed⟩ within

/-- Where only what is within functions strictly below a root changes, the outline of it stays. -/
theorem outline_eq (leaves : Leaves (ctx.WithinAny targets) ctx ctx')
    (sound : Sound discarded ctx) (acyclic : ctx.AcyclicBelow (.op root)) {kind : OpKind}
    (live : ∀ target ∈ targets, ctx.Live kind root target) {indent : UInt64}
    {marked marked' : List (Line × Bool)} (made : ctx.markedLines kind root indent = .ok marked)
    (made' : ctx'.markedLines kind root indent = .ok marked') :
    Context.outline marked = Context.outline marked' := by
  refine Context.outline_congr
    (fun entity => ∀ target ∈ targets, ¬ TransGen ctx.Contains (.op target) entity)
    (fun entity outside face members => leaves.keeps_outside sound outside) ?_ ?_ ?_ made made'
  · intro entity face seen
    cases entity with
    | op op =>
      -- The kind of an operation is its name, which stays.
      obtain ⟨data, found, -⟩ := bind_eq_ok.mp seen
      obtain ⟨data', found', alike⟩ := leaves.shown op data found
      simp [Context.hides, found, found', Except.toOption, Operation.isKind, alike.name]
    | region region => rfl
    | block block => rfl
  · intro entity member outside shows contains target isTarget inside
    -- The member is in one entity only, which would be inside the target or the target itself.
    obtain ⟨owner, above, holds⟩ := TransGen.tail'_iff.mp inside
    cases sound.owner_unique holds contains
    rcases reflTransGen_iff_eq_or_transGen.mp above with rfl | inside
    · obtain ⟨below, data, found, isKind⟩ := live target isTarget
      have differs : target ≠ root := fun same => acyclic _ .refl (same ▸ below)
      simp [Context.hides, differs, found, isKind, Except.toOption] at shows
    · exact outside target isTarget inside
  · exact fun target isTarget inside =>
      acyclic _ .refl ((live target isTarget).1.trans inside)

end Leaves

namespace Inspection

variable {σ : Type} {requests : List Request} {ctx : Context} {root : OpId} {data : Operation}

/-- Lines as text, each with its end. -/
def textOf (lines : List Line) : String := String.join (lines.map fun line => line.toText ++ "\n")

/-- An inspection reports both dumps, the children, and how the pipeline ended between them. -/
theorem run_eq_ok {pipeline : Pipeline σ} {ctx' : Context} {notes notes' : σ}
    {before after : String} {children : List Child} {outcome : Except Pipeline.Failure Unit}
    (dumped : ctx.dump root = .ok before) (named : ctx.children root = .ok children)
    (piped : pipeline.run root (ctx, notes) = .ok (outcome, ctx', notes'))
    (dumped' : ctx'.dump root = .ok after) :
    run pipeline root (ctx, notes) = .ok (⟨before, children, outcome, after⟩, ctx', notes') := by
  -- Each stage is run on what the stage before it has left, and only the pipeline changes anything.
  show ((ctx.dump root >>= fun text => pure (text, ctx, notes)) >>= _) = _
  rw [dumped]
  show ((ctx.children root >>= fun listed => pure (listed, ctx, notes)) >>= _) = _
  rw [named]
  show (pipeline.run root (ctx, notes) >>= _) = _
  rw [piped]
  show ((ctx'.dump root >>= fun text => pure (text, ctx', notes')) >>= _) = _
  rw [dumped']
  rfl

/-- What an operation that fits is dumped in can be marked, and is what comes line by line. -/
theorem exists_markedLines (wellFounded : WellFounded ctx.types.IsParameter)
    (fits : ctx.Fits ctx.depthBound (.op root)) (kind : OpKind) :
    ∃ marked, ctx.markedLines kind root 0 = .ok marked ∧
      ctx.Streams root 0 (marked.map Prod.fst) ∧
      ctx.dump root = .ok (textOf (marked.map Prod.fst)) := by
  have acyclic : ctx.AcyclicBelow (.op root) := fits.below.2
  have shaped : ∃ shape, ctx.shape root = .ok shape := Context.exists_shapeWithin fits
  obtain ⟨shape, found⟩ := shaped
  obtain ⟨marked, made, same⟩ := Context.exists_markedWithin found false 0
  -- What is marked is what the shape comes in, and so what is dumped.
  have dumped : ctx.recursiveDump .wraps 0 root = .ok (marked.map Prod.fst) :=
    (Context.recursiveDump_eq_ok_iff acyclic).mpr ⟨Context.hasRoom_wraps _ _, shape, found, same⟩
  exact ⟨marked, made, (Context.streams_iff wellFounded acyclic).mpr dumped,
    bind_eq_ok.mpr ⟨_, Context.dumpLines_of_recursiveDump acyclic dumped, rfl⟩⟩

/--
Where all operands are known, no type is among its own parameters and no operation below a root is
inside itself, an inspection with the default pipeline comes to a report, whether the pipeline
succeeds or not. The dumps before and after show the same lines outside functions strictly below the
root. Without such functions, the pipeline succeeds and nothing changes.
-/
theorem outline_eq_of_run (plain : ∀ request ∈ requests, request.isEdit = false)
    (built : Context.build requests = .ok ctx)
    (reads : ∀ op data value, ctx.op op = .ok data → value ∈ data.operands →
      ∃ known, ctx.value value = .ok known)
    (wellFounded : WellFounded ctx.types.IsParameter) (found : ctx.op root = .ok data)
    (acyclic : ctx.AcyclicBelow (.op root)) (notes : σ) :
    ∃ report ctx' before after,
      run defaultPipeline root (ctx, notes) = .ok (report, ctx', notes) ∧
      ctx.markedLines .func root 0 = .ok before ∧ ctx'.markedLines .func root 0 = .ok after ∧
      ctx.Streams root 0 (before.map Prod.fst) ∧ ctx'.Streams root 0 (after.map Prod.fst) ∧
      report.before = textOf (before.map Prod.fst) ∧
      report.after = textOf (after.map Prod.fst) ∧
      Context.outline before = Context.outline after ∧
      ((∀ op, ¬ ctx.Live .func root op) → report.succeeded ∧ ctx' = ctx ∧ after = before) := by
  -- What requests build reads nothing unknown and fits, so that the dumps and the search are made.
  have sound := Sound.of_build plain built
  have fits := Context.fits_of_build plain built found acyclic
  have readsKnown : ctx.ReadsKnown fun _ => False :=
    fun op data value foundOp listed => .inl (reads op data value foundOp listed)
  have collected : ∃ targets, ctx.outermost .func root = .ok targets :=
    Context.exists_outermost fits
  obtain ⟨targets, outermost⟩ := collected
  have live := Context.live_of_outermost outermost
  -- The functions that are found are canonicalized one after the other.
  obtain ⟨ended, ctx', ran, rewrites⟩ := Canonicalization.exists_runEach_rewrites sound.consistent
    readsKnown (fun target isTarget => fits.of_reaches (live target isTarget).1.to_reflTransGen)
    {} notes
  -- Only what is inside of those functions is rewritten, so that no line outside of them changes.
  obtain ⟨-, leaves⟩ := Leaves.of_rewrites sound rewrites
  have fits' : ctx'.Fits ctx'.depthBound (.op root) :=
    (rewrites.evolves.fits fits).mono rewrites.evolves.depthBound_le
  obtain ⟨before, made, streams, dumped⟩ := exists_markedLines wellFounded fits .func
  obtain ⟨after, made', streams', dumped'⟩ :=
    exists_markedLines (leaves.types_eq ▸ wellFounded) fits' .func
  obtain ⟨children, named⟩ := Context.exists_children fits
  have piped := Pipeline.run_singleton ((Pass.run_nested outermost).trans ran)
  -- The report is what the four stages have come to.
  have reported : run defaultPipeline root (ctx, notes) = .ok (⟨textOf (before.map Prod.fst),
      children, ended.mapError (.mk 0 "func(canonicalize)"), textOf (after.map Prod.fst)⟩,
      ctx', notes) := run_eq_ok dumped named piped dumped'
  refine ⟨_, ctx', before, after, reported, made, made', streams, streams', rfl, rfl,
    leaves.outline_eq sound acyclic live made made', fun none => ?_⟩
  -- Without functions there is no target, and so no pass is run.
  have empty : targets = [] :=
    List.eq_nil_iff_forall_not_mem.mpr fun target isTarget => none target (live target isTarget)
  subst empty
  cases ran
  cases made.symm.trans made'
  exact ⟨rfl, rfl, rfl⟩

/-- Requests for a module of a function that folds a sum, and of an unused constant beside it. -/
def functionBesideConstant : List Request :=
  [.internType (.integer 8),
    .addOp { name := OpKind.constant.opName, resultTypes := [⟨0⟩]
             attributes := .ofList [(valueKey, .int 100)] },
    .addOp { name := OpKind.addi.opName, operands := [⟨0⟩, ⟨0⟩], resultTypes := [⟨0⟩] },
    .addOp { name := OpKind.testOp.opName, operands := [⟨1⟩] },
    .addBlock { ops := [⟨0⟩, ⟨1⟩, ⟨2⟩] }, .addRegion { blocks := [⟨0⟩] },
    .addOp { name := OpKind.func.opName, regions := [⟨0⟩], symbol := some "f" },
    .addOp { name := OpKind.constant.opName, resultTypes := [⟨0⟩]
             attributes := .ofList [(valueKey, .int 1)] },
    .addBlock { ops := [⟨3⟩, ⟨4⟩] }, .addRegion { blocks := [⟨1⟩] },
    .addOp { name := OpKind.module.opName, regions := [⟨1⟩] }]

/-- The sum is folded in the function, and the unused constant beside it is still shown. -/
theorem outline_eq_of_run_functionBesideConstant :
    (∀ request ∈ functionBesideConstant, request.isEdit = false) ∧
      ∃ ctx, Context.build functionBesideConstant = .ok ctx ∧
        (∀ op data value, ctx.op op = .ok data → value ∈ data.operands →
          ∃ known, ctx.value value = .ok known) ∧
        WellFounded ctx.types.IsParameter ∧ ctx.AcyclicBelow (.op ⟨5⟩) ∧
        ∃ report ctx' after, run defaultPipeline ⟨5⟩ (ctx, ()) = .ok (report, ctx', ()) ∧
          ctx'.markedLines .func ⟨5⟩ 0 = .ok after ∧ Context.outline after =
            [.op 0 "module" 0 0 0 1 0, .regionsHeader 0 1, .region 1 1, .block 2 0 0 2,
              .op 3 "func@f" 0 0 0 1 0, .regionsHeader 3 1,
              .op 3 "arith.constant" 0 1 1 0 0, .attributesHeader 3 1, .entry 4 "value" "1"] := by
  -- The program is built and its outline before the run is computed, and no pass is run for that.
  obtain ⟨ctx, built, ⟨data, found⟩, inside, paramless, listed, marked, made, shown⟩ :
      ∃ ctx, Context.build functionBesideConstant = .ok ctx ∧ (∃ data, ctx.op ⟨5⟩ = .ok data) ∧
        (∀ data ∈ ctx.ops.toList, ∀ value ∈ data.operands, value.index < ctx.values.size) ∧
        (∀ data ∈ ctx.types.entries, data.params = []) ∧
        (∃ listing, ctx.preorder (.op ⟨5⟩) = .ok listing) ∧
        ∃ marked, ctx.markedLines .func ⟨5⟩ 0 = .ok marked ∧ Context.outline marked =
          [.op 0 "module" 0 0 0 1 0, .regionsHeader 0 1, .region 1 1, .block 2 0 0 2,
            .op 3 "func@f" 0 0 0 1 0, .regionsHeader 3 1,
            .op 3 "arith.constant" 0 1 1 0 0, .attributesHeader 3 1, .entry 4 "value" "1"] :=
    ⟨_, rfl, ⟨_, rfl⟩, by decide, by decide +kernel, ⟨_, rfl⟩, _, rfl, by decide +kernel⟩
  -- What was computed discharges the hypotheses, and the outline after the run is the one before.
  have plain : ∀ request ∈ functionBesideConstant, request.isEdit = false := by decide
  have acyclic := (Context.preorder_ok_iff.mp listed).2
  have reads : ∀ op data value, ctx.op op = .ok data → value ∈ data.operands →
      ∃ known, ctx.value value = .ok known := fun op data value foundOp read =>
    Context.exists_value_of_lt (inside data (Context.mem_ops_of_op foundOp) value read)
  have wellFounded := TypeTable.wellFounded_of_plain paramless
  obtain ⟨report, ctx', before, after, ran, madeToo, made', -, -, -, -, same, -⟩ :=
    outline_eq_of_run plain built reads wellFounded found acyclic ()
  cases made.symm.trans madeToo
  exact ⟨plain, ctx, built, reads, wellFounded, acyclic, report, ctx', after, ran, made',
    same.symm.trans shown⟩

end Inspection

end NestedIR
