import NestedIR.Proofs.Pass.Rewriting

/-! A sweep is a run of rewrites, and fails only where a lookup or a rewrite does. -/

namespace NestedIR

open Relation

/--
What a change of a program comes to.

Either it is a run of rewrites of operations that may be touched, or a failure that is allowed.
-/
def Meets {α : Type} (allowed : Fault → Prop) (touched : OpId → Prop) (ctx : Context) :
    Except Fault (α × Context) → Prop
  | .ok (_, ctx') => Rewrites touched ctx ctx'
  | .error fault => allowed fault

namespace Meets

variable {α β : Type} {allowed : Fault → Prop} {touched : OpId → Prop} {ctx mid : Context}

/-- Where no failure is allowed, there is an answer, and rewrites lead to it. -/
theorem exists_ok {ended : Except Fault (α × Context)}
    (meets : Meets (fun _ => False) touched ctx ended) :
    ∃ answer ctx', ended = .ok (answer, ctx') ∧ Rewrites touched ctx ctx' := by
  cases ended with
  | error fault => cases meets
  | ok answer => exact ⟨answer.1, answer.2, rfl, meets⟩

/-- Rewrites may come first. -/
theorem after {ended : Except Fault (α × Context)} (before : Rewrites touched ctx mid)
    (meets : Meets allowed touched mid ended) : Meets allowed touched ctx ended := by
  cases ended with
  | error fault => exact meets
  | ok answer => exact ReflTransGen.trans before meets

/-- More operations may be touched than are. -/
theorem mono {other : OpId → Prop} {ended : Except Fault (α × Context)}
    (meets : Meets allowed touched ctx ended) (more : ∀ op, touched op → other op) :
    Meets allowed other ctx ended := by
  -- A failure is allowed all the same.
  cases ended with
  | error fault => exact meets
  | ok answer => exact Rewrites.mono meets more

/-- A lookup comes before what depends on it. -/
theorem lookup {δ : Type} {found : Except Fault δ} {next : δ → Except Fault (α × Context)}
    (fails : ∀ fault, found = .error fault → allowed fault)
    (goes : ∀ data, found = .ok data → Meets allowed touched ctx (next data)) :
    Meets allowed touched ctx (found >>= next) := by
  -- A lookup changes nothing, so it can only fail.
  cases found with
  | error fault => exact fails fault rfl
  | ok data => exact goes data rfl

/-- What fits into a depth can be looked up, so that a lookup fails only if anything may fail. -/
theorem allowed_of_fits {δ : Type} {found : Except Fault δ} {fault : Fault} {depth : Nat}
    {entity : Entity} (fits : (∀ fault, allowed fault) ∨ ctx.Fits depth entity)
    (known : ctx.Fits depth entity → ∃ data, found = .ok data) (failed : found = .error fault) :
    allowed fault := by
  -- A lookup of what fits does not fail.
  rcases fits with any | fits
  · exact any fault
  · obtain ⟨data, succeeded⟩ := known fits
    rw [failed] at succeeded
    cases succeeded

/-- One change, which may touch less, comes before what depends on it. -/
theorem bind {inner : OpId → Prop} {first : Except Fault (α × Context)}
    {next : α × Context → Except Fault (β × Context)} (meets : Meets allowed inner ctx first)
    (more : ∀ op, inner op → touched op)
    (goes : ∀ answer mid, first = .ok (answer, mid) → Rewrites inner ctx mid →
      Meets allowed touched mid (next (answer, mid))) :
    Meets allowed touched ctx (first >>= next) := by
  -- What the first change rewrote comes before what the second one does.
  cases first with
  | error fault => exact meets
  | ok answer => exact (goes answer.1 answer.2 rfl meets).after (Rewrites.mono meets more)

/-- One sweep, which may touch less, comes before another. -/
theorem andThen {inner : OpId → Prop} {first second : Sweep}
    (meets : Meets allowed inner ctx (first ctx)) (more : ∀ op, inner op → touched op)
    (goes : ∀ mid, Rewrites inner ctx mid → Meets allowed touched mid (second mid)) :
    Meets allowed touched ctx (first.andThen second ctx) :=
  meets.bind more fun _ mid _ before => (goes mid before).bind (fun _ => id) fun _ _ _ _ => .refl

/-- Sweeps for the items of a list come one after another. -/
theorem each {ι : Type} {step : ι → Sweep} {items : List ι}
    (goes : ∀ item ∈ items, ∀ mid, Rewrites touched ctx mid →
      Meets allowed touched mid (step item mid)) :
    Meets allowed touched ctx (Sweep.each step items ctx) := by
  -- The rewrites for one item come before those for the rest.
  induction items generalizing ctx with
  | nil => exact ReflTransGen.refl
  | cons first rest ih =>
    refine andThen (goes first (by simp) ctx .refl) (fun _ => id) fun mid before => ih ?_
    intro item member last after
    exact goes item (by simp [member]) last (before.trans after)

/--
Sweeps for the blocks of an operation come one after another.

Each starts with the block still in the operation, and with as much depth as there is below it.
-/
theorem eachBlock {step : BlockId → Sweep} {op : OpId} {depth : Nat}
    (fits : (∀ fault, allowed fault) ∨ ctx.Fits (depth + 1) (.op op))
    (goes : ∀ block mid, Rewrites touched ctx mid → mid.Encloses op block →
      ((∀ fault, allowed fault) ∨ mid.Fits depth (.block block)) →
      Meets allowed touched mid (step block mid)) :
    Meets allowed touched ctx (Sweep.eachBlock step op ctx) := by
  refine lookup (fun fault => allowed_of_fits fits Context.Fits.exists_op) fun data found =>
    each fun region inRegions mid before => ?_
  -- Rewrites leave the regions of the operation and the blocks of the region alone.
  obtain ⟨operands, owner, foundMid, -⟩ := before.evolves.op_known found
  have toRegion : mid.Contains (.op op) (.region region) :=
    Context.contains_op.mpr ⟨_, region, foundMid, inRegions, rfl⟩
  have regionFits : (∀ fault, allowed fault) ∨ mid.Fits depth (.region region) :=
    fits.imp_right fun fits => (before.evolves.fits fits).of_contains toRegion
  refine lookup (fun fault => allowed_of_fits regionFits Context.Fits.exists_region)
    fun listed known => each fun block inBlocks last after => ?_
  obtain ⟨operands, owner, foundLast, -⟩ := after.evolves.op_known foundMid
  have knownLast := (Context.region_congr after.evolves.regions_eq region).trans known
  have toRegionLast : last.Contains (.op op) (.region region) :=
    Context.contains_op.mpr ⟨_, region, foundLast, inRegions, rfl⟩
  have toBlock : last.Contains (.region region) (.block block) :=
    Context.contains_region.mpr ⟨listed, block, knownLast, inBlocks, rfl⟩
  refine goes block last (before.trans after) ⟨region, toRegionLast, toBlock⟩ ?_
  exact regionFits.imp_right fun fits => (after.evolves.fits fits).inner toBlock

/-- Sweeps for the operations that a block lists, in any order, come one after another. -/
theorem eachListed (order : List OpId → List OpId) {step : OpId → Sweep} {block : BlockId}
    {depth : Nat} (same : ∀ op ops, op ∈ order ops → op ∈ ops)
    (fits : (∀ fault, allowed fault) ∨ ctx.Fits depth (.block block))
    (goes : ∀ data op, ctx.block block = .ok data → op ∈ data.ops →
      ((∀ fault, allowed fault) ∨ ctx.Fits depth (.op op)) →
      ∀ mid, Rewrites touched ctx mid → Meets allowed touched mid (step op mid)) :
    Meets allowed touched ctx
      (ctx.block block >>= fun data => Sweep.each step (order data.ops) ctx) := by
  -- The block is asked for first, which fails only where that is allowed.
  refine lookup (fun fault => allowed_of_fits fits Context.Fits.exists_block) fun data found =>
    each fun op inOrder => ?_
  have listed := same op data.ops inOrder
  refine goes data op found listed (fits.imp_right fun fits => ?_)
  exact fits.inner (Context.contains_block.mpr ⟨data, op, found, listed, rfl⟩)

/-- An attempt is counted without a further change. -/
theorem counted {attempt : Attempt} (meets : Meets allowed touched ctx (attempt ctx)) :
    Meets allowed touched ctx (attempt.counted ctx) :=
  meets.bind (fun _ => id) fun _ _ _ _ => ReflTransGen.refl

/-- Requests that make up a rewrite meet their purpose if they may fail or do not fail. -/
theorem of_performAll {op : OpId} {requests : List Request} (touch : touched op)
    (rewrite : ∀ ctx', ctx.performAll requests = .ok ctx' → Rewrite op ctx ctx')
    (goes : (∀ fault, allowed fault) ∨ ∃ ctx', ctx.performAll requests = .ok ctx') :
    Meets allowed touched ctx ((ctx.performAll requests).map (true, ·)) := by
  -- Requests that go through are one rewrite.
  cases performed : ctx.performAll requests with
  | ok ctx' => exact ReflTransGen.single ⟨op, touch, rewrite ctx' performed⟩
  | error fault =>
    rcases goes with any | ⟨ctx', succeeded⟩
    · exact any fault
    · rw [performed] at succeeded
      cases succeeded

end Meets

end NestedIR
