import NestedIR.Context.Containment
import NestedIR.Dialect.Arith
import NestedIR.Pass.Basic
import NestedIR.Pass.Sweep

/-! Dead code is what has no side effects and whose results nobody uses. -/

namespace NestedIR

/-- An operation is dead when it is pure and none of its results is used. -/
def Context.isDead (ctx : Context) (data : Operation) : Bool :=
  data.isPure && data.results.all fun value => !ctx.isUsed value

namespace DeadCode

/-- How dead code is eliminated. -/
structure Config where
  /-- How often everything is swept at most. One sweep is made in any case. -/
  maxIterations : Nat := 100
  /-- Whether code that is nested deeper than the regions of the root is swept too. -/
  recursive : Bool := true

/-- What eliminating dead code came to. -/
structure Result where
  /-- The number of operations erased. -/
  removed : Nat
  /-- The number of sweeps made. -/
  iterations : Nat
  /-- Whether the last sweep found nothing to erase. -/
  reachedFixpoint : Bool
deriving DecidableEq

/-- Erases an operation from a block if it is dead. -/
def eraseIfDead (block : BlockId) (op : OpId) : Attempt := fun ctx => do
  if ctx.isDead (← ctx.op op) then return (true, ← ctx.eraseOp block op)
  else return (false, ctx)

/--
Sweeps the blocks of an operation, down to a depth.

Code nested in a block is swept before the block itself.
A block is swept from its end, so that a chain of dead operations goes in one sweep.
-/
def sweepBelow (recursive : Bool) : Nat → OpId → Sweep
  | 0, op => fun _ => .error (.containmentCycle (.op op))
  | depth + 1, op =>
    Sweep.eachBlock (fun block =>
      let inner := if recursive then Sweep.eachOp (sweepBelow recursive depth) block else Sweep.idle
      inner.andThen (Sweep.eachOpBackward (fun op => (eraseIfDead block op).counted) block)) op

/-- Sweeps everything below an operation once. -/
def sweep (config : Config) (root : OpId) : Sweep := fun ctx =>
  sweepBelow config.recursive ctx.depthBound root ctx

/-- Sweeps at most the given number of times, after sweeps that are counted already. -/
def eliminateFrom (config : Config) (root : OpId) (removed iterations : Nat) :
    Nat → Context → Except Fault (Result × Context)
  | 0, ctx => return (⟨removed, iterations, false⟩, ctx)
  | remaining + 1, ctx => do
    let (count, ctx) ← sweep config root ctx
    if count = 0 then return (⟨removed, iterations + 1, true⟩, ctx)
    else eliminateFrom config root (removed + count) (iterations + 1) remaining ctx

/-- Sweeps until there is nothing to erase, or as often as is allowed. -/
def eliminate (config : Config) (root : OpId) (ctx : Context) : Except Fault (Result × Context) :=
  eliminateFrom config root 0 0 (max config.maxIterations 1) ctx

/-- Eliminates dead code, which counts as finished also when sweeps run out. -/
def pass {σ : Type} (config : Config) : Pass σ :=
  .ofContext "dce" fun root ctx => do
    let (_, ctx) ← eliminate config root ctx
    return (.ok (), ctx)

end DeadCode

end NestedIR
