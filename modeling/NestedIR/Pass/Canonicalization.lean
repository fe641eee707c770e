import NestedIR.Pass.DeadCode
import NestedIR.Pass.Folding

/-! Canonicalization applies local rewrites until none of them applies any more. -/

namespace NestedIR

namespace Canonicalization

/-- A dead operation is erased. -/
def eraseDead : Pattern where
  name := "erase-dead-pure"
  rewrite := DeadCode.eraseIfDead

/-- The rewrites that every canonicalization tries, in this order. -/
def builtinPatterns : List Pattern := [foldAddition, eraseDead]

/--
Visits the operations in the blocks of an operation, down to a depth.

What an operation contains is visited before the operation is rewritten.
An operation that has left its block by the time it is reached is passed over.
-/
def visitBelow (patterns : List Pattern) : Nat → OpId → Sweep
  | 0, op => fun _ => .error (.containmentCycle (.op op))
  | depth + 1, op =>
    Sweep.eachBlock (fun block =>
      Sweep.eachOp (fun inner ctx => do
        if (← ctx.op inner).parentBlock = some block then
          let rewrite := (Pattern.applyFirst block inner patterns).counted
          (visitBelow patterns depth inner).andThen rewrite ctx
        else return (0, ctx)) block) op

/--
Visits everything below an operation once.

A rewrite may break a containment cycle while the cycle is being followed. With rewrites that take
turns on an operation, that can take one time round for every pattern.
-/
def visit (patterns : List Pattern) (root : OpId) : Sweep := fun ctx =>
  visitBelow patterns (ctx.depthBound * (patterns.length + 1)) root ctx

/-- How a program is canonicalized. -/
structure Config where
  /-- How often everything is visited at most. -/
  maxIterations : Nat := 10

/-- What a canonicalization came to. -/
structure Result where
  /-- The number of changes in each visit. -/
  changes : List Nat
  /-- Whether the last visit changed nothing. -/
  converged : Bool
deriving DecidableEq

/-- Visits everything below an operation until nothing changes, at most a given number of times. -/
def iterate (patterns : List Pattern) (root : OpId) :
    Nat → Context → Except Fault (Result × Context)
  | 0, ctx => return (⟨[], false⟩, ctx)
  | remaining + 1, ctx => do
    let (count, ctx) ← visit patterns root ctx
    if count = 0 then return (⟨[0], true⟩, ctx)
    let (result, ctx) ← iterate patterns root remaining ctx
    return (⟨count :: result.changes, result.converged⟩, ctx)

/-- A canonicalization that runs out of visits while things still change has failed. -/
def outcome (config : Config) (result : Result) : Outcome :=
  if result.converged then .ok ()
  else .error ⟨s!"canonicalize did not converge within {config.maxIterations} iterations"⟩

/-- Canonicalizes with further rewrites, tried after the built-in ones. -/
def passWith {σ : Type} (config : Config) (patterns : List Pattern) : Pass σ :=
  .ofContext "canonicalize" fun root ctx => do
    let (result, ctx) ← iterate (builtinPatterns ++ patterns) root config.maxIterations ctx
    return (outcome config result, ctx)

/-- Canonicalizes with the built-in rewrites. -/
def pass {σ : Type} (config : Config) : Pass σ := passWith config []

end Canonicalization

end NestedIR
