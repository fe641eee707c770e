import NestedIR.Pass.Basic

/-! Pipelines run passes one after the other and stop at the first failure. -/

namespace NestedIR

/-- A pass of a pipeline could not finish. -/
structure Pipeline.Failure where
  /-- The position of the pass in the pipeline. -/
  index : Nat
  /-- The name of the pass. -/
  pass : String
  /-- Why the pass could not finish. -/
  failure : Pass.Failure
deriving DecidableEq

/-- What a reader is told about a failed pipeline. -/
def Pipeline.Failure.message (stop : Pipeline.Failure) : String :=
  s!"pass #{stop.index} `{stop.pass}` failed: {stop.failure.message}"

/-- Passes in the order in which they run. -/
structure Pipeline (σ : Type) where
  /-- The passes in the order in which they run. -/
  passes : List (Pass σ)

namespace Pipeline

variable {σ : Type}

/-- Runs passes whose positions start at the given number. -/
def runFrom (root : OpId) : Nat → List (Pass σ) → PassM σ (Except Failure Unit)
  | _, [] => return .ok ()
  | index, pass :: rest => do
    match ← pass.run root with
    | .ok () => runFrom root (index + 1) rest
    | .error failure => return .error ⟨index, pass.name, failure⟩

/-- Runs every pass on one operation, up to the first failure. Earlier changes stay. -/
def run (pipeline : Pipeline σ) (root : OpId) : PassM σ (Except Failure Unit) :=
  runFrom root 0 pipeline.passes

end Pipeline

end NestedIR
