import NestedIR.Traversal

/-! Passes change what is below one operation, and may report that they could not finish. -/

namespace NestedIR

/-- Why a pass could not finish. -/
structure Pass.Failure where
  /-- What a reader is told. -/
  message : String
deriving DecidableEq

/-- How a pass ended. Its changes stay in either case. -/
abbrev Outcome := Except Pass.Failure Unit

/-- An action on a program and on whatever the author of a pass keeps beside it. -/
abbrev PassM (σ : Type) := StateT (Context × σ) (Except Fault)

/-- A named change to what is below an operation. -/
structure Pass (σ : Type) where
  /-- The name under which the pass is reported. -/
  name : String
  /-- Runs the pass on an operation. -/
  run : OpId → PassM σ Outcome

namespace Pass

variable {σ : Type}

/-- A pass that works on the program alone. -/
def ofContext (name : String) (change : OpId → Context → Except Fault (Outcome × Context)) :
    Pass σ where
  name
  run root := fun (ctx, notes) => do
    let (outcome, ctx) ← change root ctx
    return (outcome, ctx, notes)

/-- Runs a pass on each operation in turn, up to the first failure. -/
def runEach (pass : Pass σ) : List OpId → PassM σ Outcome
  | [] => return .ok ()
  | target :: rest => do
    match ← pass.run target with
    | .ok () => runEach pass rest
    | .error failure => return .error failure

/--
Runs a pass on the outermost operations of a kind strictly below an operation.

The targets are those that are there when the run starts.
-/
def nested (kind : OpKind) (pass : Pass σ) : Pass σ where
  name := s!"{kind.fullName}({pass.name})"
  run root := do
    let targets ← (← get).1.outermost kind root
    pass.runEach targets

end Pass

end NestedIR
