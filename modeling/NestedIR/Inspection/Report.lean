import NestedIR.Inspection.Child
import NestedIR.Pass.Canonicalization
import NestedIR.Pass.Pipeline
import NestedIR.Structure.Dump

/-! An inspection shows a program and its children, runs a pipeline and shows the program again. -/

namespace NestedIR.Inspection

/-- What an inspection found. -/
structure Report where
  /-- The dump before the pipeline ran. -/
  before : String
  /-- The children before the pipeline ran. -/
  children : List Child
  /-- How the pipeline ended. -/
  outcome : Except Pipeline.Failure Unit
  /-- The dump after the pipeline ran. -/
  after : String

namespace Report

/-- An inspection succeeds when its pipeline does. -/
def succeeded (report : Report) : Bool :=
  match report.outcome with
  | .ok () => true
  | .error _ => false

/-- The report as text, with two blank lines in front of the part about the pipeline. -/
def toText (report : Report) : String :=
  "----------print IR Structure begin----------\n"
    ++ report.before
    ++ "----------print IR Structure end----------\n"
    ++ String.join (report.children.map fun child => child.toText ++ "\n")
    ++ "\n\n==========test PassManager begin==============\n"
    ++ (if report.succeeded then "PassManager run succeeded.\n" else "PassManager run failed\n")
    ++ report.after
    ++ "==========test PassManager end==============\n"

end Report

/-- Unless another pipeline is asked for, every function is canonicalized. -/
def defaultPipeline {σ : Type} : Pipeline σ := ⟨[.nested .func (Canonicalization.pass {})]⟩

/-- Inspects an operation. -/
def run {σ : Type} (pipeline : Pipeline σ) (root : OpId) : PassM σ Report := do
  let (ctx, _) ← get
  let before ← ctx.dump root
  let children ← ctx.children root
  let outcome ← pipeline.run root
  let (ctx, _) ← get
  let after ← ctx.dump root
  return { before, children, outcome, after }

end NestedIR.Inspection
