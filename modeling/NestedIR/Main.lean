import NestedIR.Inspection.Report
import NestedIR.Inspection.Sample

/-! The command line inspects the sample program and prints the report. -/

namespace NestedIR

/-- What an inspection of the sample program reports. -/
def sampleReport : Except Fault String := do
  let (root, ctx) ← Context.addSample {}
  let (report, _) ← (Inspection.run Inspection.defaultPipeline root).run (ctx, ())
  return report.toText

end NestedIR

/-- Prints the report on the sample program. -/
def main : IO Unit :=
  match NestedIR.sampleReport with
  | .ok text => IO.print text
  | .error fault => throw (IO.userError fault.message)
