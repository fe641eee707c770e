import NestedIR.Context.Add
import NestedIR.Dialect.Kind

/-! The test dialect has operations without structure and payloads that are plain text. -/

namespace NestedIR

/-- The namespace of test operations. -/
def testDialect : String := "test"

/-- Makes a test operation. -/
def Context.addTestOp (ctx : Context) : Except Fault (OpId × Context) :=
  ctx.addOp { name := OpKind.testOp.opName }

/-- Prints a payload that is valid UTF-8 as its text, and refuses any other. -/
def printTextPayload : PayloadPrinter := fun bytes =>
  (String.fromUTF8? ⟨bytes.toArray⟩).map fun text => "#test<" ++ text ++ ">"

end NestedIR
