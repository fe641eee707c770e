import NestedIR.Dialect.Arith
import NestedIR.Dialect.ControlFlow
import NestedIR.Dialect.Testing

/-! The standard dialects are those whose operations this library defines. -/

namespace NestedIR.DialectTable

/-- Registers the arithmetic dialect. -/
def insertArith (dialects : DialectTable) : DialectTable := dialects.insert arithDialect

/-- Registers the control flow dialect. -/
def insertControlFlow (dialects : DialectTable) : DialectTable := dialects.insert controlFlowDialect

/-- Registers the test dialect with its printer. -/
def insertTest (dialects : DialectTable) : DialectTable :=
  dialects.setPrinter testDialect (some printTextPayload)

/-- Registers every standard dialect. -/
def insertStandard (dialects : DialectTable) : DialectTable :=
  dialects.insertArith.insertControlFlow.insertTest

end NestedIR.DialectTable
