import NestedIR.Context.Add
import NestedIR.Dialect.Kind

/-! Constants and additions compute without side effects. -/

namespace NestedIR

/-- The namespace of arithmetic. -/
def arithDialect : String := "arith"

/-- The key under which a constant keeps its value. -/
def valueKey : String := "value"

namespace Context

/-- Makes a constant with one result. -/
def addConstant (ctx : Context) (type : TypeId) (value : Attribute) :
    Except Fault (OpId × Context) :=
  ctx.addOp
    { name := OpKind.constant.opName, resultTypes := [type]
      attributes := .ofList [(valueKey, value)] }

/-- Makes an addition of two values. -/
def addAddition (ctx : Context) (lhs rhs : ValueId) (type : TypeId) :
    Except Fault (OpId × Context) :=
  ctx.addOp { name := OpKind.addi.opName, operands := [lhs, rhs], resultTypes := [type] }

end Context

namespace Operation

/-- The value of a constant. -/
def constantValue? (data : Operation) : Option Attribute := data.attributes.get? valueKey

/-- The value of an integer constant. -/
def constantInt? (data : Operation) : Option Int64 :=
  match data.constantValue? with
  | some (.int value) => some value
  | _ => none

/-- The two sides of an addition, unless it is malformed. -/
def addends? (data : Operation) : Option (ValueId × ValueId) :=
  match data.operands with
  | [lhs, rhs] => some (lhs, rhs)
  | _ => none

/-- The one result of an operation that has exactly one. -/
def soleResult? (data : Operation) : Option ValueId :=
  match data.results with
  | [result] => some result
  | _ => none

/-- Constants and additions have no side effects. Every other operation may have some. -/
def isPure (data : Operation) : Bool := data.isKind .constant || data.isKind .addi

end Operation

end NestedIR
