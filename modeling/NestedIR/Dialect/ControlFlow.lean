import NestedIR.Context.Add
import NestedIR.Dialect.Kind

/-! Branches end a block and name the blocks to which control may pass. -/

namespace NestedIR

/-- The namespace of control flow. -/
def controlFlowDialect : String := "cf"

namespace Context

/-- Makes a branch to one block. -/
def addBranch (ctx : Context) (target : BlockId) (operands : List ValueId) :
    Except Fault (OpId × Context) :=
  ctx.addOp { name := OpKind.br.opName, operands, successors := [target] }

/-- Makes a branch to one of two blocks. -/
def addCondBranch (ctx : Context) (condition : ValueId) (thenTarget elseTarget : BlockId) :
    Except Fault (OpId × Context) :=
  ctx.addOp
    { name := OpKind.condBr.opName, operands := [condition]
      successors := [thenTarget, elseTarget] }

end Context

end NestedIR
