import NestedIR.Context.Edit
import NestedIR.Dialect.Builtin
import NestedIR.Dialect.Standard

/-! The sample program is a module around one function without a body. -/

namespace NestedIR.Context

/-- Registers the standard dialects and makes the sample program. The answer is its module. -/
def addSample (ctx : Context) : Except Fault (OpId × Context) := do
  let ctx := { ctx with dialects := ctx.dialects.insertStandard }
  let (mainBody, ctx) ← ctx.addRegion {}
  let (main, ctx) ← ctx.addFunc "main" mainBody
  let (block, ctx) ← ctx.addBlock {}
  let ctx ← ctx.appendOp block main
  let (body, ctx) ← ctx.addRegion { blocks := [block] }
  ctx.addModule none body

end NestedIR.Context
