import NestedIR.Context.Add
import NestedIR.Dialect.Arith
import NestedIR.Dialect.Builtin
import NestedIR.Pass.Pattern

/-! Folding replaces an addition of constants by the constant that it computes. -/

namespace NestedIR

/-- The signed number that the low bits of a number stand for. The width is from 1 to 64. -/
def signExtend (value : Int64) (width : Nat) : Int64 :=
  -- The bits go up to the top, so that the sign follows them down again.
  let shift := Int64.ofNat (64 - width)
  (value <<< shift) >>> shift

/-- The number that a value is known to be, because an integer constant defines it. -/
def Context.constantInt? (ctx : Context) (value : ValueId) : Except Fault (Option Int64) := do
  match (← ctx.value value).definition with
  | .result op 0 =>
    let data ← ctx.op op
    return if data.isKind .constant then data.constantInt? else none
  -- Only the first result of a constant has its value.
  | _ => return none

/-- What a foldable addition computes. -/
structure Sum where
  /-- The result of the addition. -/
  result : ValueId
  /-- The type of the result. -/
  type : TypeId
  /-- The sum in the width of the type. -/
  value : Int64

/--
What an addition of two integer constants computes.

The addition must have two operands and one result, and the result an integer type.
-/
def Context.sum? (ctx : Context) (data : Operation) : Except Fault (Option Sum) := do
  unless data.isKind .addi do return none
  let some (lhs, rhs) := data.addends? | return none
  let some result := data.soleResult? | return none
  -- Both sides are looked up before either decides.
  let lhs ← ctx.constantInt? lhs
  let rhs ← ctx.constantInt? rhs
  let some lhs := lhs | return none
  let some rhs := rhs | return none
  let type := (← ctx.value result).type
  let some width := ctx.types.integerWidth? type | return none
  return some ⟨result, type, signExtend (lhs + rhs) width⟩

/-- An addition of two integer constants becomes one constant in its place. -/
def foldAddition : Pattern where
  name := "fold-constant-add"
  rewrite block op ctx := do
    let some sum ← ctx.sum? (← ctx.op op) | return (false, ctx)
    let (constant, ctx) ← ctx.addConstant sum.type (.int sum.value)
    let ctx ← ctx.insertOp block op constant
    let new ← ctx.result constant 0
    return (true, ← (ctx.redirectUses sum.result new).eraseOp block op)

end NestedIR
