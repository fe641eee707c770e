import NestedIR.Context.Add
import NestedIR.Dialect.Kind

/-! Modules, functions, returns and integer types belong to every program. -/

namespace NestedIR

namespace Context

/-- Makes a module around a body. -/
def addModule (ctx : Context) (symbol : Option String) (body : RegionId) :
    Except Fault (OpId × Context) :=
  ctx.addOp { name := OpKind.module.opName, regions := [body], symbol }

/-- Makes a named function around a body. -/
def addFunc (ctx : Context) (symbol : String) (body : RegionId) :
    Except Fault (OpId × Context) :=
  ctx.addOp { name := OpKind.func.opName, regions := [body], symbol := some symbol }

/-- Makes the end of a function. -/
def addReturn (ctx : Context) (operands : List ValueId) : Except Fault (OpId × Context) :=
  ctx.addOp { name := OpKind.ret.opName, operands }

end Context

/-- The dialect of the integer types. -/
def coreDialect : String := "core"

/-- The integer type of a width. -/
def TypeData.integer (width : Nat) : TypeData := ⟨coreDialect, "i" ++ toString width, []⟩

/-- Puts a decimal digit behind a number, unless the result is too large for 32 bits. -/
def appendDigit? (number : Nat) (digit : Char) : Option Nat :=
  let next := 10 * number + (digit.toNat - '0'.toNat)
  if digit.isDigit && next < UInt32.size then some next else none

/-- The 32-bit number that decimal digits stand for. There must be one at least. -/
def decimalValue? (digits : List Char) : Option Nat :=
  if digits.isEmpty then none else digits.foldlM appendDigit? 0

/-- The 32-bit number that decimal digits stand for. One plus sign may come before them. -/
def unsignedValue? : List Char → Option Nat
  | '+' :: digits => decimalValue? digits
  | digits => decimalValue? digits

/--
The width of an integer type.

The type must be in the core dialect and have no parameters.
Its name is the letter i and a number from 1 to 64, which zeros may lead.
-/
def TypeData.integerWidth? (type : TypeData) : Option Nat :=
  if type.dialect = coreDialect && type.params.isEmpty then
    match type.name.toList with
    | 'i' :: digits => (unsignedValue? digits).filter fun width => 1 ≤ width && width ≤ 64
    | _ => none
  else none

/-- The width of a recorded integer type. -/
def TypeTable.integerWidth? (types : TypeTable) (type : TypeId) : Option Nat :=
  (types.get? type).bind TypeData.integerWidth?

end NestedIR
