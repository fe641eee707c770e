import NestedIR.Binary64
import NestedIR.Context.Data
import NestedIR.Text.Alphanumeric
import NestedIR.Text.Escaped

/-! Attributes have a text, unless a type or a payload in them has none. -/

namespace NestedIR

/-- Why an attribute has no text. -/
inductive PrintError where
  /-- The type table does not know the type. -/
  | unknownType (type : TypeId)
  /-- The dialect that owns a payload is not registered. -/
  | unregisteredDialect (dialect : String)
  /-- The dialect that owns a payload cannot print any. -/
  | noPayloadPrinter (dialect : String)
  /-- The dialect that owns a payload refuses it. -/
  | rejectedPayload (dialect : String)
  /-- A type is among its own parameters, so that its text would never end. -/
  | endlessType (type : TypeId)
deriving DecidableEq

/-- What a reader is told about an attribute without a text. -/
def PrintError.message : PrintError → String
  | unknownType type => s!"type {type} is not interned in this context"
  | unregisteredDialect dialect => s!"dialect `{dialect}` is not registered"
  | noPayloadPrinter dialect => s!"dialect `{dialect}` has no printer for opaque attributes"
  | rejectedPayload dialect => s!"dialect `{dialect}` rejected the attribute payload"
  | endlessType type => s!"type {type} is a parameter of itself"

/-- Texts set apart by commas. -/
def commaSeparated (texts : List String) : String := ", ".intercalate texts

/-- The text of a type, with its parameters in parentheses, which nest down to a depth. -/
def TypeTable.renderWithin (types : TypeTable) : Nat → TypeId → Except PrintError String
  | 0, type => .error (.endlessType type)
  | depth + 1, type => do
    let some data := types.get? type | throw (.unknownType type)
    let params ← data.params.mapM (types.renderWithin depth)
    let name := data.dialect ++ "." ++ data.name
    return if params.isEmpty then name else name ++ "(" ++ commaSeparated params ++ ")"

/-- The text of a type. Parameters that never repeat nest no deeper than there are types. -/
def TypeTable.render (types : TypeTable) (type : TypeId) : Except PrintError String :=
  types.renderWithin (types.size + 1) type

/-- The text of a payload, as the dialect that owns it prints it. -/
def DialectTable.renderPayload (dialects : DialectTable) (dialect : String) (bytes : List UInt8) :
    Except PrintError String := do
  let some owner := dialects.get? dialect | throw (.unregisteredDialect dialect)
  let some printer := owner.printer | throw (.noPayloadPrinter dialect)
  let some text := printer bytes | throw (.rejectedPayload dialect)
  return text

/-- The text of a symbol reference, quoted unless made of letters, numbers and underscores. -/
def renderSymbol (name : String) : String :=
  let plain := !name.isEmpty && name.toList.all fun char => Text.isAlphanumeric char || char = '_'
  if plain then "@" ++ name else "@" ++ Text.quoted name

mutual

/-- The text of an attribute. In a list, the first item without a text decides the error. -/
def Attribute.render (ctx : Context) : Attribute → Except PrintError String
  | .unit => return "unit"
  | .bool value => return if value then "true" else "false"
  | .int value => return toString value.toInt
  | .float bits => return (Binary64.ofBits bits).toText
  | .string text => return Text.quoted text
  | .symbol name => return renderSymbol name
  | .type named => ctx.types.render named
  | .list items => return "[" ++ commaSeparated (← Attribute.renderAll ctx items) ++ "]"
  | .payload dialect bytes => ctx.dialects.renderPayload dialect bytes
termination_by structural value => value

/-- The texts of all attributes, or the first error. -/
def Attribute.renderAll (ctx : Context) : List Attribute → Except PrintError (List String)
  | [] => return []
  | item :: rest => return (← item.render ctx) :: (← Attribute.renderAll ctx rest)
termination_by structural items => items

end

end NestedIR
