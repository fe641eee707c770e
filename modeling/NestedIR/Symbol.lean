import NestedIR.Dialect.Kind

/-! Some kinds of operations define symbols, and registered dialects give operations a namespace. -/

namespace NestedIR

/-- The kinds that define a symbol, in the order in which they are tried. -/
def symbolKinds : List OpKind := [.module, .func]

namespace Operation

/-- The first kind of symbol definition that the operation is. -/
def symbolKind? (data : Operation) : Option OpKind := symbolKinds.find? data.isKind

/--
The kind of symbol definition that the operation is, with the symbol it carries.

An operation of such a kind may lack a symbol. The symbol of any other operation does not count.
-/
def symbolInfo? (data : Operation) : Option (OpKind × Option String) :=
  data.symbolKind?.map fun kind => (kind, data.symbol)

/-- The dialect that the operation names, if it is registered. -/
def dialect? (data : Operation) (dialects : DialectTable) : Option String :=
  data.name.dialect.filter dialects.contains

/-- The namespace of the operation as it is reported, which is null without a registered dialect. -/
def namespaceText (data : Operation) (dialects : DialectTable) : String :=
  (data.dialect? dialects).getD "null"

end Operation

end NestedIR
