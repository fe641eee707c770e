import NestedIR.Attribute.Render
import NestedIR.Context.Basic
import NestedIR.Symbol

/-! A description says how an operation appears in print, and what could not be resolved for it. -/

namespace NestedIR

/-- Something about an operation that could not be resolved. -/
inductive Issue where
  /-- An operation that defines a symbol carries none. -/
  | missingSymbol (op : OpId) (kind : OpKind)
  /-- An attribute has no text, so that its tag stands in for it. -/
  | unprintedAttribute (key tag : String) (reason : PrintError)
deriving DecidableEq

/-- What a reader is told about an issue. -/
def Issue.message : Issue → String
  | missingSymbol op kind => s!"{op}: {kind.fullName} op has no symbol name"
  | unprintedAttribute key tag reason =>
    s!"attribute `{key}` rendered as `{tag}`: {reason.message}"

/-- How an operation appears in print. -/
structure Description where
  /-- The name of the operation. -/
  name : String
  /-- The namespace of the operation. -/
  namespaceText : String
  /-- The symbol, when the operation is of a kind that defines one. -/
  symbol : Option String
  /-- The keys of the attributes with their texts. -/
  attributes : List (String × String)
  /-- What could not be resolved, a missing symbol before any attribute. -/
  issues : List Issue

/-- The name of the operation, followed by its symbol when there is one. -/
def Description.label (description : Description) : String :=
  match description.symbol with
  | some symbol => description.name ++ "@" ++ symbol
  | none => description.name

namespace Attribute

/-- The text of an attribute, or its tag when it has no text. -/
def renderOrTag (ctx : Context) (value : Attribute) : String :=
  match value.render ctx with
  | .ok text => text
  | .error _ => value.tag

/-- The issue of an attribute without a text. -/
def issue? (ctx : Context) (key : String) (value : Attribute) : Option Issue :=
  match value.render ctx with
  | .ok _ => none
  | .error reason => some (.unprintedAttribute key value.tag reason)

end Attribute

/-- The issue of an operation that should carry a symbol and does not. -/
def Operation.issue? (op : OpId) (data : Operation) : Option Issue :=
  match data.symbolInfo? with
  | some (kind, none) => some (.missingSymbol op kind)
  | _ => none

/-- How an operation appears in print. -/
def Operation.describe (ctx : Context) (op : OpId) (data : Operation) : Description where
  name := data.name.toText
  namespaceText := data.namespaceText ctx.dialects
  symbol := data.symbolInfo?.bind Prod.snd
  attributes := data.attributes.entries.map fun (key, value) => (key, value.renderOrTag ctx)
  issues :=
    (data.issue? op).toList
      ++ data.attributes.entries.filterMap fun (key, value) => value.issue? ctx key

/-- How an operation appears in print. -/
def Context.describe (ctx : Context) (op : OpId) : Except Fault Description := do
  return (← ctx.op op).describe ctx op

end NestedIR
