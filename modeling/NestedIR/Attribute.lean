import NestedIR.Entity

/-! Attributes are constant data attached to operations. -/

namespace NestedIR

/-- A constant attached to an operation under a key. -/
inductive Attribute where
  /-- A marker that carries no data. -/
  | unit
  /-- A truth value. -/
  | bool (value : Bool)
  /-- A signed 64-bit integer. -/
  | int (value : Int64)
  /-- A binary64 number, kept as its bits. -/
  | float (bits : UInt64)
  /-- Text. -/
  | string (text : String)
  /-- A reference to a named symbol. -/
  | symbol (name : String)
  /-- A type. -/
  | type (type : TypeId)
  /-- A sequence of attributes. -/
  | list (items : List Attribute)
  /-- Bytes that only the owning dialect can read. -/
  | payload (dialect : String) (bytes : List UInt8)

namespace Attribute

/-- The kind of value, which also stands in for a value that cannot be rendered. -/
def tag : Attribute → String
  | unit => "unit"
  | bool _ => "bool"
  | int _ => "int"
  | float _ => "float"
  | string _ => "string"
  | symbol _ => "symbol"
  | type _ => "type"
  | list _ => "list"
  | payload dialect _ => "#" ++ dialect ++ ".opaque"

mutual

/-- Compares two attributes by kind and content, floats by their bits. -/
def same : Attribute → Attribute → Bool
  | unit, unit => true
  | bool left, bool right => left == right
  | int left, int right => left == right
  | float left, float right => left == right
  | string left, string right => left == right
  | symbol left, symbol right => left == right
  | type left, type right => left == right
  | list left, list right => sameItems left right
  | payload leftDialect left, payload rightDialect right =>
    leftDialect == rightDialect && left == right
  | _, _ => false
termination_by structural left => left

/-- Compares two sequences item by item. -/
def sameItems : List Attribute → List Attribute → Bool
  | [], [] => true
  | left :: lefts, right :: rights => same left right && sameItems lefts rights
  | _, _ => false
termination_by structural lefts => lefts

end

mutual

/-- Comparison finds exactly the equal attributes. -/
theorem same_iff : ∀ left right : Attribute, same left right = true ↔ left = right
  -- Only attributes of one kind are alike, and of those it is what they hold that is compared.
  | unit, right => by cases right <;> simp [same]
  | bool _, right => by cases right <;> simp [same]
  | int _, right => by cases right <;> simp [same]
  | float _, right => by cases right <;> simp [same]
  | string _, right => by cases right <;> simp [same]
  | symbol _, right => by cases right <;> simp [same]
  | type _, right => by cases right <;> simp [same]
  | list items, right => by cases right <;> simp [same, sameItems_iff items]
  | payload _ _, right => by cases right <;> simp [same]

/-- Comparison finds exactly the equal sequences. -/
theorem sameItems_iff :
    ∀ lefts rights : List Attribute, sameItems lefts rights = true ↔ lefts = rights
  | [], rights => by cases rights <;> simp [sameItems]
  | left :: lefts, rights => by
    cases rights <;> simp [sameItems, same_iff left, sameItems_iff lefts]

end

instance : DecidableEq Attribute := fun left right =>
  decidable_of_iff _ (same_iff left right)

end Attribute

end NestedIR
