import NestedIR.Context.Basic

/-! Kinds of operations are told apart by name alone, and the built-in dialects define some. -/

namespace NestedIR

/-- A kind of operation. Any dialect may define kinds, each by a name of its own. -/
structure OpKind where
  /-- The name that makes an operation one of this kind. -/
  opName : OpName
deriving DecidableEq

namespace OpKind

/-- The top-level container. -/
def module : OpKind := ⟨.bare "module"⟩

/-- A function definition. -/
def func : OpKind := ⟨.bare "func"⟩

/-- The end of a function. -/
def ret : OpKind := ⟨.bare "return"⟩

/-- A constant value. -/
def constant : OpKind := ⟨.qualified "arith" "constant"⟩

/-- Integer addition. -/
def addi : OpKind := ⟨.qualified "arith" "addi"⟩

/-- A branch to one block. -/
def br : OpKind := ⟨.qualified "cf" "br"⟩

/-- A branch to one of two blocks. -/
def condBr : OpKind := ⟨.qualified "cf" "cond_br"⟩

/-- An operation without a fixed structure. -/
def testOp : OpKind := ⟨.qualified "test" "op"⟩

/-- The kinds that the built-in dialects define. -/
def builtIn : List OpKind := [module, func, ret, constant, addi, br, condBr, testOp]

/-- The name of a kind as it is written. -/
def fullName (kind : OpKind) : String := kind.opName.toText

end OpKind

/-- An operation is not of the kind that was asked for. -/
structure WrongKind where
  /-- The kind that was asked for. -/
  expected : OpKind
  /-- The name that the operation has. -/
  found : OpName

/-- What a reader is told about an operation of another kind. -/
def WrongKind.message (wrong : WrongKind) : String :=
  s!"expected `{wrong.expected.fullName}`, found `{wrong.found}`"

namespace Operation

/-- Whether an operation is of a kind. -/
def isKind (data : Operation) (kind : OpKind) : Bool := data.name = kind.opName

/-- Accepts an operation of a kind, and names what is wrong with any other. -/
def expectKind (data : Operation) (kind : OpKind) : Except WrongKind Unit :=
  if data.isKind kind then .ok () else .error ⟨kind, data.name⟩

end Operation

end NestedIR
