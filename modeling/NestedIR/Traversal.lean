import NestedIR.Context.Containment
import NestedIR.Dialect.Kind

/-! Walks visit the operations below an entity in order, and let the visitor steer them. -/

namespace NestedIR

/-- How a walk goes on after an operation. -/
inductive Advice (β : Type) where
  /-- Go on with what the operation contains. -/
  | descend
  /-- Go on with what follows the operation and its contents. -/
  | skip
  /-- End the walk with an answer. -/
  | stop (answer : β)

/-- An action on an operation that keeps a state and advises the walk. -/
abbrev Visitor (σ β : Type) := OpId → StateT σ (Except Fault) (Advice β)

/-- What a visitor makes of an entity. A walk always goes on into regions and blocks. -/
def Visitor.advise {σ β : Type} (visit : Visitor σ β) : Entity → StateT σ (Except Fault) (Advice β)
  | .op op => visit op
  | .region _ => return .descend
  | .block _ => return .descend

namespace Context

/-- Walks an entity down to a depth. The answer is that of the visitor that stopped the walk. -/
def walkWithin {σ β : Type} (ctx : Context) (visit : Visitor σ β) :
    Nat → Entity → StateT σ (Except Fault) (Option β)
  | 0, entity => throw (.containmentCycle entity)
  | depth + 1, entity => do
    match ← visit.advise entity with
    | .stop answer => return some answer
    | .skip => return none
    | .descend => (← ctx.members entity).findSomeM? (ctx.walkWithin visit depth)

/-- Walks an entity, each operation before what it contains. -/
def walk {σ β : Type} (ctx : Context) (visit : Visitor σ β) (entity : Entity) :
    StateT σ (Except Fault) (Option β) :=
  ctx.walkWithin visit ctx.depthBound entity

/-- Keeps the operations of a kind, and passes over what they contain. -/
def collector (ctx : Context) (kind : OpKind) : Visitor (List OpId) Empty := fun op => do
  if (← ctx.op op).isKind kind then
    modify (· ++ [op])
    return .skip
  else return .descend

/-- The outermost operations of a kind strictly below an operation, in order. -/
def outermost (ctx : Context) (kind : OpKind) (op : OpId) : Except Fault (List OpId) := do
  let regions ← ctx.members (.op op)
  let (_, found) ← (regions.findSomeM? (ctx.walk (ctx.collector kind))).run []
  return found

end Context

end NestedIR
