import NestedIR.Proofs.Context.Definitions
import NestedIR.Proofs.Context.UseChains
import NestedIR.Proofs.Pass.Folding

/-! Constants and additions have a meaning that other values take part in only as they are given. -/

namespace NestedIR

/-- What a value is computed from. -/
inductive Origin where
  /-- A constant number. -/
  | constant (number : Int)
  /-- The sum of two values, in a width. -/
  | sum (lhs rhs : ValueId) (width : Nat)
  /-- Nothing, because the value is given. -/
  | free

/--
What the result of an operation at a position is computed from.

Only the first result of an integer constant is a number, and only an addition with two operands and
one result of an integer type is a sum.
-/
def Operation.origin (data : Operation) (index : Nat) (width? : Option Nat) : Origin :=
  if data.isKind .constant then
    match index, data.constantInt? with
    | 0, some number => .constant number.toInt
    | _, _ => .free
  else if data.isKind .addi then
    match data.addends?, data.soleResult?, width? with
    | some (lhs, rhs), some _, some width => .sum lhs rhs width
    | _, _, _ => .free
  else .free

/-- The first result of an integer constant is its number. -/
theorem Operation.origin_of_constant {data : Operation} {number : Int64} (width? : Option Nat)
    (kind : data.isKind .constant) (named : data.constantInt? = some number) :
    data.origin 0 width? = .constant number.toInt := by
  simp [Operation.origin, kind, named]

/-- The one result of an addition of two values is their sum. -/
theorem Operation.origin_of_addition {data : Operation} {lhs rhs result : ValueId} {width : Nat}
    (index : Nat) (kind : data.isKind .addi) (addends : data.addends? = some (lhs, rhs))
    (sole : data.soleResult? = some result) :
    data.origin index (some width) = .sum lhs rhs width := by
  -- An addition is told apart from a constant by its name.
  have other : data.isKind .constant = false := by
    simp only [Operation.isKind, decide_eq_true_eq] at kind
    simp only [Operation.isKind, kind]
    decide
  simp [Operation.origin, other, kind, addends, sole]

namespace Origin

/-- An origin that differs from another in the values that it reads, and only as they may move. -/
inductive Follows (moved : ValueId → ValueId → Prop) : Origin → Origin → Prop where
  /-- A constant is the same number. -/
  | constant (number : Int) : Follows moved (.constant number) (.constant number)
  /-- A sum reads the values that its sides have moved to. -/
  | sum {lhs lhs' rhs rhs' : ValueId} (left : moved lhs lhs') (right : moved rhs rhs')
    (width : Nat) : Follows moved (.sum lhs rhs width) (.sum lhs' rhs' width)
  /-- A given value stays given. -/
  | free : Follows moved .free .free

/-- What moved one way may be moved back. -/
theorem Follows.flip {moved : ValueId → ValueId → Prop} {origin origin' : Origin}
    (follows : Follows moved origin origin') :
    Follows (fun new old => moved old new) origin' origin := by
  -- An origin is followed by one of the same form, whose operands have moved.
  cases follows with
  | constant number => exact .constant number
  | sum left right width =>
    refine .sum ?_ ?_ width
    · exact left
    · exact right
  | free => exact .free

/-- Every origin follows itself where nothing moves. -/
theorem Follows.refl (origin : Origin) : Follows Eq origin origin := by
  cases origin with
  | constant number => exact .constant number
  | sum lhs rhs width => exact .sum rfl rfl width
  | free => exact .free

/-- An operation whose operands move has results whose origins follow. -/
theorem follows_of_operands {moved : ValueId → ValueId → Prop} {data : Operation}
    {operands : List ValueId} (read : List.Forall₂ moved data.operands operands)
    (owner : Option BlockId) (index : Nat) (width? : Option Nat) :
    Follows moved (data.origin index width?)
      ({ data with operands, parentBlock := owner : Operation }.origin index width?) := by
  -- Moving operands changes neither the kind nor the number of a constant.
  show Follows moved _ (if data.isKind .constant then
    match index, data.constantInt? with
    | 0, some number => .constant number.toInt
    | _, _ => .free
  else if data.isKind .addi then
    match ({ data with operands, parentBlock := owner : Operation }.addends?), data.soleResult?,
      width? with
    | some (lhs, rhs), some _, some width => .sum lhs rhs width
    | _, _, _ => .free
  else .free)
  unfold Operation.origin
  split
  · split
    · exact .constant _
    · exact .free
  · split
    · -- Both additions have two operands, or neither has.
      unfold Operation.addends?
      generalize data.operands = old at read
      rcases read with _ | ⟨left, _ | ⟨right, _ | ⟨_, _⟩⟩⟩
      · exact .free
      · exact .free
      · cases data.soleResult? with
        | none => exact .free
        | some result =>
          cases width? with
          | none => exact .free
          | some width => exact .sum left right width
      · exact .free
    · exact .free

end Origin

namespace Context

variable {ctx ctx' mid : Context}

/-- What a value is computed from. A value that is not known is given. -/
def origin (ctx : Context) (value : ValueId) : Origin :=
  match ctx.value value with
  | .ok ⟨.result op index, type⟩ =>
    match ctx.op op with
    | .ok data => data.origin index (ctx.types.integerWidth? type)
    | .error _ => .free
  | _ => .free

/-- A result is computed as its operation says. -/
theorem origin_of_result {value : ValueId} {op : OpId} {index : Nat} {type : TypeId}
    {data : Operation} (known : ctx.value value = .ok ⟨.result op index, type⟩)
    (found : ctx.op op = .ok data) :
    ctx.origin value = data.origin index (ctx.types.integerWidth? type) := by
  simp only [origin, known, found]

/-- Where values and types stay and operands move, the origins of known values follow. -/
theorem follows_of_moved {moved : ValueId → ValueId → Prop} (defined : ctx.ResultsDefined)
    (types : ctx'.types = ctx.types)
    (moves : ∀ op data, ctx.op op = .ok data → ∃ operands owner,
      ctx'.op op = .ok { data with operands, parentBlock := owner } ∧
        List.Forall₂ moved data.operands operands)
    {value : ValueId} {data : Value} (known : ctx.value value = .ok data)
    (known' : ctx'.value value = .ok data) :
    Origin.Follows moved (ctx.origin value) (ctx'.origin value) := by
  obtain ⟨definition, type⟩ := data
  cases definition with
  | argument block index =>
    simp only [origin, known, known']
    exact .free
  | result op index =>
    -- The operation that defines a known value is known.
    obtain ⟨definer, found, -⟩ := (defined value op index).mp ⟨_, known, rfl⟩
    obtain ⟨operands, owner, found', read⟩ := moves op definer found
    rw [origin_of_result known found, origin_of_result known' found', types]
    exact Origin.follows_of_operands read owner index _

/--
The numbers that a value may have, where the given values are as in an environment.

Constants are exact, and a sum is the signed form of the exact sum of its sides. A value that needs
itself has no number.
-/
inductive Evaluates (ctx : Context) (env : ValueId → Int) : ValueId → Int → Prop where
  /-- A constant has its own number. -/
  | constant {value : ValueId} {number : Int} (origin : ctx.origin value = .constant number) :
    Evaluates ctx env value number
  /-- A sum has the signed form of the exact sum. -/
  | sum {value lhs rhs : ValueId} {width : Nat} {left right number : Int}
    (origin : ctx.origin value = .sum lhs rhs width) (lhsEvaluates : Evaluates ctx env lhs left)
    (rhsEvaluates : Evaluates ctx env rhs right)
    (form : SignedForm width (left + right) number) : Evaluates ctx env value number
  /-- A given value has the number that the environment gives it. -/
  | free {value : ValueId} (origin : ctx.origin value = .free) :
    Evaluates ctx env value (env value)

/-- A constant has no other number than its own. -/
theorem evaluates_constant_iff {env : ValueId → Int} {value : ValueId} {number other : Int}
    (constant : ctx.origin value = .constant number) :
    ctx.Evaluates env value other ↔ other = number := by
  -- No other rule applies to a constant.
  constructor
  · intro evaluates
    cases evaluates with
    | constant origin =>
      rw [constant] at origin
      cases origin
      rfl
    | sum origin _ _ _ =>
      rw [constant] at origin
      cases origin
    | free origin =>
      rw [constant] at origin
      cases origin
  · intro same
    exact same ▸ .constant constant

/-- A sum of constants has one number. -/
theorem evaluates_sum_iff {env : ValueId → Int} {value lhs rhs : ValueId} {width : Nat}
    {left right number other : Int} (sum : ctx.origin value = .sum lhs rhs width)
    (lhsConstant : ctx.origin lhs = .constant left)
    (rhsConstant : ctx.origin rhs = .constant right) (positive : 1 ≤ width)
    (form : SignedForm width (left + right) number) :
    ctx.Evaluates env value other ↔ other = number := by
  -- Both sides have one number each, and their exact sum has one signed form.
  constructor
  · intro evaluates
    cases evaluates with
    | constant origin =>
      rw [sum] at origin
      cases origin
    | sum origin lhsEvaluates rhsEvaluates otherForm =>
      rw [sum] at origin
      cases origin
      cases (evaluates_constant_iff lhsConstant).mp lhsEvaluates
      cases (evaluates_constant_iff rhsConstant).mp rhsEvaluates
      rw [(signedForm_iff positive).mp form, (signedForm_iff positive).mp otherForm]
    | free origin =>
      rw [sum] at origin
      cases origin
  · intro same
    exact same ▸ .sum sum (.constant lhsConstant) (.constant rhsConstant) form

/--
Programs agree on values that move from one to the other.

A value that stays has an origin that follows. A value that is replaced has one number in all
environments, and so has the value that replaces it.
-/
def Agrees (moved : ValueId → ValueId → Prop) (ctx ctx' : Context) : Prop :=
  ∀ old new, moved old new →
    (new = old ∧ Origin.Follows moved (ctx.origin old) (ctx'.origin new)) ∨
      ∃ exact, ∀ env number, (ctx.Evaluates env old number ↔ number = exact) ∧
        (ctx'.Evaluates env new number ↔ number = exact)

namespace Agrees

variable {moved : ValueId → ValueId → Prop}

/-- Programs agree on values that move back as well. -/
theorem flip (agrees : Agrees moved ctx ctx') :
    Agrees (fun new old => moved old new) ctx' ctx := by
  intro new old move
  rcases agrees old new move with ⟨rfl, follows⟩ | ⟨exact, both⟩
  · exact .inl ⟨rfl, follows.flip⟩
  · exact .inr ⟨exact, fun env number => (both env number).symm⟩

/-- A value that moves has after it every number that it had before. -/
theorem evaluates (agrees : Agrees moved ctx ctx') {env : ValueId → Int} {old new : ValueId}
    {number : Int} (move : moved old new) (before : ctx.Evaluates env old number) :
    ctx'.Evaluates env new number := by
  -- The derivation is followed, down to where a value is replaced.
  induction before generalizing new with
  | constant origin =>
    rcases agrees _ new move with ⟨rfl, follows⟩ | ⟨exact, both⟩
    · rw [origin] at follows
      generalize after : ctx'.origin new = origin' at follows
      cases follows
      exact .constant after
    · exact (both env _).2.mpr ((both env _).1.mp (.constant origin))
  | sum origin lhsEvaluates rhsEvaluates form lhsFollows rhsFollows =>
    rcases agrees _ new move with ⟨rfl, follows⟩ | ⟨exact, both⟩
    · rw [origin] at follows
      generalize after : ctx'.origin new = origin' at follows
      cases follows with
      | sum left right width => exact .sum after (lhsFollows left) (rhsFollows right) form
    · exact (both env _).2.mpr ((both env _).1.mp (.sum origin lhsEvaluates rhsEvaluates form))
  | free origin =>
    rcases agrees _ new move with ⟨rfl, follows⟩ | ⟨exact, both⟩
    · rw [origin] at follows
      generalize after : ctx'.origin new = origin' at follows
      cases follows
      exact .free after
    · exact (both env _).2.mpr ((both env _).1.mp (.free origin))

/-- A value that moves has the same numbers after it as before. -/
theorem evaluates_iff (agrees : Agrees moved ctx ctx') {env : ValueId → Int} {old new : ValueId}
    {number : Int} (move : moved old new) :
    ctx'.Evaluates env new number ↔ ctx.Evaluates env old number :=
  ⟨fun after => agrees.flip.evaluates move after, fun before => agrees.evaluates move before⟩

end Agrees

/-- Every operand slot is still there, and its value has the same numbers as the one before. -/
def KeepsMeaning (ctx ctx' : Context) : Prop :=
  ∀ slot old, ctx.operand? slot = some old →
    ∃ new, ctx'.operand? slot = some new ∧
      ∀ env number, ctx'.Evaluates env new number ↔ ctx.Evaluates env old number

namespace KeepsMeaning

/-- A program keeps its own meaning. -/
theorem refl (ctx : Context) : KeepsMeaning ctx ctx :=
  fun _ old held => ⟨old, held, fun _ _ => Iff.rfl⟩

/-- What keeps the meaning in two steps keeps it altogether. -/
theorem trans (first : KeepsMeaning ctx mid) (second : KeepsMeaning mid ctx') :
    KeepsMeaning ctx ctx' := by
  -- The value in the middle has the numbers of both others.
  intro slot old held
  obtain ⟨between, heldBetween, same⟩ := first slot old held
  obtain ⟨new, heldNew, same'⟩ := second slot between heldBetween
  exact ⟨new, heldNew, fun env number => (same' env number).trans (same env number)⟩

/-- Meaning is kept where programs agree on what the operands have moved to. -/
theorem of_agrees {moved : ValueId → ValueId → Prop} (agrees : Agrees moved ctx ctx')
    (read : ∀ op data, ctx.op op = .ok data → ∃ data', ctx'.op op = .ok data' ∧
      List.Forall₂ moved data.operands data'.operands) : KeepsMeaning ctx ctx' := by
  -- The slot is still there because no operation changes the number of its operands.
  intro slot old held
  obtain ⟨data, found, here⟩ := operand?_eq_some_iff.mp held
  obtain ⟨data', found', moves⟩ := read slot.user data found
  obtain ⟨length, each⟩ := List.forall₂_iff_get.mp moves
  obtain ⟨inside, rfl⟩ := List.getElem?_eq_some_iff.mp here
  have inside' : slot.index < data'.operands.length := length ▸ inside
  refine ⟨data'.operands[slot.index], operand?_eq_some_iff.mpr ⟨data', found', ?_⟩, ?_⟩
  · exact List.getElem?_eq_getElem inside'
  · exact fun env number => agrees.evaluates_iff (each slot.index inside inside')

end KeepsMeaning

end Context

end NestedIR
