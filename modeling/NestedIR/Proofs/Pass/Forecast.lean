import NestedIR.Proofs.Pass.Operands
import NestedIR.Proofs.Pass.Turns

/-! Which visits erase what below an operation can be told before the first of them. -/

namespace NestedIR

open Relation

namespace Context

variable {ctx : Context} {root op : OpId} {late : OpId → Prop}

/-- An addition that can be folded as far as its results go, whatever its operands are. -/
def IsIntSum (ctx : Context) (data : Operation) : Prop :=
  data.isKind .addi ∧ data.operands.length = 2 ∧ ∃ result value width, data.results = [result] ∧
    ctx.value result = .ok value ∧ ctx.types.integerWidth? value.type = some width

/--
A slot comes to hold an integer constant in a visit below an operation.

It holds one already, or the result of a sum whose own slots come to hold integer constants, and
which hands over this slot when it is folded.
-/
inductive ComesToConstant (ctx : Context) (root : OpId) : Use → Prop where
  /-- The slot holds an integer constant. -/
  | constant {slot : Use} {value : ValueId} (held : ctx.operand? slot = some value)
    (constant : ctx.IsIntConstant value) : ComesToConstant ctx root slot
  /-- The slot holds the result of a sum that is folded. -/
  | sum {slot : Use} {value : ValueId} {known : Value} {definer : OpId} {data : Operation}
    (listed : slot ∈ ctx.usesOf value) (foundValue : ctx.value value = .ok known)
    (defines : known.definition = .result definer 0)
    (below : TransGen ctx.Contains (.op root) (.op definer)) (found : ctx.op definer = .ok data)
    (isSum : ctx.IsIntSum data) (left : ComesToConstant ctx root ⟨definer, 0⟩)
    (right : ComesToConstant ctx root ⟨definer, 1⟩) : ComesToConstant ctx root slot

/-- A visit below an operation folds a sum whose slots have come to hold integer constants. -/
def Folds (ctx : Context) (root op : OpId) : Prop :=
  TransGen ctx.Contains (.op root) (.op op) ∧ ∃ data, ctx.op op = .ok data ∧ ctx.IsIntSum data ∧
    ctx.ComesToConstant root ⟨op, 0⟩ ∧ ctx.ComesToConstant root ⟨op, 1⟩

/-- A pure operation of whose results only what has left is a user. -/
def Unused (ctx : Context) (left : OpId → Prop) (op : OpId) : Prop :=
  ∃ data, ctx.op op = .ok data ∧ data.isPure = true ∧
    ∀ value ∈ data.results, ∀ use ∈ ctx.usesOf value, left use.user

/--
An operation, or the constant that it is folded into, is erased within a number of visits.

A pure operation is erased in the visit after the one that its last user leaves in, as that user
has its turn later. What is late is not erased in the first visit. The users are erased themselves,
or folded in the first visit. If an operation around it leaves before, it is visited no more.
-/
def ErasedBy (ctx : Context) (root : OpId) (late : OpId → Prop) : Nat → OpId → Prop
  | 0, _ => False
  | visits + 1, op =>
    let leaves (op : OpId) := ErasedBy ctx root late visits op ∨ 0 < visits ∧ ctx.Folds root op
    ErasedBy ctx root late visits op ∨
      TransGen ctx.Contains (.op root) (.op op) ∧ (late op → 0 < visits) ∧
        (∀ outer, TransGen ctx.Contains (.op outer) (.op op) → ¬ leaves outer) ∧
        ctx.Unused leaves op

/-- An operation is erased within a number of visits, or folded in the first of them. -/
def LeavesBy (ctx : Context) (root : OpId) (late : OpId → Prop) (visits : Nat) (op : OpId) : Prop :=
  ctx.ErasedBy root late visits op ∨ 0 < visits ∧ ctx.Folds root op

/-- Something below an operation is erased in the visit after a number of visits. -/
def ErasesAfter (ctx : Context) (root : OpId) (late : OpId → Prop) (visits : Nat) : Prop :=
  ∃ op, ctx.ErasedBy root late (visits + 1) op ∧ ¬ ctx.ErasedBy root late visits op

/-- Something below an operation is erased only after a number of visits. -/
def LastsBeyond (ctx : Context) (root : OpId) (visits : Nat) : Prop :=
  ctx.ErasesAfter root (ctx.Folds root) visits

/-- A chain lists an operation as a user of a result of another one. -/
def Feeds (ctx : Context) (definer user : OpId) : Prop :=
  ∃ data, ctx.op definer = .ok data ∧
    ∃ value ∈ data.results, ∃ use ∈ ctx.usesOf value, use.user = user

/-- Pure operations below another one, each of which feeds the next one. -/
structure PureChain (ctx : Context) (root : OpId) (ops : List OpId) : Prop where
  /-- The operations are below the root and have no side effects. -/
  pure : ∀ op ∈ ops, TransGen ctx.Contains (.op root) (.op op) ∧
    ∃ data, ctx.op op = .ok data ∧ data.isPure = true
  /-- Each of them feeds the next one. -/
  feeds : ops.IsChain ctx.Feeds

/-- What is erased in the last of some visits is pure and below, and all its users left before. -/
theorem erasedBy_succ {visits : Nat} : ctx.ErasedBy root late (visits + 1) op ↔
    ctx.ErasedBy root late visits op ∨
      TransGen ctx.Contains (.op root) (.op op) ∧ (late op → 0 < visits) ∧
        (∀ outer, TransGen ctx.Contains (.op outer) (.op op) →
          ¬ ctx.LeavesBy root late visits outer) ∧
        ctx.Unused (ctx.LeavesBy root late visits) op :=
  .rfl

/-- What is erased within some visits is erased within more. -/
theorem ErasedBy.mono {visits more : Nat} (erased : ctx.ErasedBy root late visits op)
    (le : visits ≤ more) : ctx.ErasedBy root late more op := by
  induction le with
  | refl => exact erased
  | step _ ih => exact .inl ih

/-- What leaves within some visits leaves within more. -/
theorem LeavesBy.mono {visits more : Nat} (leaves : ctx.LeavesBy root late visits op)
    (le : visits ≤ more) : ctx.LeavesBy root late more op :=
  leaves.imp (·.mono le) fun folded => ⟨Nat.lt_of_lt_of_le folded.1 le, folded.2⟩

/-- Only what is below the root is erased. -/
theorem ErasedBy.below {visits : Nat} (erased : ctx.ErasedBy root late visits op) :
    TransGen ctx.Contains (.op root) (.op op) := by
  induction visits with
  | zero => cases erased
  | succ visits ih =>
    rcases erasedBy_succ.mp erased with before | ⟨below, -⟩
    · exact ih before
    · exact below

/-- Only what is below the root leaves. -/
theorem LeavesBy.below {visits : Nat} (leaves : ctx.LeavesBy root late visits op) :
    TransGen ctx.Contains (.op root) (.op op) :=
  leaves.elim ErasedBy.below fun folded => folded.2.1

/-- A sum has no side effects. -/
theorem IsIntSum.isPure {data : Operation} (isSum : ctx.IsIntSum data) : data.isPure = true := by
  simp [Operation.isPure, isSum.1]

/-- No constant is a sum. -/
theorem IsIntSum.not_constant {data : Operation} (isSum : ctx.IsIntSum data) :
    ¬ data.isKind .constant := by
  have named : data.name = OpKind.addi.opName := by simpa [Operation.isKind] using isSum.1
  simp only [Operation.isKind, named]
  decide

/-- A slot in which the result of a folded sum is used comes to hold an integer constant. -/
theorem ComesToConstant.of_folds {slot : Use} {value : ValueId} {known : Value} {index : Nat}
    (folds : ctx.Folds root op) (defined : ctx.ResultsDefined) (listed : slot ∈ ctx.usesOf value)
    (foundValue : ctx.value value = .ok known) (defines : known.definition = .result op index) :
    ctx.ComesToConstant root slot := by
  obtain ⟨below, data, found, isSum, left, right⟩ := folds
  -- A sum has only one result.
  obtain ⟨data', found', here⟩ := (defined value op index).mp ⟨known, foundValue, defines⟩
  cases found.symm.trans found'
  obtain ⟨-, -, result, -, -, results, -⟩ := id isSum
  rw [results, List.getElem?_singleton] at here
  split at here
  · rename_i first
    subst first
    exact .sum listed foundValue defines below found isSum left right
  · cases here

/-- What leaves is pure and below the root. -/
theorem LeavesBy.pureChain {visits : Nat} (leaves : ctx.LeavesBy root late visits op) :
    ctx.PureChain root [op] := by
  -- An operation is erased for being pure, and folded for being an addition, which is pure too.
  have isPure : ∃ data, ctx.op op = .ok data ∧ data.isPure = true := by
    rcases leaves with erased | ⟨-, -, data, found, isSum, -⟩
    · induction visits with
      | zero => cases erased
      | succ visits ih =>
        rcases erasedBy_succ.mp erased with before | ⟨-, -, -, data, found, isPure, -⟩
        · exact ih before
        · exact ⟨data, found, isPure⟩
    · exact ⟨data, found, isSum.isPure⟩
  exact ⟨by simpa using ⟨leaves.below, isPure⟩, .singleton op⟩

/-- What feeds the first operation of a chain extends it. -/
theorem PureChain.cons {user : OpId} {users : List OpId} (feeds : ctx.Feeds op user)
    (first : ctx.PureChain root [op]) (chain : ctx.PureChain root (user :: users)) :
    ctx.PureChain root (op :: user :: users) :=
  ⟨List.forall_mem_cons.mpr ⟨first.pure op (by simp), chain.pure⟩,
    List.isChain_cons_cons.mpr ⟨feeds, chain.feeds⟩⟩

/-- A chain below an operation is one below what the operation is below. -/
theorem PureChain.of_below {ops : List OpId} (chain : ctx.PureChain op ops)
    (below : TransGen ctx.Contains (.op root) (.op op)) : ctx.PureChain root ops :=
  ⟨fun member listed => (chain.pure member listed).imp_left below.trans, chain.feeds⟩

/-- What is erased in some visit, and not before, has a user that leaves only just before it. -/
theorem exists_lastUser {visits : Nat} (onTime : late op → 0 < visits)
    (erased : ctx.ErasedBy root late (visits + 2) op)
    (stays : ¬ ctx.ErasedBy root late (visits + 1) op) :
    ∃ user, ctx.Feeds op user ∧ ctx.LeavesBy root late (visits + 1) user ∧
      ¬ ctx.LeavesBy root late visits user := by
  by_contra none
  obtain ⟨below, -, outside, data, found, isPure, users⟩ :=
    (erasedBy_succ.mp erased).resolve_left stays
  -- If all users had left by then, the operation would have been erased one visit earlier.
  refine stays (erasedBy_succ.mpr (.inr ⟨below, onTime, ?_, data, found, isPure, ?_⟩))
  · exact fun outer inside leaves => outside outer inside (leaves.mono (Nat.le_succ visits))
  · intro value inResults use listed
    by_contra remains
    exact none ⟨use.user, ⟨data, found, value, inResults, use, listed, rfl⟩,
      users value inResults use listed, remains⟩

/-- What leaves in some visit, and not before, begins a chain of as many operations. -/
theorem exists_pureChain_of_leavesBy {visits : Nat}
    (leaves : ctx.LeavesBy root (ctx.Folds root) (visits + 1) op)
    (stays : ¬ ctx.LeavesBy root (ctx.Folds root) visits op) :
    ∃ users, users.length = visits ∧ ctx.PureChain root (op :: users) := by
  -- What is not folded has a user that leaves one visit earlier.
  induction visits generalizing op with
  | zero => exact ⟨[], rfl, leaves.pureChain⟩
  | succ visits ih =>
    obtain ⟨notErased, notFolded⟩ := not_or.mp stays
    have unfolded : ¬ ctx.Folds root op := fun folds => notFolded ⟨visits.succ_pos, folds⟩
    have erased := leaves.resolve_right fun folded => unfolded folded.2
    obtain ⟨user, feeds, userLeaves, userStays⟩ :=
      exists_lastUser (fun folds => absurd folds unfolded) erased notErased
    obtain ⟨users, length, chain⟩ := ih userLeaves userStays
    exact ⟨user :: users, by simp [length], .cons feeds leaves.pureChain chain⟩

/-- What lasts beyond two visits or more is a chain with one more operation than visits. -/
theorem LastsBeyond.exists_pureChain {visits : Nat} (lasts : ctx.LastsBeyond root (visits + 2)) :
    ∃ ops, ops.length = visits + 3 ∧ ctx.PureChain root ops := by
  obtain ⟨op, erased, stays⟩ := lasts
  -- The constant that a sum is folded into is not late in the second visit any more.
  obtain ⟨user, feeds, userLeaves, userStays⟩ :=
    exists_lastUser (fun _ => Nat.succ_pos visits) erased stays
  obtain ⟨users, length, chain⟩ := exists_pureChain_of_leavesBy userLeaves userStays
  have first : ctx.PureChain root [op] := LeavesBy.pureChain (.inl erased)
  exact ⟨op :: user :: users, by simp [length], .cons feeds first chain⟩

/-- Lateness only matters for what is dead below the root. -/
theorem erasedBy_congr {late' : OpId → Prop} (same : ∀ op data,
      TransGen ctx.Contains (.op root) (.op op) → ctx.op op = .ok data → ctx.isDead data = true →
        (late op ↔ late' op)) {visits : Nat} :
    ctx.ErasedBy root late visits op ↔ ctx.ErasedBy root late' visits op := by
  induction visits generalizing op with
  | zero => rfl
  | succ visits ih =>
    have leaves : ctx.LeavesBy root late visits = ctx.LeavesBy root late' visits :=
      funext fun _ => propext (or_congr_left ih)
    simp only [erasedBy_succ, leaves]
    refine or_congr ih (and_congr_right fun below => and_congr_left fun both => ?_)
    obtain ⟨-, data, found, isPure, users⟩ := both
    rcases Nat.eq_zero_or_pos visits with rfl | some_
    · -- In the first visit, nothing has left yet, so that what is erased has no uses at all.
      have dead : ctx.isDead data = true := by
        refine isDead_iff_usesOf.mpr ⟨isPure, fun value inResults => ?_⟩
        refine List.eq_nil_iff_forall_not_mem.mpr fun use listed => ?_
        rcases users value inResults use listed with erased | ⟨impossible, -⟩
        · exact erased
        · exact absurd impossible (Nat.lt_irrefl 0)
      rw [same op data below found dead]
    · simp [some_]

/-- What is erased after some visits depends on lateness only for what is dead below the root. -/
theorem erasesAfter_congr {late' : OpId → Prop} (same : ∀ op data,
      TransGen ctx.Contains (.op root) (.op op) → ctx.op op = .ok data → ctx.isDead data = true →
        (late op ↔ late' op)) {visits : Nat} :
    ctx.ErasesAfter root late visits ↔ ctx.ErasesAfter root late' visits :=
  exists_congr fun _ => and_congr (erasedBy_congr same) (not_congr (erasedBy_congr same))

/-- Where everything is late and nothing is folded, a visit passes before anything happens. -/
theorem erasedBy_succ_of_late (all : ∀ op, TransGen ctx.Contains (.op root) (.op op) → late op)
    (none : ∀ op, ¬ ctx.Folds root op) {visits : Nat} :
    ctx.ErasedBy root late (visits + 1) op ↔ ctx.ErasedBy root (ctx.Folds root) visits op := by
  -- In the first visit all is late, and each later one does what the one before would have done.
  induction visits generalizing op with
  | zero =>
    refine iff_of_false (fun erased => ?_) id
    rcases erasedBy_succ.mp erased with before | ⟨below, later, -⟩
    · exact before
    · exact absurd (later (all op below)) (Nat.lt_irrefl 0)
  | succ visits ih =>
    have leaves : ctx.LeavesBy root late (visits + 1) = ctx.LeavesBy root (ctx.Folds root) visits :=
      funext fun op => propext (or_congr ih (by simp [none op]))
    refine erasedBy_succ.trans (Iff.trans (or_congr ih ?_) erasedBy_succ.symm)
    simp only [leaves, none op, Nat.zero_lt_succ, implies_true, false_implies]

/-- A value with a number is an integer constant. -/
theorem isIntConstant_of_constantInt {value : ValueId} {number : Int64}
    (named : ctx.constantInt? value = .ok (some number)) : ctx.IsIntConstant value := by
  -- The number is read off the operation that defines the value, which is of the kind of constants.
  obtain ⟨known, foundValue, rest⟩ := bind_eq_ok.mp named
  split at rest
  · rename_i definer defines
    obtain ⟨data, found, made⟩ := bind_eq_ok.mp rest
    by_cases kind : data.isKind .constant
    · rw [if_pos kind] at made
      exact ⟨known, definer, data, number, foundValue, defines, found, kind, Except.ok.inj made⟩
    · rw [if_neg kind] at made
      cases made
  · cases rest

/-- An operation below the root that has a sum is folded. -/
theorem folds_of_sum (below : TransGen ctx.Contains (.op root) (.op op)) {data : Operation}
    {sum : Sum} (found : ctx.op op = .ok data) (computed : ctx.sum? data = .ok (some sum)) :
    ctx.Folds root op := by
  -- There is a sum only for two operands that are constants already.
  obtain ⟨kind, lhs, rhs, left, right, value, width, addends, sole, isLeft, isRight, result, -,
    typed, -⟩ := sum?_eq_some computed
  have operands := Operation.addends?_eq_some.mp addends
  refine ⟨below, data, found, ⟨kind, by simp [operands], sum.result, value, width,
    Operation.soleResult?_eq_some.mp sole, result, typed⟩, ?_, ?_⟩
  · exact .constant (operand?_eq_some_iff.mpr ⟨data, found, by simp [operands]⟩)
      (isIntConstant_of_constantInt isLeft)
  · exact .constant (operand?_eq_some_iff.mpr ⟨data, found, by simp [operands]⟩)
      (isIntConstant_of_constantInt isRight)

/-- A slot holds an integer constant. -/
def HoldsConstant (ctx : Context) (slot : Use) : Prop :=
  ∃ value, ctx.operand? slot = some value ∧ ctx.IsIntConstant value

/-- A sum whose slots hold integer constants can be folded. -/
theorem foldable_of_holdsConstant {data : Operation} (found : ctx.op op = .ok data)
    (isSum : ctx.IsIntSum data) (left : ctx.HoldsConstant ⟨op, 0⟩)
    (right : ctx.HoldsConstant ⟨op, 1⟩) : ctx.Foldable data := by
  have held {index : Nat} (holds : ctx.HoldsConstant ⟨op, index⟩) :
      ∃ value, data.operands[index]? = some value ∧ ctx.IsIntConstant value := by
    obtain ⟨value, held, constant⟩ := holds
    obtain ⟨again, foundAgain, here⟩ := operand?_eq_some_iff.mp held
    cases found.symm.trans foundAgain
    exact ⟨value, here, constant⟩
  -- Both slots are there, so that they hold what they are known to hold.
  obtain ⟨kind, two, result, value, width, results, known, typed⟩ := isSum
  obtain ⟨lhs, rhs, operands⟩ := List.length_eq_two.mp two
  obtain ⟨left, isLeft, leftConstant⟩ := held left
  obtain ⟨right, isRight, rightConstant⟩ := held right
  rw [operands] at isLeft isRight
  cases isLeft
  cases isRight
  exact ⟨kind, _, _, result, value, width, operands, leftConstant, rightConstant, results, known,
    typed⟩

end Context

namespace Canonicalization

variable {ctx : Context} {root op : OpId} {late : OpId → Prop}

/-- What can be folded is not settled. -/
theorem Settled.not_foldable (settled : Settled ctx op) {data : Operation}
    (found : ctx.op op = .ok data) : ¬ ctx.Foldable data := by
  intro foldable
  -- A sum could be made, but none is found.
  obtain ⟨sum, computed⟩ := foldable.exists_sum
  obtain ⟨again, foundAgain, none, -⟩ := settled
  cases found.symm.trans foundAgain
  rw [computed] at none
  cases none

/-- Where everything is settled, nothing is folded. -/
theorem not_folds_of_settled
    (settled : ∀ op, TransGen ctx.Contains (.op root) (.op op) → Settled ctx op) :
    ¬ ctx.Folds root op := by
  have holds {slot : Use} (comes : ctx.ComesToConstant root slot) : ctx.HoldsConstant slot := by
    induction comes with
    | constant held constant => exact ⟨_, held, constant⟩
    | sum listed foundValue defines below found isSum left right ihLeft ihRight =>
      -- The first sum that is folded would not be settled.
      exact absurd (Context.foldable_of_holdsConstant found isSum ihLeft ihRight)
        ((settled _ below).not_foldable found)
  intro folds
  obtain ⟨below, data, found, isSum, left, right⟩ := folds
  exact (settled op below).not_foldable found
    (Context.foldable_of_holdsConstant found isSum (holds left) (holds right))

/-- Where everything is settled, nothing is erased. -/
theorem not_erasedBy_of_settled
    (settled : ∀ op, TransGen ctx.Contains (.op root) (.op op) → Settled ctx op) {visits : Nat} :
    ¬ ctx.ErasedBy root late visits op := by
  -- What is erased first would have no uses, and be dead.
  induction visits generalizing op with
  | zero => exact id
  | succ visits ih =>
    intro erased
    rcases Context.erasedBy_succ.mp erased with before | ⟨below, -, -, data, found, isPure, users⟩
    · exact ih before
    · obtain ⟨again, foundAgain, -, alive⟩ := settled op below
      cases found.symm.trans foundAgain
      have dead : ctx.isDead data = true := by
        refine Context.isDead_iff_usesOf.mpr ⟨isPure, fun value inResults => ?_⟩
        refine List.eq_nil_iff_forall_not_mem.mpr fun use listed => ?_
        exact (users value inResults use listed).elim ih
          fun folded => not_folds_of_settled settled folded.2
      rw [dead] at alive
      cases alive

/-- What is neither folded nor erased in the first visit is settled, if it reads known values. -/
theorem settled_of_not_leaves (defined : ctx.ResultsDefined)
    (below : TransGen ctx.Contains (.op root) (.op op)) {data : Operation}
    (found : ctx.op op = .ok data) (reads : ctx.ReadsAt (fun _ => False) op)
    (stays : ¬ ctx.Folds root op) (remains : ¬ ctx.ErasedBy root (ctx.Folds root) 1 op) :
    Settled ctx op := by
  refine ⟨data, found, ?_, ?_⟩
  · -- A sum would be folded, and only an unknown value keeps it from being computed.
    cases computed : ctx.sum? data with
    | error fault =>
      obtain ⟨value, listed, -, unknown⟩ := Context.sum?_eq_error defined found computed
      obtain ⟨known, foundValue⟩ := (reads data value found listed).resolve_right id
      exact absurd foundValue (unknown known)
    | ok sum? =>
      cases sum? with
      | none => rfl
      | some sum => exact absurd (Context.folds_of_sum below found computed) stays
  · -- What is dead would be erased.
    refine Bool.not_eq_true _ ▸ fun dead => remains (.inr ⟨below, fun folds => absurd folds stays,
      fun _ _ leaves => ?_, data, found, (Context.isDead_iff_usesOf.mp dead).1, ?_⟩)
    · exact leaves.elim id fun folded => absurd folded.1 (Nat.lt_irrefl 0)
    · intro value inResults use listed
      rw [(Context.isDead_iff_usesOf.mp dead).2 value inResults] at listed
      cases listed

end Canonicalization

end NestedIR
