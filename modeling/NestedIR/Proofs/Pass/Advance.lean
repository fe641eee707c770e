import NestedIR.Proofs.Pass.Forecast

/-! A turn in a visit leaves to later visits what was to be erased in them. -/

namespace NestedIR

open Relation

namespace Replaces

variable {op : OpId} {heir : Option OpId} {moved : ValueId → ValueId} {ctx ctx' : Context}

/-- A slot of a known operation holds what its value has moved to if the chain lists it. -/
theorem operand?_eq (replaces : Replaces op heir moved ctx ctx') {slot : Use} {data : Operation}
    (found : ctx.op slot.user = .ok data) : ctx'.operand? slot = (ctx.operand? slot).map
      fun value => if slot ∈ ctx.usesOf value then moved value else value := by
  rw [Context.operand?, Context.operand?, replaces.op_known found, found]
  exact Context.getElem?_moveOperands moved slot.user data.operands slot.index

/-- A known value that is used moves if the operation defines it, and otherwise stays. -/
theorem moved_cases (replaces : Replaces op heir moved ctx ctx') {use : Use} {value : ValueId}
    {known : Value} (listed : use ∈ ctx.usesOf value) (found : ctx.value value = .ok known) :
    (∃ new, known.definition = .result op 0 ∧ heir = some new ∧
        moved value = ⟨ctx.values.size⟩) ∨
      (∀ index, known.definition ≠ .result op index) ∧ moved value = value := by
  -- Only a result of the operation moves, and a result that is used has the heir to move to.
  by_cases own : ∃ index, known.definition = .result op index
  · obtain ⟨index, defines⟩ := own
    obtain ⟨rfl, same, new, isHeir⟩ := replaces.moved_used listed found defines
    exact .inl ⟨new, defines, isHeir, same⟩
  · have other := not_exists.mp own
    exact .inr ⟨other, replaces.moved_other found other⟩

/-- The value of an heir is an integer constant. -/
theorem isIntConstant_heir (replaces : Replaces op heir moved ctx ctx') {new : OpId}
    (isHeir : heir = some new) : ctx'.IsIntConstant ⟨ctx.values.size⟩ := by
  obtain ⟨-, -, data, value, number, found, kind, named, -, foundValue, defines⟩ :=
    replaces.heir_eq isHeir
  exact ⟨value, new, data, number, foundValue, defines, found, kind, named⟩

/-- A known value is an integer constant afterwards exactly if it was before. -/
theorem isIntConstant_iff (replaces : Replaces op heir moved ctx ctx')
    (defined : ctx.ResultsDefined) {value : ValueId} {known : Value}
    (foundValue : ctx.value value = .ok known) :
    ctx'.IsIntConstant value ↔ ctx.IsIntConstant value := by
  -- The definition of a known value is known, and changes in operands and owner alone.
  constructor
  · intro constant
    obtain ⟨again, definer, data, number, foundAgain, defines, found, kind, named⟩ := constant
    cases (replaces.value_known foundValue).symm.trans foundAgain
    obtain ⟨old, foundOld, -⟩ := (defined value definer 0).mp ⟨known, foundValue, defines⟩
    cases found.symm.trans (replaces.op_known foundOld)
    exact ⟨known, definer, old, number, foundValue, defines, foundOld, kind, named⟩
  · intro constant
    obtain ⟨again, definer, data, number, foundAgain, defines, found, kind, named⟩ := constant
    exact ⟨again, definer, _, number, replaces.value_known foundAgain, defines,
      replaces.op_known found, kind, named⟩

/-- A known operation is a sum afterwards exactly if it was before. -/
theorem isIntSum_iff (replaces : Replaces op heir moved ctx ctx') (defined : ctx.ResultsDefined)
    {other : OpId} {data data' : Operation} (found : ctx.op other = .ok data)
    (found' : ctx'.op other = .ok data') : ctx'.IsIntSum data' ↔ ctx.IsIntSum data := by
  cases found'.symm.trans (replaces.op_known found)
  simp only [Context.IsIntSum, Operation.isKind, Context.moveOperands, List.length_mapIdx,
    replaces.types_eq]
  refine and_congr_right fun _ => and_congr_right fun _ => exists_congr fun result =>
    exists_congr fun value => exists_congr fun width => and_congr_right fun results =>
      and_congr_left fun _ => ?_
  -- The result of a known operation is known.
  obtain ⟨known, foundValue, -⟩ := (defined result other 0).mpr ⟨data, found, by simp [results]⟩
  rw [replaces.value_known foundValue, foundValue]

end Replaces

/--
A turn in a visit below a root, or in one elsewhere, as seen from what is below the root.

An operation is replaced, behind which no other operation below the root has had its turn yet.
-/
structure Advances (root : OpId) (late late' : OpId → Prop) (op : OpId) (heir : Option OpId)
    (moved : ValueId → ValueId) (ctx ctx' : Context) : Prop where
  /-- The operation leaves, and its heir takes its place. -/
  replaces : Replaces op heir moved ctx ctx'
  /-- The program is sound. -/
  sound : ∃ discarded, Sound discarded ctx
  /-- The operation is known. -/
  known : ∃ data, ctx.op op = .ok data
  /-- The operation is not inside itself. -/
  acyclic : ¬ TransGen ctx.Contains (.op op) (.op op)
  /-- The root stays. -/
  outside : ¬ ReflTransGen ctx.Contains (.op op) (.op root)
  /-- What is below the root reads known values only. -/
  reads : ∀ {user slot value}, TransGen ctx.Contains (.op root) (.op user) →
    ctx.operand? ⟨user, slot⟩ = some value → ∃ data, ctx.value value = .ok data
  /-- What the operation uses of what is below the root is late, and so is only used from below. -/
  used : ∀ {other data value slot}, TransGen ctx.Contains (.op root) (.op other) →
    ctx.op other = .ok data → value ∈ data.results → ⟨op, slot⟩ ∈ ctx.usesOf value →
      TransGen ctx.Contains (.op root) (.op op) ∧ late other
  /-- What is used of the operation below the root is used from there. -/
  user : ∀ {data value use}, ctx.op op = .ok data → value ∈ data.results →
    use ∈ ctx.usesOf value → TransGen ctx.Contains (.op root) (.op use.user) →
      TransGen ctx.Contains (.op root) (.op op)
  /-- What is inside the operation has had its turn. -/
  inner : ∀ {other}, TransGen ctx.Contains (.op op) (.op other) →
    TransGen ctx.Contains (.op root) (.op other) →
      TransGen ctx.Contains (.op root) (.op op) ∧ late other ∧ ¬ ctx.Folds root other
  /-- Other operations do not become late. -/
  late_iff : ∀ {other data}, ctx.op other = .ok data → other ≠ op → (late' other ↔ late other)
  /-- What is erased below the root is dead. -/
  erased : TransGen ctx.Contains (.op root) (.op op) → heir = none → ctx.ErasedBy root late 1 op
  /-- What is folded below the root is a sum, and it is late, as the constant is. -/
  folded : TransGen ctx.Contains (.op root) (.op op) → ∀ {new}, heir = some new →
    ctx.Folds root op ∧ late op ∧ late' new

namespace Advances

variable {root op : OpId} {late late' : OpId → Prop} {heir : Option OpId}
  {moved : ValueId → ValueId} {ctx ctx' : Context}

/-- A known operation is not the heir. -/
theorem ne_heir (advances : Advances root late late' op heir moved ctx ctx') {other new : OpId}
    {data : Operation} (found : ctx.op other = .ok data) (isHeir : heir = some new) :
    other ≠ new :=
  fun same => Context.op_ne_next found (same ▸ (advances.replaces.heir_eq isHeir).1)

/-- The operation leaves in the first visit. -/
theorem leavesBy (advances : Advances root late late' op heir moved ctx ctx')
    (below : TransGen ctx.Contains (.op root) (.op op)) {visits : Nat} (some_ : 0 < visits) :
    ctx.LeavesBy root late visits op := by
  cases isHeir : heir with
  | none => exact .inl ((advances.erased below isHeir).mono some_)
  | some new => exact .inr ⟨some_, (advances.folded below isHeir).1⟩

/-- Nothing inside the operation leaves any more. -/
theorem not_leavesBy_inner (advances : Advances root late late' op heir moved ctx ctx')
    {other : OpId} (inside : TransGen ctx.Contains (.op op) (.op other)) {visits : Nat} :
    ¬ ctx.LeavesBy root late visits other := by
  intro leaves
  obtain ⟨below, isLate, stays⟩ := advances.inner inside leaves.below
  rcases leaves with erased | folded
  -- It would be erased by some visit, so that the induction is on the visits.
  · induction visits with
    | zero => cases erased
    | succ visits ih =>
      -- It is only erased if nothing around it leaves, but the operation does.
      rcases Context.erasedBy_succ.mp erased with before | ⟨-, later, around, -⟩
      · exact ih before
      · exact around op inside (advances.leavesBy below (later isLate))
  · exact stays folded.2

/-- What is folded, other than the operation itself, is not inside it. -/
theorem apart_of_folds (advances : Advances root late late' op heir moved ctx ctx') {other : OpId}
    (folds : ctx.Folds root other) (differs : other ≠ op) :
    ¬ ReflTransGen ctx.Contains (.op op) (.op other) := by
  intro inside
  rcases reflTransGen_iff_eq_or_transGen.mp inside with same | inside
  · exact differs (Entity.op.inj same)
  · have leaves : ctx.LeavesBy root late 1 other := .inr ⟨Nat.one_pos, folds⟩
    exact advances.not_leavesBy_inner inside leaves

/-- A slot below the root that comes to hold an integer constant still does. -/
theorem comesToConstant (advances : Advances root late late' op heir moved ctx ctx') {slot : Use}
    (comes : ctx.ComesToConstant root slot) (differs : slot.user ≠ op) :
    ctx'.ComesToConstant root slot := by
  have replaces := advances.replaces
  obtain ⟨gone, sound⟩ := advances.sound
  -- What the slot holds stays, unless its definition is replaced by a constant.
  induction comes with
  | @constant slot value held constant =>
    -- A slot that holds a constant reads its value, or the value of the heir if that has moved.
    obtain ⟨data, found, heldAt⟩ := Context.operand?_eq_some_iff.mp held
    have heldAfter := replaces.operand?_eq found
    rw [held, Option.map_some] at heldAfter
    obtain ⟨known, -, -, -, foundValue, -⟩ := id constant
    refine .constant heldAfter ?_
    split
    · rename_i listed
      rcases replaces.moved_cases listed foundValue with ⟨new, -, isHeir, same⟩ | ⟨-, same⟩
      · rw [same]
        exact replaces.isIntConstant_heir isHeir
      · rw [same]
        exact (replaces.isIntConstant_iff sound.results foundValue).mpr constant
    · exact (replaces.isIntConstant_iff sound.results foundValue).mpr constant
  | @sum slot value known definer data listed foundValue defines below found isSum left right
      ihLeft ihRight =>
    -- A slot that holds a sum becomes constant if the sum was the operation itself.
    have held := ((sound.uses.mem_iff value slot).mp listed).1
    obtain ⟨user, foundUser, -⟩ := Context.operand?_eq_some_iff.mp held
    rcases replaces.moved_cases listed foundValue with ⟨new, -, isHeir, same⟩ | ⟨other, same⟩
    · have holds : ctx'.operand? slot = some ⟨ctx.values.size⟩ := by
        rw [replaces.operand?_eq foundUser, held, Option.map_some, if_pos listed, same]
      exact .constant holds (replaces.isIntConstant_heir isHeir)
    -- Another sum stays below the root with its own slots, which come to hold constants as well.
    · have own : definer ≠ op := fun same => other 0 (same ▸ defines)
      have apart := advances.apart_of_folds ⟨below, data, found, isSum, left, right⟩ own
      have stays := (replaces.transGen_iff apart fun new isHeir equal =>
        advances.ne_heir found isHeir (Entity.op.inj equal)).mpr below
      have foundAfter := replaces.op_known found
      have isSumAfter := (replaces.isIntSum_iff sound.results found foundAfter).mpr isSum
      exact .sum ((replaces.mem_usesOf_iff value slot).mpr ⟨differs, value, same, listed⟩)
        (replaces.value_known foundValue) defines stays foundAfter isSumAfter (ihLeft own)
        (ihRight own)

/-- A slot below the root that comes to hold an integer constant did so before. -/
theorem of_comesToConstant (advances : Advances root late late' op heir moved ctx ctx')
    {slot : Use} (comes : ctx'.ComesToConstant root slot) (differs : slot.user ≠ op)
    (below : TransGen ctx.Contains (.op root) (.op slot.user)) : ctx.ComesToConstant root slot := by
  have replaces := advances.replaces
  obtain ⟨gone, sound⟩ := advances.sound
  -- A constant that has taken the place of a value stands for a sum that is folded.
  have handed {slot : Use} {value : ValueId} {known : Value}
      (below : TransGen ctx.Contains (.op root) (.op slot.user)) (listed : slot ∈ ctx.usesOf value)
      (foundValue : ctx.value value = .ok known) (defines : known.definition = .result op 0)
      {new : OpId} (isHeir : heir = some new) : ctx.ComesToConstant root slot := by
    obtain ⟨data, found, here⟩ := (sound.results value op 0).mp ⟨known, foundValue, defines⟩
    have belowOp := advances.user found (List.mem_of_getElem? here) listed below
    exact .of_folds (advances.folded belowOp isHeir).1 sound.results listed foundValue defines
  induction comes with
  | @constant slot value held constant =>
    -- The slot held something before, which has moved if a chain lists the slot.
    obtain ⟨user, -, foundUser, -⟩ := sound.attached_below below
    rw [replaces.operand?_eq foundUser, Option.map_eq_some_iff] at held
    obtain ⟨old, heldOld, rfl⟩ := held
    obtain ⟨known, foundValue⟩ := advances.reads below heldOld
    by_cases listed : slot ∈ ctx.usesOf old
    · rw [if_pos listed] at constant
      rcases replaces.moved_cases listed foundValue with ⟨new, defines, isHeir, -⟩ | ⟨-, same⟩
      · exact handed below listed foundValue defines isHeir
      · rw [same, replaces.isIntConstant_iff sound.results foundValue] at constant
        exact .constant heldOld constant
    · rw [if_neg listed, replaces.isIntConstant_iff sound.results foundValue] at constant
      exact .constant heldOld constant
  | @sum slot value known definer data listed foundValue defines belowDefiner found isSum left right
      ihLeft ihRight =>
    -- The sum was there before, as the heir is no sum.
    obtain ⟨-, old, rfl, listedOld⟩ := (replaces.mem_usesOf_iff value slot).mp listed
    have heldOld := ((sound.uses.mem_iff old slot).mp listedOld).1
    obtain ⟨before, foundBefore⟩ := advances.reads below heldOld
    rcases replaces.moved_cases listedOld foundBefore with ⟨new, defines, isHeir, -⟩ | ⟨other, same⟩
    · exact handed below listedOld foundBefore defines isHeir
    · rw [same, replaces.value_known foundBefore] at foundValue
      cases foundValue
      have own : definer ≠ op := fun same => other 0 (same ▸ defines)
      obtain ⟨old, foundOld, -⟩ := (sound.results _ definer 0).mp ⟨_, foundBefore, defines⟩
      rcases replaces.reached sound advances.outside belowDefiner with
        ⟨new, isHeir, equal⟩ | ⟨belowOld, -⟩
      · cases equal
        exact absurd (replaces.heir_eq isHeir).1 (Context.op_ne_next foundOld)
      · exact .sum listedOld foundBefore defines belowOld foundOld
          ((replaces.isIntSum_iff sound.results foundOld found).mp isSum)
          (ihLeft own belowOld) (ihRight own belowOld)

/-- What is below the root afterwards is the heir, or was there and is not within the operation. -/
theorem below_cases (advances : Advances root late late' op heir moved ctx ctx') {other : OpId}
    (below : TransGen ctx'.Contains (.op root) (.op other)) : heir = some other ∨
      TransGen ctx.Contains (.op root) (.op other) ∧
        ¬ ReflTransGen ctx.Contains (.op op) (.op other) := by
  obtain ⟨gone, sound⟩ := advances.sound
  rcases advances.replaces.reached sound advances.outside below with ⟨new, isHeir, same⟩ | before
  · cases same
    exact .inl isHeir
  · exact .inr before

/-- Other operations below the root are folded exactly if they were to be folded before. -/
theorem folds_iff (advances : Advances root late late' op heir moved ctx ctx') {other : OpId} :
    ctx'.Folds root other ↔ ctx.Folds root other ∧ other ≠ op := by
  have replaces := advances.replaces
  obtain ⟨gone, sound⟩ := advances.sound
  constructor
  · intro folds
    obtain ⟨below, data, found, isSum, left, right⟩ := folds
    rcases advances.below_cases below with isHeir | ⟨belowOld, apart⟩
    · -- The heir is a constant.
      obtain ⟨-, -, data', -, -, found', kind, -⟩ := replaces.heir_eq isHeir
      cases found.symm.trans found'
      exact absurd kind isSum.not_constant
    · have differs : other ≠ op := fun same => apart (same ▸ .refl)
      obtain ⟨old, -, foundOld, -⟩ := sound.attached_below belowOld
      have isSumOld := (replaces.isIntSum_iff sound.results foundOld found).mp isSum
      exact ⟨⟨belowOld, old, foundOld, isSumOld,
        advances.of_comesToConstant left differs belowOld,
        advances.of_comesToConstant right differs belowOld⟩, differs⟩
  · intro both
    obtain ⟨folds, differs⟩ := both
    obtain ⟨below, data, found, isSum, left, right⟩ := id folds
    have apart := advances.apart_of_folds folds differs
    have stays := (replaces.transGen_iff apart fun new isHeir equal =>
      advances.ne_heir found isHeir (Entity.op.inj equal)).mpr below
    have foundAfter := replaces.op_known found
    exact ⟨stays, _, foundAfter, (replaces.isIntSum_iff sound.results found foundAfter).mpr isSum,
      advances.comesToConstant left differs, advances.comesToConstant right differs⟩

/-- A known operation leaves in the same visit if it is erased in the same one. -/
theorem leavesBy_iff (advances : Advances root late late' op heir moved ctx ctx') {visits : Nat}
    {other : OpId} (differs : other ≠ op)
    (same : ctx'.ErasedBy root late' visits other ↔ ctx.ErasedBy root late visits other) :
    ctx'.LeavesBy root late' visits other ↔ ctx.LeavesBy root late visits other := by
  rw [Context.LeavesBy, Context.LeavesBy, same, advances.folds_iff, and_iff_left differs]

/-- What uses a value is known. -/
theorem exists_user (advances : Advances root late late' op heir moved ctx ctx') {value : ValueId}
    {use : Use} (listed : use ∈ ctx.usesOf value) : ∃ data, ctx.op use.user = .ok data := by
  obtain ⟨gone, sound⟩ := advances.sound
  obtain ⟨data, found, -⟩ :=
    Context.operand?_eq_some_iff.mp ((sound.uses.mem_iff value use).mp listed).1
  exact ⟨data, found⟩

section Left

variable {left left' : OpId → Prop}

/-- What has left, among other known operations, is the same before and afterwards. -/
def LeftAlike (op : OpId) (ctx : Context) (left left' : OpId → Prop) : Prop :=
  ∀ {other data}, ctx.op other = .ok data → other ≠ op → (left' other ↔ left other)

/-- Whether anything around has left is the same before and afterwards. -/
theorem around_iff (alike : LeftAlike op ctx left left') {inner inner' : Entity}
    (path : ∀ outer, TransGen ctx'.Contains (.op outer) inner' ↔
      TransGen ctx.Contains (.op outer) inner)
    (apart : ¬ TransGen ctx.Contains (.op op) inner) :
    (∀ outer, TransGen ctx'.Contains (.op outer) inner' → ¬ left' outer) ↔
      ∀ outer, TransGen ctx.Contains (.op outer) inner → ¬ left outer := by
  refine forall_congr' fun outer => ?_
  rw [path]
  refine imp_congr_right fun around => not_congr ?_
  -- What contains anything is known.
  obtain ⟨next, contains, -⟩ := TransGen.head'_iff.mp around
  obtain ⟨data, region, found, -⟩ := Context.contains_op.mp contains
  refine alike found ?_
  rintro rfl
  exact apart around

/-- Whether the users of another operation have left is the same before and afterwards. -/
theorem unused_iff (advances : Advances root late late' op heir moved ctx ctx')
    (alike : LeftAlike op ctx left left') {other : OpId} {data : Operation}
    (found : ctx.op other = .ok data) (differs : other ≠ op)
    (gone : ∀ value ∈ data.results, ∀ use ∈ ctx.usesOf value, use.user = op → left op) :
    ctx'.Unused left' other ↔ ctx.Unused left other := by
  have replaces := advances.replaces
  obtain ⟨discarded, sound⟩ := advances.sound
  -- The results stay, and so do their uses, except for those by the operation.
  have stays {value : ValueId} (inResults : value ∈ data.results) :
      ∃ known, ctx.value value = .ok known ∧ moved value = value := by
    obtain ⟨index, here⟩ := List.mem_iff_getElem?.mp inResults
    obtain ⟨known, foundValue, defines⟩ := (sound.results value other index).mpr ⟨data, found, here⟩
    refine ⟨known, foundValue, replaces.moved_other foundValue fun place own => ?_⟩
    rw [defines] at own
    exact differs (Definition.result.inj own).1
  constructor
  -- A use of the operation itself counts as left, and any other one is a use afterwards too.
  · intro after
    obtain ⟨data', found', isPure, users⟩ := after
    cases found'.symm.trans (replaces.op_known found)
    refine ⟨data, found, isPure, fun value inResults use listed => ?_⟩
    by_cases own : use.user = op
    · exact own ▸ gone value inResults use listed own
    · obtain ⟨known, foundValue, same⟩ := stays inResults
      obtain ⟨user, foundUser⟩ := advances.exists_user listed
      refine (alike foundUser own).mp (users value inResults use ?_)
      exact (replaces.mem_usesOf_iff value use).mpr ⟨own, value, same, listed⟩
  -- A use afterwards was a use of the same value before.
  · intro before
    obtain ⟨data', found', isPure, users⟩ := before
    cases found.symm.trans found'
    refine ⟨_, replaces.op_known found, isPure, fun value inResults use listed => ?_⟩
    obtain ⟨own, old, same, listedOld⟩ := (replaces.mem_usesOf_iff value use).mp listed
    obtain ⟨known, foundValue, -⟩ := stays inResults
    cases replaces.moved_known foundValue same
    obtain ⟨user, foundUser⟩ := advances.exists_user listedOld
    exact (alike foundUser own).mpr (users value inResults use listedOld)

/-- The uses of the heir are all uses of the operation. -/
def Inherits (op : OpId) (ctx ctx' : Context) : Prop :=
  ∀ use ∈ ctx'.usesOf ⟨ctx.values.size⟩, ∃ data value, ctx.op op = .ok data ∧
    value ∈ data.results ∧ use ∈ ctx.usesOf value

/-- The users of the heir have left exactly if those of the operation have. -/
theorem unused_heir_iff (advances : Advances root late late' op heir moved ctx ctx')
    (alike : LeftAlike op ctx left left') {new : OpId} (isHeir : heir = some new)
    (inherits : Inherits op ctx ctx') {data : Operation} (found : ctx.op op = .ok data)
    (isPure : data.isPure = true) (gone : left op) :
    ctx'.Unused left' new ↔ ctx.Unused left op := by
  have replaces := advances.replaces
  obtain ⟨discarded, sound⟩ := advances.sound
  obtain ⟨-, -, heirData, -, -, foundHeir, kind, -, results, -⟩ := replaces.heir_eq isHeir
  constructor
  · intro after
    obtain ⟨data', found', -, users⟩ := after
    cases found'.symm.trans foundHeir
    refine ⟨data, found, isPure, fun value inResults use listed => ?_⟩
    by_cases own : use.user = op
    · exact own ▸ gone
    · -- A use by anything else has moved to the value of the heir.
      obtain ⟨index, here⟩ := List.mem_iff_getElem?.mp inResults
      obtain ⟨known, foundValue, defines⟩ := (sound.results value op index).mpr ⟨data, found, here⟩
      obtain ⟨-, same, -⟩ := replaces.moved_used listed foundValue defines
      obtain ⟨user, foundUser⟩ := advances.exists_user listed
      refine (alike foundUser own).mp (users ⟨ctx.values.size⟩ (by simp [results]) use ?_)
      exact (replaces.mem_usesOf_iff _ use).mpr ⟨own, value, same, listed⟩
  -- A use of the heir is one that it has inherited from a result of the operation.
  · intro before
    obtain ⟨data', found', -, users⟩ := before
    cases found.symm.trans found'
    have heirPure : heirData.isPure = true := by simp [Operation.isPure, kind]
    refine ⟨heirData, foundHeir, heirPure, fun value inResults use listed => ?_⟩
    rw [results, List.mem_singleton] at inResults
    subst inResults
    obtain ⟨own, -⟩ := (replaces.mem_usesOf_iff _ use).mp listed
    obtain ⟨data', value, found', inResults, listedOld⟩ := inherits use listed
    cases found.symm.trans found'
    obtain ⟨user, foundUser⟩ := advances.exists_user listedOld
    exact (alike foundUser own).mpr (users value inResults use listedOld)

end Left

/-- Other known operations are erased in the same visits as before. -/
theorem erasedBy_iff (advances : Advances root late late' op heir moved ctx ctx') {visits : Nat}
    {other : OpId} {data : Operation} (found : ctx.op other = .ok data) (differs : other ≠ op) :
    ctx'.ErasedBy root late' visits other ↔ ctx.ErasedBy root late visits other := by
  induction visits generalizing other data with
  | zero => rfl
  | succ visits ih =>
    -- By induction, the same operations leave in each earlier visit.
    have alike : LeftAlike op ctx (ctx.LeavesBy root late visits)
        (ctx'.LeavesBy root late' visits) :=
      fun found differs => advances.leavesBy_iff differs (ih found differs)
    by_cases inside : ReflTransGen ctx.Contains (.op op) (.op other)
    · -- What is inside the operation has had its turn, and is gone afterwards.
      have inner := (reflTransGen_iff_eq_or_transGen.mp inside).resolve_left
        fun same => differs (Entity.op.inj same)
      refine iff_of_false (fun erased => ?_) fun erased => ?_
      · rcases advances.below_cases erased.below with isHeir | ⟨-, apart⟩
        · exact advances.ne_heir found isHeir rfl
        · exact apart inside
      · exact advances.not_leavesBy_inner inner (.inl erased)
    -- Outside of the operation, everything that surrounds the other one is there before and after.
    · have path (outer : Entity) : TransGen ctx'.Contains outer (.op other) ↔
          TransGen ctx.Contains outer (.op other) :=
        advances.replaces.transGen_iff inside fun new isHeir equal =>
          advances.ne_heir found isHeir (Entity.op.inj equal)
      have apart : ¬ TransGen ctx.Contains (.op op) (.op other) := inside ∘ TransGen.to_reflTransGen
      rw [Context.erasedBy_succ, Context.erasedBy_succ, path, advances.late_iff found differs,
        around_iff alike (fun outer => path (.op outer)) apart]
      refine or_congr (ih found differs) (and_congr_right fun below => and_congr_right fun later =>
        and_congr_right fun _ => advances.unused_iff alike found differs ?_)
      -- If the operation uses another one, then that is late, so that this is no first visit.
      intro value inResults use listed own
      obtain ⟨user, slot⟩ := use
      cases own
      obtain ⟨belowOp, isLate⟩ := advances.used below found inResults listed
      exact advances.leavesBy belowOp (later isLate)

/-- What the operation was inside, its heir is inside. -/
theorem belowHeir_iff (advances : Advances root late late' op heir moved ctx ctx') {new : OpId}
    (isHeir : heir = some new) {outer : Entity} :
    TransGen ctx'.Contains outer (.op new) ↔ TransGen ctx.Contains outer (.op op) := by
  obtain ⟨gone, sound⟩ := advances.sound
  exact advances.replaces.transGen_heir_iff sound advances.acyclic isHeir

/-- The heir is erased when the operation would have been, if it has no other uses. -/
theorem erasedBy_heir_iff (advances : Advances root late late' op heir moved ctx ctx')
    {new : OpId} (isHeir : heir = some new) (below : TransGen ctx.Contains (.op root) (.op op))
    (inherits : Inherits op ctx ctx') {visits : Nat} :
    ctx'.ErasedBy root late' visits new ↔ ctx.ErasedBy root late visits op := by
  obtain ⟨folds, isLate, isLate'⟩ := advances.folded below isHeir
  obtain ⟨-, data, found, isSum, -⟩ := folds
  induction visits with
  | zero => rfl
  | succ visits ih =>
    have alike : LeftAlike op ctx (ctx.LeavesBy root late visits)
        (ctx'.LeavesBy root late' visits) :=
      fun found differs => advances.leavesBy_iff differs (advances.erasedBy_iff found differs)
    -- Both are late, so that the operation has left by the visit in which either is erased.
    rw [Context.erasedBy_succ, Context.erasedBy_succ, advances.belowHeir_iff isHeir,
      iff_of_true isLate' isLate,
      around_iff alike (fun outer => advances.belowHeir_iff isHeir) advances.acyclic]
    refine or_congr ih (and_congr_right fun _ => and_congr_right fun later =>
      and_congr_right fun _ => ?_)
    exact advances.unused_heir_iff alike isHeir inherits found isSum.isPure
      (advances.leavesBy below (later isLate))

/-- The heir inherits all its uses if they are uses of known values. -/
theorem inherits_of_known (advances : Advances root late late' op heir moved ctx ctx')
    (known : ∀ old use, use ∈ ctx'.usesOf ⟨ctx.values.size⟩ → use ∈ ctx.usesOf old →
      ∃ data, ctx.value old = .ok data) : Inherits op ctx ctx' := by
  have replaces := advances.replaces
  obtain ⟨gone, sound⟩ := advances.sound
  -- A use of the heir was a use of a value that moved, which only the results of the operation do.
  intro use listed
  obtain ⟨-, old, same, listedOld⟩ := (replaces.mem_usesOf_iff _ use).mp listed
  obtain ⟨data, foundValue⟩ := known old use listed listedOld
  rcases replaces.moved_cases listedOld foundValue with ⟨new, defines, -⟩ | ⟨-, stays⟩
  · obtain ⟨data, found, here⟩ := (sound.results old op 0).mp ⟨_, foundValue, defines⟩
    exact ⟨data, old, found, List.mem_of_getElem? here, listedOld⟩
  · exact absurd (stays.symm.trans same) (Context.value_ne_next foundValue)

/-- An heir that is erased has all its uses below the root. -/
theorem below_of_erasedBy_heir (advances : Advances root late late' op heir moved ctx ctx')
    {new : OpId} (isHeir : heir = some new) {visits : Nat}
    (erased : ctx'.ErasedBy root late' visits new) :
    ∀ use ∈ ctx'.usesOf ⟨ctx.values.size⟩, TransGen ctx.Contains (.op root) (.op use.user) := by
  induction visits with
  | zero => cases erased
  | succ visits ih =>
    rcases Context.erasedBy_succ.mp erased with before | ⟨-, -, -, data, found, -, users⟩
    · exact ih before
    · intro use listed
      obtain ⟨-, -, data', -, -, found', -, -, results, -⟩ := advances.replaces.heir_eq isHeir
      cases found.symm.trans found'
      have leaves := users ⟨ctx.values.size⟩ (by simp [results]) use listed
      rcases advances.below_cases leaves.below with same | ⟨below, -⟩
      · -- The user was known before, so that it is not the heir.
        obtain ⟨-, old, -, listedOld⟩ := (advances.replaces.mem_usesOf_iff _ use).mp listed
        obtain ⟨user, foundUser⟩ := advances.exists_user listedOld
        exact absurd rfl (advances.ne_heir foundUser same)
      · exact below

/-- What is erased after some visits is erased after as many if the turn has not come yet. -/
theorem erasesAfter (advances : Advances root late late' op heir moved ctx ctx') {visits : Nat}
    (erases : ctx'.ErasesAfter root late' visits) : ctx.ErasesAfter root late visits := by
  obtain ⟨gone, sound⟩ := advances.sound
  obtain ⟨other, erased, stays⟩ := erases
  -- The heir stands for the operation, and anything else for itself.
  rcases advances.below_cases erased.below with isHeir | ⟨below, apart⟩
  · have belowOp := (advances.belowHeir_iff isHeir).mp erased.below
    have inherits : Inherits op ctx ctx' := advances.inherits_of_known fun old use listed here =>
      advances.reads (advances.below_of_erasedBy_heir isHeir erased use listed)
        ((sound.uses.mem_iff old use).mp here).1
    exact ⟨op, (advances.erasedBy_heir_iff isHeir belowOp inherits).mp erased,
      fun before => stays ((advances.erasedBy_heir_iff isHeir belowOp inherits).mpr before)⟩
  · have differs : other ≠ op := fun same => apart (same ▸ .refl)
    obtain ⟨data, -, found, -⟩ := sound.attached_below below
    exact ⟨other, (advances.erasedBy_iff found differs).mp erased,
      fun before => stays ((advances.erasedBy_iff found differs).mpr before)⟩

/-- What is to be erased after the first visit still is, if only known values are used. -/
theorem of_erasesAfter (advances : Advances root late late' op heir moved ctx ctx') {visits : Nat}
    (some_ : 1 ≤ visits)
    (known : ∀ value use, use ∈ ctx.usesOf value → ∃ data, ctx.value value = .ok data)
    (erases : ctx.ErasesAfter root late visits) : ctx'.ErasesAfter root late' visits := by
  obtain ⟨gone, sound⟩ := advances.sound
  obtain ⟨other, erased, stays⟩ := erases
  by_cases own : other = op
  · subst own
    -- What is erased is erased in this visit, and what is folded has an heir.
    cases isHeir : heir with
    | none => exact absurd ((advances.erased erased.below isHeir).mono some_) stays
    | some new =>
      have inherits := advances.inherits_of_known fun old use _ => known old use
      exact ⟨new, (advances.erasedBy_heir_iff isHeir erased.below inherits).mpr erased,
        fun after => stays ((advances.erasedBy_heir_iff isHeir erased.below inherits).mp after)⟩
  · obtain ⟨data, -, found, -⟩ := sound.attached_below erased.below
    exact ⟨other, (advances.erasedBy_iff found own).mpr erased,
      fun after => stays ((advances.erasedBy_iff found own).mp after)⟩

end Advances

end NestedIR
