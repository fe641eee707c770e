import NestedIR.Entity

/-! Use chains list, for every value, the operand slots that hold it. -/

namespace NestedIR

/-- One operand slot. -/
structure Use where
  /-- The operation that has the operand. -/
  user : OpId
  /-- The position among its operands. -/
  index : Nat
deriving DecidableEq

/--
The uses of every value, in the order in which they were recorded.

A value may be used before it is defined, so the chains know no bound on values.
-/
structure UseChains where
  /-- The chains of the first values. All later chains are empty. -/
  chains : Array (List Use) := #[]

namespace UseChains

/-- The uses of a value. -/
def get (uses : UseChains) (value : ValueId) : List Use := uses.chains.getD value.index []

/-- Gives one value a new chain. -/
def set (uses : UseChains) (value : ValueId) (chain : List Use) : UseChains where
  chains :=
    -- Empty chains fill the gap up to a value that had none.
    let padding := Array.replicate (value.index + 1 - uses.chains.size) []
    (uses.chains ++ padding).setIfInBounds value.index chain

/-- A new chain is seen at its own value and nowhere else. -/
theorem get_set (uses : UseChains) (value other : ValueId) (chain : List Use) :
    (uses.set value chain).get other = if other = value then chain else uses.get other := by
  -- Padding adds only empty chains, which is what absent ones read as.
  obtain ⟨changed⟩ := value
  obtain ⟨place⟩ := other
  simp only [get, set, ValueId.mk.injEq, Array.getD_eq_getD_getElem?, Array.getElem?_setIfInBounds,
    Array.size_append, Array.size_replicate, Array.getElem?_append, Array.getElem?_replicate]
  by_cases same : place = changed
  · subst same
    simp only [if_true, show place < uses.chains.size + (place + 1 - uses.chains.size) by omega,
      Option.getD_some]
  · by_cases known : place < uses.chains.size
    · simp [same, Ne.symm same, known]
    · by_cases padded : place - uses.chains.size < changed + 1 - uses.chains.size <;>
        simp [same, Ne.symm same, known, padded]

/-- Adds a use at the end of a chain. -/
def record (uses : UseChains) (value : ValueId) (use : Use) : UseChains :=
  uses.set value (uses.get value ++ [use])

/-- Takes a use out of a chain, keeping the order of the rest. -/
def forget (uses : UseChains) (value : ValueId) (use : Use) : UseChains :=
  uses.set value ((uses.get value).filter (· ≠ use))

/-- The operand slots of an operation, each with the value that it holds. -/
def slots (user : OpId) (operands : List ValueId) : List (ValueId × Use) :=
  operands.zipIdx.map fun (value, index) => (value, ⟨user, index⟩)

/-- Records every operand slot of an operation, in order. -/
def recordAll (uses : UseChains) (user : OpId) (operands : List ValueId) : UseChains :=
  (slots user operands).foldl (fun uses slot => uses.record slot.1 slot.2) uses

/-- Forgets every operand slot of an operation. -/
def forgetAll (uses : UseChains) (user : OpId) (operands : List ValueId) : UseChains :=
  (slots user operands).foldl (fun uses slot => uses.forget slot.1 slot.2) uses

/-- Recording slots appends to a chain those that hold its value. -/
theorem get_foldl_record (held : List (ValueId × Use)) (uses : UseChains) (value : ValueId) :
    (held.foldl (fun uses slot => uses.record slot.1 slot.2) uses).get value =
      uses.get value ++ (held.filter (·.1 = value)).map Prod.snd := by
  -- Each slot goes to the end of exactly one chain.
  induction held generalizing uses with
  | nil => simp
  | cons slot rest ih =>
    rw [List.foldl_cons, ih, record, get_set]
    by_cases same : slot.1 = value
    · subst same
      simp
    · simp [same, Ne.symm same]

/-- Forgetting slots keeps in a chain what is not among the slots that hold its value. -/
theorem get_foldl_forget (held : List (ValueId × Use)) (uses : UseChains) (value : ValueId) :
    (held.foldl (fun uses slot => uses.forget slot.1 slot.2) uses).get value =
      (uses.get value).filter fun use => (value, use) ∉ held := by
  -- Each slot is filtered out of exactly one chain.
  induction held generalizing uses with
  | nil => exact (List.filter_eq_self.mpr (by simp)).symm
  | cons slot rest ih =>
    rw [List.foldl_cons, ih, forget, get_set]
    obtain ⟨holds, taken⟩ := slot
    by_cases same : value = holds
    · subst same
      simp only [if_true, List.filter_filter]
      refine List.filter_congr fun use _ => ?_
      simp [Bool.and_comm]
    · rw [if_neg same]
      refine List.filter_congr fun use _ => ?_
      simp [same]

end UseChains

end NestedIR
