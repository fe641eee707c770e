import NestedIR.Entity

/-! The type table records every distinct type once. -/

namespace NestedIR

/-- What a type is: a name inside a dialect, applied to parameter types. -/
structure TypeData where
  /-- The dialect that owns the type. -/
  dialect : String
  /-- The name inside the dialect. -/
  name : String
  /-- The parameter types, which need not be recorded yet. -/
  params : List TypeId
deriving DecidableEq

/-- As long as no type is recorded, none is found either way. -/
theorem lookup_nil_iff (data : TypeData) (type : TypeId) :
    ([] : List (TypeData × TypeId)).lookup data = some type ↔
      (#[] : Array TypeData)[type.index]? = some data := by
  simp

/--
The distinct types in the order in which they were first recorded.

They are kept by number and by data, so that a type that is asked for again is found again.
-/
structure TypeTable where
  /-- The data of each type. -/
  entries : Array TypeData := #[]
  /-- The number under which each type is recorded. -/
  numbers : List (TypeData × TypeId) := []
  /-- A type has a number exactly when the data under this number are its own. -/
  lookup_numbers (data : TypeData) (type : TypeId) :
    numbers.lookup data = some type ↔ entries[type.index]? = some data := by
      exact lookup_nil_iff

namespace TypeTable

/-- The number of distinct types. -/
def size (types : TypeTable) : Nat := types.entries.size

/-- The data of a type, if the table knows it. -/
def get? (types : TypeTable) (type : TypeId) : Option TypeData := types.entries[type.index]?

/-- The number under which a type is recorded, if it is. -/
def find? (types : TypeTable) (data : TypeData) : Option TypeId := types.numbers.lookup data

/-- A type is found under a number exactly when the table has its data there. -/
theorem find?_eq_some_iff {types : TypeTable} {data : TypeData} {type : TypeId} :
    types.find? data = some type ↔ types.get? type = some data :=
  types.lookup_numbers data type

/-- Behind all recorded types there is none. -/
theorem get?_size (types : TypeTable) : types.get? ⟨types.size⟩ = none := by
  simp [get?, size]

/-- Records a new type behind all others. -/
def record (types : TypeTable) (data : TypeData) (new : types.find? data = none) : TypeTable where
  entries := types.entries.push data
  numbers := (data, ⟨types.size⟩) :: types.numbers
  lookup_numbers other type := by
    have before := types.lookup_numbers other type
    obtain ⟨place⟩ := type
    rw [List.lookup_cons, Array.getElem?_push]
    by_cases same : other = data
    · -- The new type had no number before, so that it has only the one that it is given.
      subst same
      have absent : types.entries[place]? ≠ some other := fun recorded =>
        Option.some_ne_none _ ((before.mpr recorded).symm.trans new)
      by_cases behind : place = types.entries.size
      · simp [behind, size]
      · simpa [behind, Ne.symm behind, size] using absent
    · -- Every other type keeps its number, which is not the new one.
      rw [beq_false_of_ne same, before]
      by_cases behind : place = types.entries.size
      · simp [behind, Ne.symm same]
      · simp [behind]

/-- Finds a type, or records it when it is new. -/
def intern (types : TypeTable) (data : TypeData) : TypeId × TypeTable :=
  match known : types.find? data with
  | some type => (type, types)
  | none => (⟨types.size⟩, types.record data known)

/-- A recorded type is answered by its number, and the table stays as it is. -/
theorem intern_of_find? {types : TypeTable} {data : TypeData} {type : TypeId}
    (known : types.find? data = some type) : types.intern data = (type, types) := by
  unfold intern
  split
  -- A type was found, and it is the one that is known.
  · rename_i found same
    rw [known] at same
    cases same
    rfl
  -- That nothing was found is excluded.
  · rename_i absent
    rw [known] at absent
    cases absent

/-- A new type is answered by the next number, and stands under it from then on. -/
theorem intern_of_new {types : TypeTable} {data : TypeData} (new : types.find? data = none) :
    types.intern data = (⟨types.size⟩, types.record data new) := by
  unfold intern
  split
  · rename_i found
    rw [new] at found
    cases found
  · rfl

/-- A new type is the only one that a table knows more than before. -/
theorem get?_record {types : TypeTable} {data : TypeData} (new : types.find? data = none)
    (type : TypeId) :
    (types.record data new).get? type =
      if type = ⟨types.size⟩ then some data else types.get? type := by
  obtain ⟨place⟩ := type
  simp [record, get?, size, Array.getElem?_push]

/-- A type that was found or recorded has the data that was asked for. -/
theorem get?_intern (types : TypeTable) (data : TypeData) :
    (types.intern data).2.get? (types.intern data).1 = some data := by
  -- A type that is found has its number, and a new one is given the number behind all others.
  cases known : types.find? data with
  | some type =>
    rw [intern_of_find? known]
    exact find?_eq_some_iff.mp known
  | none =>
    rw [intern_of_new known]
    simp [get?_record]

/-- Recording a type leaves the data of all known types alone. -/
theorem get?_intern_of_get? {types : TypeTable} {type : TypeId} {held : TypeData}
    (known : types.get? type = some held) (data : TypeData) :
    (types.intern data).2.get? type = some held := by
  cases found : types.find? data with
  | some other =>
    rw [intern_of_find? found]
    exact known
  | none =>
    -- A new type stands where none was known.
    have old : type ≠ ⟨types.size⟩ := fun same => by simp [same, get?_size] at known
    rw [intern_of_new found, get?_record, if_neg old]
    exact known

end TypeTable

end NestedIR
