import Mathlib.Data.List.Induction
import Mathlib.Data.Set.Operations
import NestedIR.Context.Basic

/-! Types that are recorded one after the other are numbered in the order of first requests. -/

namespace NestedIR

/-- Of items that are listed once each, one more is listed if it is new. -/
theorem eraseDups_concat {α : Type} [DecidableEq α] (items : List α) (item : α) :
    (items ++ [item]).eraseDups =
      if item ∈ items then items.eraseDups else items.eraseDups ++ [item] := by
  -- What is left of the one item, without those before it, is itself or nothing.
  rw [List.eraseDups_append]
  by_cases listed : item ∈ items
  · simp [List.removeAll, listed]
  · simp [List.removeAll, listed, List.eraseDups_cons]

namespace TypeTable

variable {types : TypeTable} {data : TypeData} {type : TypeId}

/-- A type has no number exactly when it is not among the recorded types. -/
theorem find?_eq_none_iff : types.find? data = none ↔ data ∉ types.entries := by
  -- A number and a place among the recorded types are the same.
  rw [Option.eq_none_iff_forall_ne_some, Array.mem_iff_getElem?]
  constructor
  · intro unnumbered recorded
    obtain ⟨place, held⟩ := recorded
    exact unnumbered ⟨place⟩ (find?_eq_some_iff.mpr held)
  · intro unrecorded type numbered
    exact unrecorded ⟨type.index, find?_eq_some_iff.mp numbered⟩

/-- A type that is recorded already is found, and changes nothing. -/
theorem intern_of_mem (known : data ∈ types.entries) : (types.intern data).2 = types := by
  cases found : types.find? data with
  | some type => rw [intern_of_find? found]
  | none => exact absurd known (find?_eq_none_iff.mp found)

/-- A new type stands behind all known ones. -/
theorem get?_intern_of_not_mem (new : data ∉ types.entries) :
    (types.intern data).2.get? type =
      if type = ⟨types.size⟩ then some data else types.get? type := by
  rw [intern_of_new (find?_eq_none_iff.mpr new), get?_record]

/-- The types that are recorded one after the other, starting from none. -/
def internAll (recorded : List TypeData) : TypeTable :=
  recorded.foldl (fun types data => (types.intern data).2) {}

/-- The type that is recorded last finds the table of all others. -/
theorem internAll_concat (requests : List TypeData) (data : TypeData) :
    internAll (requests ++ [data]) = ((internAll requests).intern data).2 := by
  simp [internAll]

/-- The numbers that are answered when types are recorded one after the other. -/
def answers (types : TypeTable) : List TypeData → List TypeId
  | [] => []
  | data :: rest => (types.intern data).1 :: (types.intern data).2.answers rest

/-- The numbers that are answered when types are recorded one after the other, from none on. -/
def issued (requests : List TypeData) : List TypeId := answers {} requests

/-- Later requests do not change what was answered before. -/
theorem answers_append (types : TypeTable) (front back : List TypeData) :
    types.answers (front ++ back) = types.answers front ++
      (front.foldl (fun types data => (types.intern data).2) types).answers back := by
  induction front generalizing types with
  | nil => rfl
  | cons data rest ih => simp [answers, ih]

/-- The type that is recorded last is answered last. -/
theorem issued_concat (requests : List TypeData) (data : TypeData) :
    issued (requests ++ [data]) = issued requests ++ [((internAll requests).intern data).1] := by
  rw [issued, answers_append]
  rfl

/-- What is recorded stays recorded at every later time. -/
theorem get?_internAll_append {requests : List TypeData}
    (known : (internAll requests).get? type = some data) (later : List TypeData) :
    (internAll (requests ++ later)).get? type = some data := by
  -- Types are recorded one after the other, and each leaves those before it.
  induction later using List.reverseRecOn with
  | nil => simpa using known
  | append_singleton later last ih =>
    rw [← List.append_assoc, internAll_concat]
    exact get?_intern_of_get? ih last

/-- The data under the numbers that were answered are what was asked for, at every later time. -/
theorem map_get?_issued (requests later : List TypeData) :
    (issued requests).map (internAll (requests ++ later)).get? = requests.map some := by
  induction requests using List.reverseRecOn generalizing later with
  | nil => rfl
  | append_singleton requests data ih =>
    -- What was answered last has its data at once, and keeps them.
    have last : (internAll (requests ++ [data])).get? ((internAll requests).intern data).1 =
        some data := by
      rw [internAll_concat]
      exact get?_intern _ data
    rw [issued_concat, List.map_append, List.map_append, List.append_assoc,
      List.singleton_append, ih (data :: later)]
    simpa using get?_internAll_append last later

/-- The recorded types are those that were asked for, in the order of first requests. -/
theorem entries_internAll (requests : List TypeData) :
    (internAll requests).entries.toList = requests.eraseDups := by
  -- The last request adds its type behind all others, unless there was an equal request before.
  induction requests using List.reverseRecOn with
  | nil => rfl
  | append_singleton requests data ih =>
    have recorded : data ∈ (internAll requests).entries ↔ data ∈ requests := by
      rw [← Array.mem_toList_iff, ih, List.mem_eraseDups]
    rw [internAll_concat, eraseDups_concat]
    by_cases known : data ∈ requests
    · rw [intern_of_mem (recorded.mpr known), ih, if_pos known]
    · have new : (internAll requests).find? data = none :=
        find?_eq_none_iff.mpr (mt recorded.mp known)
      rw [intern_of_new new, if_neg known, ← ih]
      exact Array.toList_push

/-- A table has a type under each number below its size, and under no other. -/
theorem exists_get?_iff : (∃ data, types.get? type = some data) ↔ type.index < types.size := by
  rw [← Option.isSome_iff_exists, get?, size, isSome_getElem?]

/-- Where the numbers below a bound are listed in their order, they are the ones that are listed. -/
theorem mem_of_eraseDups {numbers : List TypeId} {bound : Nat}
    (inOrder : numbers.eraseDups = (List.range bound).map TypeId.mk) :
    type ∈ numbers ↔ type.index < bound := by
  obtain ⟨place⟩ := type
  rw [← List.mem_eraseDups, inOrder]
  simp

/-- The numbers that are answered are the numbers from zero on, and each is new in its turn. -/
theorem eraseDups_issued (requests : List TypeData) :
    (issued requests).eraseDups = (List.range (internAll requests).size).map TypeId.mk := by
  -- The last request is answered by an old number or by the size of the table.
  induction requests using List.reverseRecOn with
  | nil => rfl
  | append_singleton requests data ih =>
    rw [issued_concat, internAll_concat, eraseDups_concat, ih]
    cases found : (internAll requests).find? data with
    | some type =>
      -- A number that is found was answered before.
      have held : ∃ data, (internAll requests).get? type = some data :=
        ⟨data, find?_eq_some_iff.mp found⟩
      rw [intern_of_find? found, if_pos ((mem_of_eraseDups ih).mpr (exists_get?_iff.mp held))]
    | none =>
      have new : ⟨(internAll requests).size⟩ ∉ issued requests := by simp [mem_of_eraseDups ih]
      have grown : ((internAll requests).record data found).size =
          (internAll requests).size + 1 := Array.size_push ..
      rw [intern_of_new found, if_neg new, grown, List.range_succ, List.map_append]
      rfl

/-- The numbers that were answered are those under which there is a type. -/
theorem mem_issued_iff {requests : List TypeData} :
    type ∈ issued requests ↔ ∃ data, (internAll requests).get? type = some data := by
  rw [mem_of_eraseDups (eraseDups_issued requests), exists_get?_iff]

/-- No type stands under two numbers. -/
theorem eq_of_get? {other : TypeId} (held : types.get? type = some data)
    (again : types.get? other = some data) : type = other :=
  Option.some.inj ((find?_eq_some_iff.mpr held).symm.trans (find?_eq_some_iff.mpr again))

/-- The data that were asked for are found under the number that was answered. -/
theorem getElem?_requests (requests : List TypeData) (place : Nat) :
    requests[place]? = (issued requests)[place]?.bind (internAll requests).get? := by
  -- The data under all answers are all the data that were asked for, place by place.
  have found : (issued requests)[place]?.map (internAll requests).get? =
      requests[place]?.map some := by
    simpa using congrArg (·[place]?) (map_get?_issued requests [])
  cases answered : (issued requests)[place]? with
  | none =>
    rw [answered, Option.map_none] at found
    exact Option.map_eq_none_iff.mp found.symm
  | some type =>
    rw [answered, Option.map_some] at found
    obtain ⟨data, asked, held⟩ := Option.map_eq_some_iff.mp found.symm
    rw [asked, Option.bind_some, held]

/-- Two requests have the same answer exactly when they ask for the same type. -/
theorem issued_eq_iff (requests : List TypeData) (place other : Nat) :
    (issued requests)[place]? = (issued requests)[other]? ↔
      requests[place]? = requests[other]? := by
  -- The types that were asked for are those under the answers, and no type has two numbers.
  rw [getElem?_requests requests place, getElem?_requests requests other]
  refine ⟨fun same => by rw [same], fun same => ?_⟩
  cases first : (issued requests)[place]? with
  | none =>
    cases second : (issued requests)[other]? with
    | none => rfl
    | some type =>
      obtain ⟨data, held⟩ := mem_issued_iff.mp (List.mem_of_getElem? second)
      simp [first, second, held] at same
  | some type =>
    obtain ⟨data, held⟩ := mem_issued_iff.mp (List.mem_of_getElem? first)
    rw [first, Option.bind_some, held] at same
    obtain ⟨again, second, holds⟩ := Option.bind_eq_some_iff.mp same.symm
    rw [second, eq_of_get? held holds]

/-- A program gives the data of types that its table knows. -/
theorem map_type_eq_map_ok {ctx : Context} {numbers : List TypeId} {requests : List TypeData}
    (known : numbers.map ctx.types.get? = requests.map some) :
    numbers.map ctx.type = requests.map .ok := by
  -- The two lists are as long as each other, and agree place by place.
  induction numbers generalizing requests with
  | nil => cases requests <;> simp_all
  | cons type numbers ih =>
    cases requests with
    | nil => cases known
    | cons data requests =>
      obtain ⟨found, others⟩ := List.cons.inj known
      rw [List.map_cons, List.map_cons, ih others, Context.type, found]

/--
Types that are recorded one after the other are numbered for good.

The numbers that are answered are the numbers from zero on, as many as there are distinct types, and
both come up in the same order. Two requests have the same answer exactly when they ask for the same
type, and the data under an answer are what was asked for, also after any later requests. There is a
type exactly under the numbers that were answered, and it is never the same under two of them.
Finding a type by its data is exactly the reverse of looking up its data.
-/
theorem numbered_of_requests (requests later : List TypeData) :
    ((issued requests).eraseDups = (List.range requests.eraseDups.length).map TypeId.mk ∧
        (internAll requests).entries.toList = requests.eraseDups) ∧
      (∀ place other : Nat, (issued requests)[place]? = (issued requests)[other]? ↔
        requests[place]? = requests[other]?) ∧
      (∀ ctx : Context, (issued requests).map
        { ctx with types := internAll (requests ++ later) }.type = requests.map .ok) ∧
      (∀ type, (∃ data, (internAll requests).get? type = some data) ↔ type ∈ issued requests) ∧
      Set.InjOn (internAll requests).get? {type | type ∈ issued requests} ∧
      ∀ data type, (internAll requests).find? data = some type ↔
        (internAll requests).get? type = some data := by
  -- There are as many types as there are distinct requests.
  have size : (internAll requests).size = requests.eraseDups.length := by
    rw [← entries_internAll requests]
    rfl
  refine ⟨⟨size ▸ eraseDups_issued requests, entries_internAll requests⟩, issued_eq_iff requests,
    fun ctx => ?_, fun type => mem_issued_iff.symm, fun type answered other _ same => ?_,
    fun data type => find?_eq_some_iff⟩
  -- Data that are recorded stay recorded under later requests.
  · exact map_type_eq_map_ok (map_get?_issued requests later)
  -- Two numbers with the same data are one, because no data is recorded twice.
  · obtain ⟨data, held⟩ := mem_issued_iff.mp answered
    exact eq_of_get? held (same ▸ held)

example : issued [⟨"core", "pair", [⟨1⟩, ⟨1⟩]⟩, ⟨"core", "i1", []⟩, ⟨"core", "pair", [⟨1⟩, ⟨1⟩]⟩] =
    [⟨0⟩, ⟨1⟩, ⟨0⟩] := by decide

end TypeTable

end NestedIR
