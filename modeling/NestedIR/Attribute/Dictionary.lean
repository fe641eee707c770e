import NestedIR.Attribute

/-! Attribute dictionaries keep their entries in the order in which keys first appeared. -/

namespace NestedIR

/-- The attributes of one operation, each key once. -/
structure AttributeDict where
  /-- Keys and values in the order in which the keys were first inserted. -/
  entries : List (String × Attribute)
  /-- No key appears twice. -/
  distinct : (entries.map Prod.fst).Nodup := by simp

namespace AttributeDict

/-- The dictionary without entries. -/
def empty : AttributeDict := { entries := [] }

instance : EmptyCollection AttributeDict := ⟨empty⟩

/-- The keys in the order in which they were first inserted. -/
def keys (dict : AttributeDict) : List String := dict.entries.map Prod.fst

/-- The value under a key. -/
def get? (dict : AttributeDict) (key : String) : Option Attribute := dict.entries.lookup key

/-- The entries with the value under a key replaced. -/
def replaceIn (entries : List (String × Attribute)) (key : String) (value : Attribute) :
    List (String × Attribute) :=
  entries.map fun entry => if entry.1 = key then (key, value) else entry

/-- Replacing the value under a key leaves the keys alone. -/
theorem keys_replaceIn (entries : List (String × Attribute)) (key : String) (value : Attribute) :
    (replaceIn entries key value).map Prod.fst = entries.map Prod.fst := by
  -- An entry is replaced only by one with the same key.
  rw [replaceIn, List.map_map]
  refine List.map_congr_left fun entry _ => ?_
  by_cases same : entry.1 = key <;> simp [same]

/-- Puts a value under a key, in the place of the key's old value or at the end. -/
def insert (dict : AttributeDict) (key : String) (value : Attribute) : AttributeDict :=
  if present : key ∈ dict.keys then
    { entries := replaceIn dict.entries key value
      distinct := keys_replaceIn dict.entries key value ▸ dict.distinct }
  else
    { entries := dict.entries ++ [(key, value)]
      distinct := by
        -- A new key differs from all earlier ones.
        rw [List.map_append, List.nodup_append]
        refine ⟨dict.distinct, by simp, fun old member new same => ?_⟩
        simp only [List.map_cons, List.map_nil, List.mem_singleton] at same
        exact fun clash => present (same ▸ clash ▸ member) }

/-- Takes a key out, keeping the order of the rest. -/
def erase (dict : AttributeDict) (key : String) : AttributeDict where
  entries := dict.entries.filter (·.1 ≠ key)
  distinct := dict.distinct.sublist (List.filter_sublist.map Prod.fst)

/-- Inserts the given pairs one after the other. -/
def ofList (entries : List (String × Attribute)) : AttributeDict :=
  entries.foldl (fun dict entry => dict.insert entry.1 entry.2) ∅

/-- An insertion keeps the order of the keys and appends a new one. -/
theorem keys_insert (dict : AttributeDict) (key : String) (value : Attribute) :
    (dict.insert key value).keys = if key ∈ dict.keys then dict.keys else dict.keys ++ [key] := by
  -- The two cases are those of the insertion itself.
  unfold insert
  split
  · exact keys_replaceIn dict.entries key value
  · simp [keys]

/-- An erasure removes exactly the given key. -/
theorem keys_erase (dict : AttributeDict) (key : String) :
    (dict.erase key).keys = dict.keys.filter (· ≠ key) := by
  -- Filtering entries by their key filters the keys.
  simp [erase, keys, List.filter_map, Function.comp_def]

/-- Looking up a replaced key finds the new value, and any other key its old value. -/
theorem lookup_replaceIn (entries : List (String × Attribute)) (key other : String)
    (value : Attribute) (present : key ∈ entries.map Prod.fst) :
    (replaceIn entries key value).lookup other =
      if other = key then some value else entries.lookup other := by
  -- The first entry with the key decides in both lists.
  induction entries with
  | nil => simp at present
  | cons entry rest ih =>
    obtain ⟨first, old⟩ := entry
    by_cases found : first = key
    · subst found
      by_cases same : other = first
      · simp [replaceIn, same]
      · have absent : (replaceIn rest first value).lookup other = rest.lookup other := by
          by_cases later : first ∈ rest.map Prod.fst
          · simpa [same] using ih later
          · -- Without the key, replacing changes nothing.
            congr 1
            rw [replaceIn]
            refine (List.map_congr_left fun held member => ?_).trans (List.map_id rest)
            have differs : held.1 ≠ first := fun clash => later (clash ▸ List.mem_map_of_mem member)
            simp [differs]
        simpa [replaceIn, List.lookup_cons, beq_eq_false_iff_ne.mpr same, same] using absent
    · have later : key ∈ rest.map Prod.fst := by simpa [Ne.symm found] using present
      have tail := ih later
      by_cases here : other = first
      · simp [replaceIn, found, here]
      · simpa [replaceIn, List.lookup_cons, found, beq_eq_false_iff_ne.mpr here] using tail

/-- An insertion is seen under its own key and nowhere else. -/
theorem get?_insert (dict : AttributeDict) (key other : String) (value : Attribute) :
    (dict.insert key value).get? other = if other = key then some value else dict.get? other := by
  -- A known key is replaced in place, and a new one goes to the end.
  unfold insert get?
  split
  · rename_i present
    exact lookup_replaceIn dict.entries key other value present
  · rename_i absent
    rw [List.lookup_append]
    by_cases same : other = key
    · subst same
      have missing : dict.entries.lookup other = none := by
        rw [List.lookup_eq_none_iff]
        intro entry member
        simpa using fun clash : other = entry.1 => absent (clash ▸ List.mem_map_of_mem member)
      simp [missing]
    · simp [List.lookup_cons, beq_eq_false_iff_ne.mpr same, same]

end AttributeDict

end NestedIR
