import Mathlib.Data.List.TakeWhile
import Mathlib.Logic.Function.Basic
import NestedIR.Dialect.Kind

/-! Operation names are read back from their written form, except for those that hide a dot. -/

namespace NestedIR

namespace OpName

/-- Names that are read back from their written form. -/
inductive Legible : OpName → Prop where
  /-- A qualified name is split behind its dialect, which has no dot. -/
  | qualified {dialect name : String} (filled : dialect ≠ "") (undotted : '.' ∉ dialect.toList)
      (named : name ≠ "") : Legible (.qualified dialect name)
  /-- A bare name without a dot is not split. -/
  | plain {name : String} (undotted : '.' ∉ name.toList) : Legible (.bare name)
  /-- A bare name is not split at a dot that leads it. -/
  | leading {name : String} (leads : name.toList.head? = some '.') : Legible (.bare name)
  /-- A bare name is not split at a dot that ends it. -/
  | trailing {front : String} (undotted : '.' ∉ front.toList) : Legible (.bare (front ++ "."))

variable {text : String}

/-- A text without a dot is a bare name. -/
theorem parse_of_undotted (undotted : '.' ∉ text.toList) : parse text = bare text := by
  -- Nothing is left for the name behind the dialect.
  have nothing : text.toList.dropWhile (· ≠ '.') = [] :=
    List.dropWhile_eq_nil_iff.mpr fun char listed => by
      simpa using fun same : char = '.' => undotted (same ▸ listed)
  simp only [parse, nothing]
  simp

/-- A text is split at its first dot, unless one of the parts is empty. -/
theorem parse_append {front back : String} (undotted : '.' ∉ front.toList) :
    parse (front ++ "." ++ back) =
      if front = "" ∨ back = "" then bare (front ++ "." ++ back) else qualified front back := by
  -- The dialect ends at this dot, because there is none before it.
  have plain (char : Char) (listed : char ∈ front.toList) : decide (char ≠ '.') = true := by
    simpa using fun same : char = '.' => undotted (same ▸ listed)
  have split : (front ++ "." ++ back).toList = front.toList ++ '.' :: back.toList := by simp
  have before : (front ++ "." ++ back).toList.takeWhile (· ≠ '.') = front.toList := by
    rw [split, List.takeWhile_append_of_pos plain]
    simp
  have behind : ((front ++ "." ++ back).toList.dropWhile (· ≠ '.')).drop 1 = back.toList := by
    rw [split, List.dropWhile_append_of_pos plain]
    simp
  simp only [parse, before, behind, String.ofList_toList]
  simp

/-- A text has no dot, or a first one. -/
theorem undotted_or_split (text : String) :
    '.' ∉ text.toList ∨
      ∃ front back : String, text = front ++ "." ++ back ∧ '.' ∉ front.toList := by
  by_cases dotted : '.' ∈ text.toList
  -- The first dot is the one that has none in front of it.
  · obtain ⟨front, back, split, undotted⟩ := List.eq_append_cons_of_mem dotted
    refine .inr ⟨.ofList front, .ofList back, ?_, by simpa using undotted⟩
    rw [← String.toList_inj]
    simpa using split
  · exact .inl dotted

/-- What is read is written as it was. -/
theorem toText_parse (text : String) : (parse text).toText = text := by
  -- Writing puts the dot back at which the text was split, if it was.
  rcases undotted_or_split text with undotted | ⟨front, back, rfl, undotted⟩
  · rw [parse_of_undotted undotted]
    rfl
  · rw [parse_append undotted]
    split <;> rfl

/-- What is read can be read back. -/
theorem legible_parse (text : String) : Legible (parse text) := by
  rcases undotted_or_split text with undotted | ⟨front, back, rfl, undotted⟩
  · rw [parse_of_undotted undotted]
    exact .plain undotted
  · rw [parse_append undotted]
    split
    · -- The dot is the first or the last character, whichever part is empty.
      rename_i empty
      rcases empty with rfl | rfl
      · exact .leading (by simp)
      · simpa using Legible.trailing undotted
    · rename_i filled
      obtain ⟨filled, named⟩ := not_or.mp filled
      exact .qualified filled undotted named

/-- Legible names are read back from their written form. -/
theorem Legible.parse_toText {name : OpName} (legible : Legible name) :
    parse name.toText = name := by
  cases legible with
  | qualified filled undotted named =>
    exact (parse_append undotted).trans (if_neg (not_or.mpr ⟨filled, named⟩))
  | plain undotted => exact parse_of_undotted undotted
  | @leading name leads =>
    -- There is nothing in front of the dot.
    obtain ⟨back, split⟩ : ∃ back, name.toList = '.' :: back := List.head?_eq_some_iff.mp leads
    have written : name = "" ++ "." ++ String.ofList back := by
      rw [← String.toList_inj]
      simpa using split
    show parse name = bare name
    rw [written, parse_append (by simp), if_pos (.inl rfl)]
  | @trailing front undotted =>
    -- There is nothing behind the dot.
    have written : front ++ "." = front ++ "." ++ "" := by simp
    show parse (front ++ ".") = bare (front ++ ".")
    rw [written, parse_append undotted, if_pos (.inr rfl)]

/-- The names that are read back are the legible ones. -/
theorem parse_toText_iff {name : OpName} : parse name.toText = name ↔ Legible name := by
  constructor
  · intro same
    rw [← same]
    exact legible_parse name.toText
  · exact Legible.parse_toText

/-- The names of the kinds of the built-in dialects are legible. -/
theorem legible_opName_of_builtIn {kind : OpKind} (isBuiltIn : kind ∈ OpKind.builtIn) :
    Legible kind.opName := by
  -- The name of each kind is closed, so that what makes it legible can be decided.
  simp only [OpKind.builtIn, List.mem_cons, List.not_mem_nil, or_false] at isBuiltIn
  rcases isBuiltIn with rfl | rfl | rfl | rfl | rfl | rfl | rfl | rfl
  -- Containers and the ends of functions have bare names, and all others a dialect.
  · exact .plain (by decide)
  · exact .plain (by decide)
  · exact .plain (by decide)
  all_goals exact .qualified (by decide) (by decide) (by decide)

/--
An operation whose name was read from a text is of a kind with a legible name exactly when the text
is the name of the kind as it is written.
-/
theorem Legible.isKind_parse_iff {kind : OpKind} (legible : Legible kind.opName)
    (data : Operation) :
    { data with name := parse text }.isKind kind ↔ text = kind.fullName := by
  -- Names are compared as they are, so that what was read is compared with the name of the kind.
  simp only [Operation.isKind, decide_eq_true_iff]
  constructor
  · intro same
    rw [OpKind.fullName, ← same, toText_parse]
  · intro same
    rw [same]
    exact legible.parse_toText

/-- The kinds that are told by their names as they are written are those with legible names. -/
theorem legible_opName_iff {kind : OpKind} :
    Legible kind.opName ↔ ∀ (text : String) (data : Operation),
      ({ data with name := parse text }.isKind kind ↔ text = kind.fullName) := by
  constructor
  · intro legible text data
    exact legible.isKind_parse_iff data
  · -- An operation that is named as the kind is written tells whether that name is read back.
    intro told
    have reread := (told kind.fullName { name := kind.opName, results := [] }).mpr rfl
    exact parse_toText_iff.mp (of_decide_eq_true reread)

/--
Names and their written forms are read and written without loss.

Every text is written again as it was read, so that no two texts are read alike. A name is read back
from its written form exactly when it is legible. An operation whose name was read from a text is of
a kind exactly when the text is the name of the kind as it is written, for every kind of the
built-in dialects, and of any other dialect for the kinds with legible names only.
-/
theorem parse_roundTrip :
    (∀ text, (parse text).toText = text) ∧
      (∀ name, parse name.toText = name ↔ Legible name) ∧
      Function.Injective parse ∧
      (∀ kind ∈ OpKind.builtIn, ∀ (text : String) (data : Operation),
        { data with name := parse text }.isKind kind ↔ text = kind.fullName) ∧
      ∀ kind : OpKind, Legible kind.opName ↔ ∀ (text : String) (data : Operation),
        ({ data with name := parse text }.isKind kind ↔ text = kind.fullName) :=
  -- Writing undoes reading for every text, and the other way round for legible names.
  ⟨toText_parse, fun _ => parse_toText_iff, Function.LeftInverse.injective toText_parse,
    fun _ isBuiltIn _ data => (legible_opName_of_builtIn isBuiltIn).isKind_parse_iff data,
    fun _ => legible_opName_iff⟩

/--
An addition is told by its name as it is written, but not an operation of a dialect without a name,
because what is read of the name of that kind is a bare name.
-/
theorem parse_roundTrip_addi :
    OpKind.addi ∈ OpKind.builtIn ∧
      Operation.isKind { name := parse "arith.addi", results := [] } .addi ∧
      ¬ Legible (OpKind.mk (.qualified "" "x")).opName := by
  -- The kind is a built-in one, and the name without a dialect is not read back as it was.
  have told : OpKind.addi ∈ OpKind.builtIn := by decide
  refine ⟨told, ?_, ?_⟩
  · exact (parse_roundTrip.2.2.2.1 .addi told "arith.addi" { name := .bare "", results := [] }).mpr
      rfl
  · intro legible
    have same := (parse_roundTrip.2.1 (.qualified "" "x")).mpr legible
    exact absurd same (by decide)

example : parse "test.region.op" = qualified "test" "region.op" := by decide

end OpName

end NestedIR
