import NestedIR.Proofs.Context.Request
import NestedIR.Proofs.TypeTable

/-! An attribute has no text for the first reason that is found in it from left to right. -/

namespace NestedIR

/-- A request answers unless there are reasons against it, and fails with the first of them. -/
def FailsFirst {α : Type} (request : Except PrintError α) (reasons : List PrintError) : Prop :=
  ∀ reason, request = .error reason ↔ reasons.head? = some reason

namespace FailsFirst

variable {α β : Type} {request : Except PrintError α} {reasons more : List PrintError}

/-- There is nothing against what is known already. -/
theorem ok (answer : α) : FailsFirst (.ok answer) [] := by
  intro reason
  simp

/-- There is one reason against what fails at once. -/
theorem error (reason : PrintError) :
    FailsFirst (.error reason : Except PrintError α) [reason] := by
  intro other
  simp

/-- A request is answered exactly where there are no reasons against it. -/
theorem exists_ok_iff (fails : FailsFirst request reasons) :
    (∃ answer, request = .ok answer) ↔ reasons = [] := by
  cases request with
  | error reason =>
    -- The reason that was given stands first, so that there is one.
    have first := (fails reason).mp rfl
    refine iff_of_false (fun answered => ?_) (fun none => ?_)
    · obtain ⟨answer, same⟩ := answered
      cases same
    · rw [none] at first
      cases first
  | ok answer =>
    refine iff_of_true ⟨answer, rfl⟩ (List.head?_eq_none_iff.mp ?_)
    -- The first reason would have been given as the answer.
    refine Option.eq_none_iff_forall_ne_some.mpr fun reason first => ?_
    cases (fails reason).mpr first

/-- Reasons against a request come before those against what is done with its answer. -/
theorem bind {next : α → Except PrintError β} (fails : FailsFirst request reasons)
    (goes : ∀ answer, FailsFirst (next answer) more) :
    FailsFirst (request >>= next) (reasons ++ more) := by
  -- A request that fails is not followed by anything, and one that is answered had no reasons.
  intro reason
  cases request with
  | error earlier =>
    have first := (fails earlier).mp rfl
    rw [List.head?_append, first]
    show Except.error earlier = Except.error reason ↔ _
    simp
  | ok answer =>
    rw [fails.exists_ok_iff.mp ⟨answer, rfl⟩]
    exact goes answer reason

/-- Reasons against a request are those against what is made of its answer. -/
theorem map {make : α → β} (fails : FailsFirst request reasons) :
    FailsFirst (request >>= fun answer => .ok (make answer)) reasons := by
  have made := fails.bind fun answer => ok (make answer)
  rwa [List.append_nil] at made

/-- Reasons against requests in turn come in the order of the requests. -/
theorem mapM {items : List α} {request : α → Except PrintError β} {reasons : α → List PrintError}
    (each : ∀ item ∈ items, FailsFirst (request item) (reasons item)) :
    FailsFirst (items.mapM request) (items.flatMap reasons) := by
  -- The first item is asked for before the rest.
  induction items with
  | nil => exact ok []
  | cons first rest ih =>
    rw [List.mapM_cons, List.flatMap_cons]
    refine (each first (by simp)).bind fun text => ?_
    exact (ih fun item listed => each item (by simp [listed])).map

end FailsFirst

namespace TypeTable

variable {types : TypeTable}

/-- The types without data among a type and its parameters, to any depth, from left to right. -/
def unknown (types : TypeTable) (wellFounded : WellFounded types.IsParameter) (type : TypeId) :
    List TypeId :=
  match _ : types.get? type with
  | none => [type]
  | some data => data.params.attach.flatMap fun param => types.unknown wellFounded param.1
termination_by wellFounded.wrap type
decreasing_by exact ⟨data, ‹_›, param.2⟩

/-- What is unknown about a known type is what is unknown about its parameters. -/
theorem unknown_of_get? (wellFounded : WellFounded types.IsParameter) {type : TypeId}
    {data : TypeData} (found : types.get? type = some data) :
    types.unknown wellFounded type = data.params.flatMap (types.unknown wellFounded) := by
  -- The definition asks the table once more, and what it is told is known already.
  rw [unknown]
  split
  · rename_i absent
    cases absent.symm.trans found
  · rename_i held foundHeld
    cases foundHeld.symm.trans found
    rw [← List.flatMap_map, List.attach_map_subtype_val]

/-- A type without data is unknown itself. -/
theorem unknown_of_absent (wellFounded : WellFounded types.IsParameter) {type : TypeId}
    (absent : types.get? type = none) : types.unknown wellFounded type = [type] := by
  rw [unknown]
  split
  · rfl
  · rename_i held found
    cases absent.symm.trans found

/-- The text of a type fails with the first type in it that the table does not know. -/
theorem failsFirst_render (wellFounded : WellFounded types.IsParameter) (type : TypeId) :
    FailsFirst (types.render type) ((types.unknown wellFounded type).map .unknownType) := by
  -- Parameters come before the types that have them.
  induction type using wellFounded.induction with
  | h type ih =>
    rw [render_eq wellFounded, renderNested]
    cases found : types.get? type with
    | none =>
      rw [unknown_of_absent wellFounded found]
      exact .error _
    | some data =>
      rw [unknown_of_get? wellFounded found, List.map_flatMap]
      exact (FailsFirst.mapM fun param listed => ih param ⟨data, found, listed⟩).map

end TypeTable

/-- What stands against the text of a payload, if anything does. -/
def DialectTable.refusal? (dialects : DialectTable) (dialect : String) (bytes : List UInt8) :
    Option PrintError :=
  match dialects.get? dialect with
  | none => some (.unregisteredDialect dialect)
  | some owner =>
    match owner.printer with
    | none => some (.noPayloadPrinter dialect)
    | some printer => if (printer bytes).isNone then some (.rejectedPayload dialect) else none

/-- The text of a payload fails with what stands against it. -/
theorem DialectTable.failsFirst_renderPayload (dialects : DialectTable) (dialect : String)
    (bytes : List UInt8) :
    FailsFirst (dialects.renderPayload dialect bytes) (dialects.refusal? dialect bytes).toList := by
  -- Both ask for the dialect, for its printer and for the text, and stop at what is missing.
  rw [renderPayload, refusal?]
  cases dialects.get? dialect with
  | none => exact .error _
  | some owner =>
    dsimp only
    cases owner.printer with
    | none => exact .error _
    | some printer =>
      dsimp only
      cases printer bytes with
      | none => exact .error _
      | some text => exact .ok text

namespace Attribute

variable {ctx : Context}

mutual

/-- What stands against the text of an attribute, from left to right. -/
def failures (ctx : Context) (wellFounded : WellFounded ctx.types.IsParameter) :
    Attribute → List PrintError
  | .type named => (ctx.types.unknown wellFounded named).map .unknownType
  | .list items => failuresAmong ctx wellFounded items
  | .payload dialect bytes => (ctx.dialects.refusal? dialect bytes).toList
  | _ => []
termination_by structural value => value

/-- What stands against the texts of attributes, from left to right. -/
def failuresAmong (ctx : Context) (wellFounded : WellFounded ctx.types.IsParameter) :
    List Attribute → List PrintError
  | [] => []
  | item :: rest => item.failures ctx wellFounded ++ failuresAmong ctx wellFounded rest
termination_by structural items => items

end

mutual

/-- The text of an attribute fails with the first thing that stands against it. -/
theorem failsFirst_render (wellFounded : WellFounded ctx.types.IsParameter) :
    (value : Attribute) → FailsFirst (value.render ctx) (value.failures ctx wellFounded)
  -- Fixed texts never fail, and the other cases follow what the text is put together from.
  | .unit => .ok _
  | .bool _ => .ok _
  | .int _ => .ok _
  | .float _ => .ok _
  | .string _ => .ok _
  | .symbol _ => .ok _
  | .type named => TypeTable.failsFirst_render wellFounded named
  | .list items => (failsFirst_renderAll wellFounded items).map
  | .payload dialect bytes => ctx.dialects.failsFirst_renderPayload dialect bytes

/-- The texts of attributes fail with the first thing that stands against any of them. -/
theorem failsFirst_renderAll (wellFounded : WellFounded ctx.types.IsParameter) :
    (items : List Attribute) →
      FailsFirst (renderAll ctx items) (failuresAmong ctx wellFounded items)
  | [] => .ok _
  | item :: rest =>
    (failsFirst_render wellFounded item).bind fun _ => (failsFirst_renderAll wellFounded rest).map

end

/-- An attribute is shown as its text, or as its tag where something stands against its text. -/
theorem renderOrTag_eq (wellFounded : WellFounded ctx.types.IsParameter) (value : Attribute) :
    (∀ text, value.render ctx = .ok text → value.renderOrTag ctx = text) ∧
      (value.failures ctx wellFounded ≠ [] → value.renderOrTag ctx = value.tag) := by
  -- The list of failures decides whether there is a text, which is all that the tag depends on.
  have fails := failsFirst_render wellFounded value
  rw [renderOrTag]
  cases rendered : value.render ctx with
  | error reason => exact ⟨fun text found => (nomatch found), fun _ => rfl⟩
  | ok text =>
    refine ⟨fun other same => Except.ok.inj same, fun any => absurd ?_ any⟩
    exact fails.exists_ok_iff.mp ⟨text, rendered⟩

/-- The issue of an attribute is the first thing that stands against its text. -/
theorem issue?_eq (wellFounded : WellFounded ctx.types.IsParameter) (key : String)
    (value : Attribute) : value.issue? ctx key =
      (value.failures ctx wellFounded).head?.map (.unprintedAttribute key value.tag) := by
  -- The issue is made from the reason for which the text is missing.
  have fails := failsFirst_render wellFounded value
  rw [issue?]
  cases rendered : value.render ctx with
  | error reason => rw [(fails reason).mp rendered, Option.map_some]
  | ok text => rw [fails.exists_ok_iff.mp ⟨text, rendered⟩, List.head?_nil, Option.map_none]

end Attribute

/-- Whether an issue is about an attribute. -/
def Issue.isAboutAttribute : Issue → Bool
  | .missingSymbol .. => false
  | .unprintedAttribute .. => true

/-- The issues of a description that are about attributes are those of the attributes in order. -/
theorem Operation.filter_issues (ctx : Context) (op : OpId) (data : Operation) :
    (data.describe ctx op).issues.filter Issue.isAboutAttribute =
      data.attributes.entries.filterMap fun entry => entry.2.issue? ctx entry.1 := by
  -- A missing symbol is the only other issue.
  have symbol : (data.issue? op).toList.filter Issue.isAboutAttribute = [] := by
    rw [issue?]
    split <;> rfl
  rw [describe, List.filter_append, symbol, List.nil_append, List.filter_eq_self]
  intro issue listed
  obtain ⟨entry, -, shown⟩ := List.mem_filterMap.mp listed
  change entry.2.issue? ctx entry.1 = some issue at shown
  rw [Attribute.issue?] at shown
  split at shown
  · cases shown
  · cases shown
    rfl

/--
Where no type is among its own parameters, an attribute has no text exactly where something in it
stands against that, and the first such thing from left to right says why. The description of a
known operation shows its attributes in order under their keys, each by its text, or by its tag if
it has none. It has one issue for each attribute without a text, in the same order, which says why.
-/
theorem Attribute.render_error_iff {ctx : Context}
    (wellFounded : WellFounded ctx.types.IsParameter) :
    (∀ value : Attribute,
      (∀ reason, value.render ctx = .error reason ↔
        (value.failures ctx wellFounded).head? = some reason) ∧
      ((∃ text, value.render ctx = .ok text) ↔ value.failures ctx wellFounded = [])) ∧
    ∀ op data, ctx.op op = .ok data → ∃ description, ctx.describe op = .ok description ∧
      List.Forall₂ (fun entry shown => shown.1 = entry.1 ∧
          (∀ text, entry.2.render ctx = .ok text → shown.2 = text) ∧
          (entry.2.failures ctx wellFounded ≠ [] → shown.2 = entry.2.tag))
        data.attributes.entries description.attributes ∧
      description.issues.filter Issue.isAboutAttribute =
        data.attributes.entries.filterMap fun (key, value) =>
          (value.failures ctx wellFounded).head?.map (.unprintedAttribute key value.tag) := by
  refine ⟨fun value => ?_, fun op data found => ?_⟩
  -- The failures of an attribute are listed in the order in which its text runs into them.
  · have fails := Attribute.failsFirst_render wellFounded value
    exact ⟨fails, fails.exists_ok_iff⟩
  · refine ⟨data.describe ctx op, bind_eq_ok.mpr ⟨data, found, rfl⟩, ?_, ?_⟩
    -- Each attribute is shown on its own.
    · refine List.forall₂_map_right_iff.mpr (List.forall₂_same.mpr fun entry _ => ?_)
      exact ⟨rfl, Attribute.renderOrTag_eq wellFounded entry.2⟩
    -- The first failure of each attribute is an issue, and no other issue is about attributes.
    · rw [Operation.filter_issues]
      simp only [Attribute.issue?_eq wellFounded]

/-- A list with a pair of which one part is unknown, in front of a payload that no dialect owns. -/
def unknownPart : Attribute := .list [.int 1, .list [.type ⟨1⟩, .payload "foreign" [1]], .type ⟨9⟩]

/-- A program of one operation, with attributes of which most have no text. -/
def unprintedAttributes : List Request :=
  [.internType ⟨"core", "i1", []⟩, .internType ⟨"core", "pair", [⟨0⟩, ⟨7⟩]⟩,
    .setDialects ((DialectTable.insert {} "silent").setPrinter "sealed" (some fun _ => none)),
    .addOp { name := .qualified "core" "constant",
             attributes := .ofList [("parts", unknownPart), ("known", .type ⟨0⟩),
              ("sealed", .payload "sealed" []), ("silent", .list [.payload "silent" []])] }]

/-- The unknown part of the pair comes first in its list, and the known type has its text. -/
theorem Attribute.render_error_iff_unprintedAttributes :
    ∃ ctx, Context.build unprintedAttributes = .ok ctx ∧ WellFounded ctx.types.IsParameter ∧
      unknownPart.render ctx = .error (.unknownType ⟨7⟩) ∧
      ∃ description, ctx.describe ⟨0⟩ = .ok description ∧
        description.issues.filter Issue.isAboutAttribute =
          [.unprintedAttribute "parts" "list" (.unknownType ⟨7⟩),
            .unprintedAttribute "sealed" "#sealed.opaque" (.rejectedPayload "sealed"),
            .unprintedAttribute "silent" "list" (.noPayloadPrinter "silent")] := by
  -- The table and the refusals of the dialects are computed.
  obtain ⟨ctx, built, types, owned, refused, silent, data, found, entries⟩ : ∃ ctx,
      Context.build unprintedAttributes = .ok ctx ∧
        ctx.types.entries = #[⟨"core", "i1", []⟩, ⟨"core", "pair", [⟨0⟩, ⟨7⟩]⟩] ∧
        ctx.dialects.refusal? "foreign" [1] = some (.unregisteredDialect "foreign") ∧
        ctx.dialects.refusal? "sealed" [] = some (.rejectedPayload "sealed") ∧
        ctx.dialects.refusal? "silent" [] = some (.noPayloadPrinter "silent") ∧
        ∃ data, ctx.op ⟨0⟩ = .ok data ∧ data.attributes.entries = [("parts", unknownPart),
          ("known", .type ⟨0⟩), ("sealed", .payload "sealed" []),
          ("silent", .list [.payload "silent" []])] :=
    ⟨_, rfl, by decide +kernel, by decide +kernel, by decide +kernel, by decide +kernel, _, rfl,
      by decide +kernel⟩
  have bit : ctx.types.get? ⟨0⟩ = some ⟨"core", "i1", []⟩ := by simp [TypeTable.get?, types]
  have pair : ctx.types.get? ⟨1⟩ = some ⟨"core", "pair", [⟨0⟩, ⟨7⟩]⟩ := by
    simp [TypeTable.get?, types]
  have absent (index : Nat) : ctx.types.get? ⟨index + 2⟩ = none := by simp [TypeTable.get?, types]
  -- Only the pair has parameters, and it is none itself.
  have wellFounded : WellFounded ctx.types.IsParameter := by
    refine Subrelation.wf (fun {inner outer} param => ?_)
      (measure fun type : TypeId => if type = ⟨1⟩ then 1 else 0).wf
    obtain ⟨data, found, listed⟩ := param
    obtain ⟨_ | _ | index⟩ := outer
    · cases bit.symm.trans found
      cases listed
    · cases pair.symm.trans found
      simp only [List.mem_cons, List.not_mem_nil, or_false] at listed
      rcases listed with rfl | rfl <;> exact Nat.zero_lt_one
    · cases (absent index).symm.trans found
  have knownBit : ctx.types.unknown wellFounded ⟨0⟩ = [] :=
    TypeTable.unknown_of_get? wellFounded bit
  have unknownHalf : ctx.types.unknown wellFounded ⟨1⟩ = [⟨7⟩] := by
    rw [TypeTable.unknown_of_get? wellFounded pair]
    simp [knownBit, TypeTable.unknown_of_absent wellFounded (absent 5)]
  -- The failures of the list are those of its items, from left to right.
  have failures : unknownPart.failures ctx wellFounded = [.unknownType ⟨7⟩,
      .unregisteredDialect "foreign", .unknownType ⟨9⟩] := by
    simp [unknownPart, Attribute.failures, Attribute.failuresAmong, unknownHalf, owned,
      TypeTable.unknown_of_absent wellFounded (absent 7)]
  -- What the theorem says of the list and of the description is evaluated at these failures.
  obtain ⟨rendered, described⟩ := Attribute.render_error_iff wellFounded
  obtain ⟨description, shown, -, issues⟩ := described ⟨0⟩ data found
  refine ⟨ctx, built, wellFounded, ((rendered unknownPart).1 _).mpr (by rw [failures]; rfl),
    description, shown, issues.trans ?_⟩
  simp only [entries, List.filterMap_cons, List.filterMap_nil, failures, Attribute.failures,
    Attribute.failuresAmong, knownBit, refused, silent]
  rfl

end NestedIR
