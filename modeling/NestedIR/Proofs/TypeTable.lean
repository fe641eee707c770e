import Mathlib.Order.WellFounded
import NestedIR.Description
import NestedIR.Proofs.Shallow

/-! Types that are not among their own parameters have texts that come to an end. -/

namespace NestedIR

open Relation

/-- Requests that have the same answers for all items have the same answer for their list. -/
theorem mapM_congr {ε α β : Type} {request other : α → Except ε β} {items : List α}
    (same : ∀ item ∈ items, request item = other item) :
    items.mapM request = items.mapM other := by
  -- The first item is answered before the rest.
  induction items with
  | nil => rfl
  | cons first rest ih =>
    rw [List.mapM_cons, List.mapM_cons, same first (by simp),
      ih fun item listed => same item (by simp [listed])]

namespace TypeTable

variable {types : TypeTable}

/-- A type is a parameter of another one. -/
def IsParameter (types : TypeTable) (inner outer : TypeId) : Prop :=
  ∃ data, types.get? outer = some data ∧ inner ∈ data.params

/-- Types whose parameters were all recorded before them are not among their own parameters. -/
theorem wellFounded_of_lt
    (earlier : ∀ inner outer, types.IsParameter inner outer → inner.index < outer.index) :
    WellFounded types.IsParameter := by
  -- Numbers go down from a type to its parameters.
  exact Subrelation.wf (fun {inner outer} param => earlier inner outer param)
    (measure TypeId.index).wf

/-- Types without parameters are not among their own parameters. -/
theorem wellFounded_of_plain (plain : ∀ data ∈ types.entries, data.params = []) :
    WellFounded types.IsParameter := by
  -- Nothing comes below a type, so that each is accessible at once.
  refine ⟨fun outer => .intro outer fun inner param => ?_⟩
  obtain ⟨data, found, listed⟩ := param
  rw [plain data (Array.mem_of_getElem? found)] at listed
  cases listed

/-- Where no chain of parameters is endless, each is no longer than there are types. -/
theorem shallow_of_acc {asks : TypeId → TypeId → Prop}
    (params : ∀ inner outer, asks inner outer → types.IsParameter inner outer) {type : TypeId}
    (acc : Acc asks type) :
    Shallow (fun outer inner => asks inner outer) (types.size + 1) type := by
  -- Only known types have parameters.
  let known := (List.range types.size).map TypeId.mk
  have leadsOn (outer inner : TypeId) (asked : asks inner outer) : outer ∈ known := by
    obtain ⟨data, found, -⟩ := params inner outer asked
    obtain ⟨bounded, -⟩ := Array.getElem?_eq_some_iff.mp found
    exact List.mem_map.mpr ⟨outer.index, List.mem_range.mpr bounded, rfl⟩
  have acyclic (outer : TypeId)
      (down : ReflTransGen (fun outer inner => asks inner outer) type outer) :
      ¬ TransGen (fun outer inner => asks inner outer) outer outer := by
    have accOuter : Acc asks outer := by
      induction down with
      | refl => exact acc
      | tail _ asked ih => exact ih.inv asked
    intro around
    have back := (transGen_swap (r := asks)).mp around
    exact accOuter.transGen.rec (fun _ _ ih again => ih _ again again) back
  have shallow : Shallow _ (known.length + 1) type := Shallow.of_acyclic leadsOn acyclic
  simpa [known] using shallow

/-- Types that are not among their own parameters nest no deeper than there are types. -/
theorem shallow_of_wellFounded (wellFounded : WellFounded types.IsParameter) (type : TypeId) :
    Shallow (fun outer inner => types.IsParameter inner outer) (types.size + 1) type :=
  shallow_of_acc (fun _ _ => id) (wellFounded.apply type)

/-- The text of a type does not depend on how deep its parameters may nest, if that is enough. -/
theorem renderWithin_eq_of_shallow {depth deeper : Nat} {type : TypeId}
    (shallow : Shallow (fun outer inner => types.IsParameter inner outer) depth type)
    (le : depth ≤ deeper) : types.renderWithin deeper type = types.renderWithin depth type := by
  -- Parameters nest one step less deep.
  induction depth generalizing deeper type with
  | zero => cases shallow
  | succ depth ih =>
    obtain ⟨rest, rfl⟩ : ∃ rest, deeper = rest + 1 := ⟨deeper - 1, by omega⟩
    simp only [renderWithin]
    cases found : types.get? type with
    | none => rfl
    | some data =>
      have params : data.params.mapM (types.renderWithin rest) =
          data.params.mapM (types.renderWithin depth) :=
        mapM_congr fun param listed =>
          ih (shallow param ⟨data, found, listed⟩) (by omega)
      simp only [params]

/-- The text of a type, given those of its parameters. -/
def renderNested (types : TypeTable) (below : TypeId → Except PrintError String) (type : TypeId) :
    Except PrintError String := do
  let some data := types.get? type | throw (.unknownType type)
  let params ← data.params.mapM below
  let name := data.dialect ++ "." ++ data.name
  return if params.isEmpty then name else name ++ "(" ++ commaSeparated params ++ ")"

/-- Without a type among its own parameters, the text of a type is put together from such texts. -/
theorem render_eq (wellFounded : WellFounded types.IsParameter) (type : TypeId) :
    types.render type = types.renderNested types.render type := by
  rw [render, renderWithin, renderNested]
  cases found : types.get? type with
  | none => rfl
  | some data =>
    -- One step less is enough for the parameters, so that one more makes no difference.
    have params : data.params.mapM (types.renderWithin types.size) =
        data.params.mapM types.render := by
      refine mapM_congr fun param listed => ?_
      have shallow := shallow_of_wellFounded wellFounded type param ⟨data, found, listed⟩
      exact (renderWithin_eq_of_shallow shallow (Nat.le_succ _)).symm
    simp only [params]

end TypeTable

/-- A text comes to an end unless a type is found among its own parameters. -/
def Ends {α : Type} (text : Except PrintError α) : Prop :=
  ∀ type, text ≠ .error (.endlessType type)

namespace Ends

variable {α β : Type}

/-- An answer that is known already comes to an end. -/
theorem ok (answer : α) : Ends (.ok answer) := by
  intro type failed
  cases failed

/-- What is put together from texts that come to an end comes to an end. -/
theorem bind {first : Except PrintError α} {next : α → Except PrintError β} (ends : Ends first)
    (goes : ∀ answer, Ends (next answer)) : Ends (first >>= next) := by
  intro type failed
  cases first with
  | error reason =>
    cases failed
    exact ends type rfl
  | ok answer => exact goes answer type failed

/-- Texts that all come to an end do so one after the other. -/
theorem mapM {request : α → Except PrintError β} {items : List α}
    (each : ∀ item ∈ items, Ends (request item)) : Ends (items.mapM request) := by
  -- The first text comes before the rest.
  induction items with
  | nil => exact ok []
  | cons first rest ih =>
    rw [List.mapM_cons]
    refine bind (each first (by simp)) fun text => ?_
    exact bind (ih fun item listed => each item (by simp [listed])) fun texts => ok (text :: texts)

end Ends

/-- The text of a type comes to an end where no type is among its own parameters. -/
theorem TypeTable.ends_render {types : TypeTable} (wellFounded : WellFounded types.IsParameter)
    (type : TypeId) : Ends (types.render type) := by
  -- Parameters come before the types that have them.
  induction type using wellFounded.induction with
  | h type ih =>
    rw [render_eq wellFounded, renderNested]
    cases found : types.get? type with
    | none =>
      intro other failed
      cases failed
    | some data =>
      refine Ends.bind (Ends.mapM fun param listed => ih param ⟨data, found, listed⟩) ?_
      exact fun params => Ends.ok _

/-- The text of a payload does not depend on types. -/
theorem DialectTable.ends_renderPayload (dialects : DialectTable) (dialect : String)
    (bytes : List UInt8) : Ends (dialects.renderPayload dialect bytes) := by
  -- Each of the three steps has a reason of its own to fail.
  intro type failed
  unfold renderPayload at failed
  cases found : dialects.get? dialect with
  | none =>
    rw [found] at failed
    cases failed
  | some owner =>
    rw [found] at failed
    cases prints : owner.printer with
    | none =>
      simp only [prints] at failed
      cases failed
    | some printer =>
      simp only [prints] at failed
      cases printed : printer bytes with
      | none =>
        simp only [printed] at failed
        cases failed
      | some text =>
        simp only [printed] at failed
        cases failed

namespace Attribute

variable {ctx : Context}

mutual

/-- The text of an attribute comes to an end where no type is among its own parameters. -/
theorem ends_render (wellFounded : WellFounded ctx.types.IsParameter) :
    (value : Attribute) → Ends (value.render ctx)
  -- Only types and payloads have texts that are not made at once, and lists are made of others.
  | .unit => .ok _
  | .bool _ => .ok _
  | .int _ => .ok _
  | .float _ => .ok _
  | .string _ => .ok _
  | .symbol _ => .ok _
  | .type named => TypeTable.ends_render wellFounded named
  | .list items => .bind (ends_renderAll wellFounded items) fun _ => .ok _
  | .payload dialect bytes => ctx.dialects.ends_renderPayload dialect bytes

/-- The texts of attributes come to an end where no type is among its own parameters. -/
theorem ends_renderAll (wellFounded : WellFounded ctx.types.IsParameter) :
    (items : List Attribute) → Ends (renderAll ctx items)
  | [] => .ok _
  | item :: rest =>
    .bind (ends_render wellFounded item) fun _ =>
      .bind (ends_renderAll wellFounded rest) fun _ => .ok _

end

end Attribute

end NestedIR
