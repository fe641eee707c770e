import NestedIR.Proofs.Context.Request
import NestedIR.Proofs.TypeTable
import NestedIR.Proofs.TypeTable.Interning

/-! Which texts come to an end, where types may be parameters of types recorded before them. -/

namespace NestedIR

open Relation

namespace Ends

variable {α β : Type} {first : Except PrintError α} {next : α → Except PrintError β}

/-- What is put together in two parts comes to an end exactly where both parts do. -/
theorem bind_iff :
    Ends (first >>= next) ↔ Ends first ∧ ∀ answer, first = .ok answer → Ends (next answer) := by
  -- A first part that fails is all there is.
  cases first with
  | error reason => simp [Ends, Bind.bind, Except.bind]
  | ok answer =>
    have bound : Except.ok answer >>= next = next answer := rfl
    rw [bound]
    exact ⟨fun ends => ⟨.ok answer, fun _ same => Except.ok.inj same ▸ ends⟩,
      fun both => both.2 answer rfl⟩

/-- Texts that come to an end one after the other are found by every request that finds each. -/
theorem mapM_congr {request other : α → Except PrintError β} {items : List α}
    (same : ∀ item ∈ items, Ends (request item) → other item = request item)
    (ends : Ends (items.mapM request)) : items.mapM other = items.mapM request := by
  -- Behind the first item without a text, nothing is asked for.
  induction items with
  | nil => rfl
  | cons item rest ih =>
    rw [List.mapM_cons] at ends
    obtain ⟨endsItem, endsRest⟩ := bind_iff.mp ends
    rw [List.mapM_cons, List.mapM_cons, same item (by simp) endsItem]
    cases found : request item with
    | error reason => rfl
    | ok text =>
      have later := (bind_iff.mp (endsRest text found)).1
      rw [ih (fun other listed => same other (by simp [listed])) later]

/-- Texts come to an end one after the other exactly where each one that is asked for does. -/
theorem mapM_iff {request : α → Except PrintError β} {items : List α} :
    Ends (items.mapM request) ↔ ∀ front item back, items = front ++ item :: back →
      (∀ earlier ∈ front, ∃ text, request earlier = .ok text) → Ends (request item) := by
  induction items with
  | nil =>
    refine iff_of_true (.ok []) fun front item back split => ?_
    simp at split
  | cons first rest ih =>
    -- The first text is asked for, and after it the others, unless it fails.
    rw [List.mapM_cons, bind_iff]
    constructor
    -- What comes later is asked for only once the first text is there.
    · intro both front item back split found
      cases front with
      | nil =>
        obtain ⟨rfl, -⟩ := List.cons.inj split
        exact both.1
      | cons head front =>
        obtain ⟨rfl, rfl⟩ := List.cons.inj split
        obtain ⟨text, foundFirst⟩ := found first (by simp)
        have later := (bind_iff.mp (both.2 text foundFirst)).1
        exact ih.mp later front item back rfl fun earlier listed => found earlier (by simp [listed])
    · intro each
      refine ⟨each [] first rest rfl (by simp), fun text foundFirst =>
        bind_iff.mpr ⟨?_, fun _ _ => .ok _⟩⟩
      -- Each further text is asked for behind the first one and all before it.
      refine ih.mpr fun front item back split found => ?_
      refine each (first :: front) item back (by rw [split]; rfl) fun earlier listed => ?_
      rcases List.mem_cons.mp listed with rfl | listed
      · exact ⟨text, foundFirst⟩
      · exact found earlier listed

end Ends

namespace TypeTable

variable {types : TypeTable} {type : TypeId} {data : TypeData}

/-- The text of a type asks for that of a parameter when the parameters before it have texts. -/
def AsksFor (types : TypeTable) (inner outer : TypeId) : Prop :=
  ∃ data front back, types.get? outer = some data ∧ data.params = front ++ inner :: back ∧
    ∀ earlier ∈ front, ∃ text, types.render earlier = .ok text

/-- What the text of a type asks for is a parameter. -/
theorem AsksFor.isParameter {inner outer : TypeId} (asks : types.AsksFor inner outer) :
    types.IsParameter inner outer := by
  obtain ⟨data, front, back, found, split, -⟩ := asks
  exact ⟨data, found, by simp [split]⟩

/-- Only what the parameters come to decides whether a text of some depth comes to an end. -/
theorem ends_renderWithin_succ {depth : Nat} (found : types.get? type = some data) :
    Ends (types.renderWithin (depth + 1) type) ↔
      Ends (data.params.mapM (types.renderWithin depth)) := by
  rw [renderWithin, found]
  show Ends (data.params.mapM (types.renderWithin depth) >>= _) ↔ _
  exact Ends.bind_iff.trans (and_iff_left fun _ _ => .ok _)

/-- A text that comes to an end at some depth is found at every greater one. -/
theorem renderWithin_eq_of_ends {depth deeper : Nat} (le : depth ≤ deeper)
    (ends : Ends (types.renderWithin depth type)) :
    types.renderWithin deeper type = types.renderWithin depth type := by
  -- Parameters nest one step less deep in both.
  induction depth generalizing deeper type with
  | zero => exact absurd rfl (ends type)
  | succ depth ih =>
    obtain ⟨more, rfl⟩ : ∃ more, deeper = more + 1 := ⟨deeper - 1, by omega⟩
    cases found : types.get? type with
    | none => simp only [renderWithin, found]
    | some data =>
      have params : data.params.mapM (types.renderWithin more) =
          data.params.mapM (types.renderWithin depth) :=
        Ends.mapM_congr (fun param _ => ih (Nat.le_of_succ_le_succ le))
          ((ends_renderWithin_succ found).mp ends)
      simp only [renderWithin, found, params]

/-- A text with some depth left comes to an end if that is enough for what it asks for. -/
theorem ends_renderWithin_of_shallow {depth : Nat} (le : depth ≤ types.size + 1)
    (shallow : Shallow (fun outer inner => types.AsksFor inner outer) depth type) :
    Ends (types.renderWithin depth type) := by
  induction depth generalizing type with
  | zero => cases shallow
  | succ depth ih =>
    cases found : types.get? type with
    | none =>
      intro other failed
      simp only [renderWithin, found] at failed
      cases failed
    | some data =>
      refine (ends_renderWithin_succ found).mpr (Ends.mapM_iff.mpr ?_)
      intro front param back split texts
      refine ih (by omega) (shallow param ⟨data, front, back, found, split, ?_⟩)
      -- A text that is found with less depth is found with all of it.
      intro earlier listed
      obtain ⟨text, foundText⟩ := texts earlier listed
      have ends : Ends (types.renderWithin depth earlier) := foundText ▸ .ok text
      exact ⟨text, (renderWithin_eq_of_ends (by omega) ends).trans foundText⟩

/-- What the text of a type asks for comes to an end if that text does. -/
theorem acc_of_ends_renderWithin {depth : Nat} (le : depth ≤ types.size + 1)
    (ends : Ends (types.renderWithin depth type)) : Acc types.AsksFor type := by
  induction depth generalizing type with
  | zero => exact absurd rfl (ends type)
  | succ depth ih =>
    refine .intro type fun inner asks => ?_
    obtain ⟨data, front, back, found, split, texts⟩ := asks
    have each := Ends.mapM_iff.mp ((ends_renderWithin_succ found).mp ends)
    -- The parameters in front have texts, which are found with less depth as well.
    suffices earlier : ∀ done rest, front = done ++ rest →
        ∀ param ∈ done, ∃ text, types.renderWithin depth param = .ok text by
      exact ih (by omega) (each front inner back split (earlier front [] (by simp)))
    intro done
    induction done using List.reverseRecOn with
    | nil => simp
    | append_singleton done param ihDone =>
      intro rest splitFront other listed
      have before := ihDone (param :: rest) (by simpa using splitFront)
      rcases List.mem_append.mp listed with listed | listed
      · exact before other listed
      · cases List.mem_singleton.mp listed
        obtain ⟨text, foundText⟩ := texts param (by simp [splitFront])
        have endsParam := each done param (rest ++ inner :: back)
          (by simp [split, splitFront]) before
        exact ⟨text, (renderWithin_eq_of_ends (by omega) endsParam).symm.trans foundText⟩

/-- A text comes to an end exactly where no chain of types that are asked for is endless. -/
theorem ends_render_iff_acc : Ends (types.render type) ↔ Acc types.AsksFor type :=
  ⟨acc_of_ends_renderWithin le_rfl, fun acc => ends_renderWithin_of_shallow le_rfl
    (shallow_of_acc (fun _ _ => AsksFor.isParameter) acc)⟩

/-- A new type has its parameters, and every other type has those that it had. -/
theorem isParameter_intern_iff (new : data ∉ types.entries) {inner outer : TypeId} :
    (types.intern data).2.IsParameter inner outer ↔
      types.IsParameter inner outer ∨ outer = ⟨types.size⟩ ∧ inner ∈ data.params := by
  simp only [IsParameter, get?_intern_of_not_mem new]
  by_cases isNew : outer = ⟨types.size⟩
  -- The new number was not given to any type before.
  · have unknown : types.get? ⟨types.size⟩ = none := by simp [get?, size]
    simp [isNew, unknown]
  · simp [isNew]

/-- A type closes a cycle when it is new and would be among its own parameters. -/
def ClosesCycle (types : TypeTable) (data : TypeData) : Prop :=
  data ∉ types.entries ∧ ∃ param ∈ data.params,
    ReflTransGen types.IsParameter ⟨types.size⟩ param

/-- Of types that are not among their own parameters, recording one more keeps exactly that. -/
theorem wellFounded_intern_iff :
    WellFounded (types.intern data).2.IsParameter ↔
      WellFounded types.IsParameter ∧ ¬ types.ClosesCycle data := by
  by_cases known : data ∈ types.entries
  · rw [intern_of_mem known]
    exact ⟨fun wellFounded => ⟨wellFounded, fun closes => closes.1 known⟩, And.left⟩
  · have step {inner outer : TypeId} := @isParameter_intern_iff types data known inner outer
    constructor
    · intro wellFounded
      refine ⟨Subrelation.wf (fun param => step.mpr (.inl param)) wellFounded, fun closes => ?_⟩
      -- The way from the new type to itself would have led back through its parameter.
      obtain ⟨-, param, listed, down⟩ := closes
      have path := ReflTransGen.mono (fun _ _ param => step.mpr (.inl param)) _ _ down
      have around := TransGen.tail' path (step.mpr (.inr ⟨rfl, listed⟩))
      exact wellFounded.transGen.irrefl.irrefl _ around
    · intro both
      obtain ⟨wellFounded, unclosed⟩ := both
      -- What does not have the new type below it has the same parameters as before.
      have apart (type : TypeId) (free : ¬ ReflTransGen types.IsParameter ⟨types.size⟩ type) :
          Acc (types.intern data).2.IsParameter type := by
        induction type using wellFounded.induction with
        | h type ih =>
          refine .intro type fun inner param => ?_
          rcases step.mp param with old | ⟨rfl, -⟩
          · exact ih inner old fun down => free (down.tail old)
          · exact absurd .refl free
      have new : Acc (types.intern data).2.IsParameter ⟨types.size⟩ := by
        refine .intro _ fun inner param => ?_
        rcases step.mp param with ⟨held, found, -⟩ | ⟨-, listed⟩
        · simp [get?, size] at found
        · exact apart inner fun down => unclosed ⟨known, inner, listed, down⟩
      refine ⟨fun type => ?_⟩
      induction type using wellFounded.induction with
      | h type ih =>
        refine .intro type fun inner param => ?_
        rcases step.mp param with old | ⟨rfl, listed⟩
        · exact ih inner old
        · exact new.inv param

/-- No type is among its own parameters exactly where none closed a cycle when it was recorded. -/
theorem wellFounded_internAll_iff {recorded : List TypeData} :
    WellFounded (internAll recorded).IsParameter ↔
      ∀ front data back, recorded = front ++ data :: back →
        ¬ (internAll front).ClosesCycle data := by
  -- The type that is recorded last comes last, so the list is taken apart from its end.
  induction recorded using List.reverseRecOn with
  | nil =>
    refine iff_of_true ⟨fun type => .intro type fun inner param => ?_⟩ (by simp)
    obtain ⟨data, found, -⟩ := param
    simp [internAll, get?] at found
  | append_singleton recorded last ih =>
    rw [internAll_concat, wellFounded_intern_iff, ih]
    constructor
    · intro both front data back split
      rcases List.eq_nil_or_concat back with rfl | ⟨rest, final, rfl⟩
      · obtain ⟨rfl, same⟩ := List.append_inj' split rfl
        cases same
        exact both.2
      · rw [List.concat_eq_append, ← List.cons_append, ← List.append_assoc] at split
        obtain ⟨rfl, -⟩ := List.append_inj' split rfl
        exact both.1 front data rest rfl
    · intro never
      refine ⟨fun front data back split => never front data (back ++ [last]) ?_,
        never recorded last [] rfl⟩
      simp [split]

end TypeTable

namespace Attribute

variable {ctx : Context} {type : TypeId}

mutual

/-- The text of an attribute comes to that of a type, unless something before it has no text. -/
def Reaches (ctx : Context) (type : TypeId) : Attribute → Prop
  | .type named => named = type
  | .list items => ReachesAmong ctx type items
  | _ => False
termination_by structural value => value

/-- The texts of attributes come to that of a type, unless something before it has no text. -/
def ReachesAmong (ctx : Context) (type : TypeId) : List Attribute → Prop
  | [] => False
  | item :: rest => item.Reaches ctx type ∨
    (∃ text, item.render ctx = .ok text) ∧ ReachesAmong ctx type rest
termination_by structural items => items

end

mutual

/-- The text of an attribute comes to an end exactly where those of the types it comes to do. -/
theorem ends_render_iff : (value : Attribute) →
    (Ends (value.render ctx) ↔ ∀ type, value.Reaches ctx type → Ends (ctx.types.render type))
  -- Only a type or a part of a list leads to types, because payloads are written by their dialects.
  | .unit => iff_of_true (.ok _) fun _ reaches => reaches.elim
  | .bool _ => iff_of_true (.ok _) fun _ reaches => reaches.elim
  | .int _ => iff_of_true (.ok _) fun _ reaches => reaches.elim
  | .float _ => iff_of_true (.ok _) fun _ reaches => reaches.elim
  | .string _ => iff_of_true (.ok _) fun _ reaches => reaches.elim
  | .symbol _ => iff_of_true (.ok _) fun _ reaches => reaches.elim
  | .type named => ⟨fun ends _ same => same ▸ ends, fun each => each named rfl⟩
  | .list items =>
    (Ends.bind_iff.trans (and_iff_left fun _ _ => .ok _)).trans (ends_renderAll_iff items)
  | .payload dialect bytes =>
    iff_of_true (ctx.dialects.ends_renderPayload dialect bytes) fun _ reaches => reaches.elim

/-- The texts of attributes come to an end exactly where those of the types they come to do. -/
theorem ends_renderAll_iff : (items : List Attribute) →
    (Ends (renderAll ctx items) ↔
      ∀ type, ReachesAmong ctx type items → Ends (ctx.types.render type))
  | [] => iff_of_true (.ok _) fun _ reaches => reaches.elim
  | item :: rest => by
    -- The texts of the others are asked for only once there is the first one.
    have later : Ends (renderAll ctx (item :: rest)) ↔ Ends (item.render ctx) ∧
        ∀ text, item.render ctx = .ok text → Ends (renderAll ctx rest) :=
      Ends.bind_iff.trans (and_congr_right' (forall₂_congr fun _ _ =>
        Ends.bind_iff.trans (and_iff_left fun _ _ => .ok _)))
    rw [later, ends_render_iff item, ends_renderAll_iff rest]
    constructor
    · rintro ⟨first, others⟩ type (reaches | ⟨⟨text, found⟩, reaches⟩)
      · exact first type reaches
      · exact others text found type reaches
    · intro each
      exact ⟨fun type reaches => each type (.inl reaches),
        fun text found type reaches => each type (.inr ⟨⟨text, found⟩, reaches⟩)⟩

end

end Attribute

/-- Describing an operation comes to an end exactly where the texts of its attributes do. -/
theorem Operation.ends_describe_iff {ctx : Context} {op : OpId} {data : Operation} :
    (∀ key tag type,
        .unprintedAttribute key tag (.endlessType type) ∉ (data.describe ctx op).issues) ↔
      ∀ entry ∈ data.attributes.entries, Ends (entry.2.render ctx) := by
  -- Every attribute without a text is among the issues, with the reason.
  constructor
  · intro none entry listed type failed
    refine none entry.1 entry.2.tag type (List.mem_append_right _ ?_)
    exact List.mem_filterMap.mpr ⟨entry, listed, by simp [Attribute.issue?, failed]⟩
  · intro ends key tag type listed
    rcases List.mem_append.mp listed with ofSymbol | ofAttribute
    · rw [Option.mem_toList, Operation.issue?] at ofSymbol
      split at ofSymbol <;> cases ofSymbol
    · obtain ⟨entry, inEntries, shown⟩ := List.mem_filterMap.mp ofAttribute
      change Attribute.issue? ctx entry.1 entry.2 = _ at shown
      rw [Attribute.issue?] at shown
      split at shown
      · cases shown
      · rename_i reason failed
        cases shown
        exact ends entry inEntries type failed

/--
Types may be recorded before their parameters, but a new one may not be among its own parameters.
Where that is so for all that were recorded, all texts come to an end, and only there is no type
among its own parameters.

In any case, the text of an attribute comes to an end unless it comes to an endless chain of types,
each of which asks for the text of the next one. Describing an operation, as a dump does for each of
its lines about one, comes to an end exactly where the texts of its attributes do.
-/
theorem ends_render_of_interned {ctx : Context} {recorded : List TypeData}
    (interned : ctx.types = .internAll recorded) :
    (WellFounded ctx.types.IsParameter ↔ ∀ front data back, recorded = front ++ data :: back →
        ¬ (TypeTable.internAll front).ClosesCycle data) ∧
      (WellFounded ctx.types.IsParameter → ∀ value : Attribute, Ends (value.render ctx)) ∧
      (∀ value : Attribute, ¬ Ends (value.render ctx) ↔ ∃ chain : Nat → TypeId,
        value.Reaches ctx (chain 0) ∧
          ∀ place, ctx.types.AsksFor (chain (place + 1)) (chain place)) ∧
      ∀ op (data : Operation), (∀ key tag type,
          .unprintedAttribute key tag (.endlessType type) ∉ (data.describe ctx op).issues) ↔
        ∀ entry ∈ data.attributes.entries, Ends (entry.2.render ctx) := by
  -- The first part is about the table alone, and the last one about each attribute on its own.
  refine ⟨interned ▸ TypeTable.wellFounded_internAll_iff, Attribute.ends_render, fun value => ?_,
    fun _ _ => Operation.ends_describe_iff⟩
  -- A chain without end from a type is what keeps that type from being accessible.
  simp only [Attribute.ends_render_iff, TypeTable.ends_render_iff_acc, not_forall,
    not_acc_iff_exists_descending_chain]
  constructor
  · rintro ⟨type, reaches, chain, rfl, asks⟩
    exact ⟨chain, reaches, asks⟩
  · rintro ⟨chain, reaches, asks⟩
    exact ⟨chain 0, reaches, chain, rfl, asks⟩

/-- A pair that is recorded before the type of its parts, which takes the number that it names. -/
def pairBeforeParts : List TypeData := [⟨"core", "pair", [⟨1⟩, ⟨1⟩]⟩, ⟨"core", "i1", []⟩]

/-- The pair comes before its parts, but not in a cycle, so that its text comes to an end. -/
theorem ends_render_of_interned_pairBeforeParts :
    ∃ ctx, Context.build (pairBeforeParts.map .internType) = .ok ctx ∧
      ctx.types = .internAll pairBeforeParts ∧ ctx.types.IsParameter ⟨1⟩ ⟨0⟩ ∧
      WellFounded ctx.types.IsParameter ∧ ∀ value : Attribute, Ends (value.render ctx) := by
  obtain ⟨ctx, built, interned, param⟩ : ∃ ctx,
      Context.build (pairBeforeParts.map .internType) = .ok ctx ∧
        ctx.types = .internAll pairBeforeParts ∧ ctx.types.IsParameter ⟨1⟩ ⟨0⟩ :=
    ⟨_, rfl, rfl, ⟨"core", "pair", [⟨1⟩, ⟨1⟩]⟩, by decide +kernel, by decide⟩
  obtain ⟨cycles, ends, -⟩ := ends_render_of_interned interned
  have wellFounded : WellFounded ctx.types.IsParameter := by
    refine cycles.mpr fun front data back split closes => ?_
    obtain ⟨-, param, listed, down⟩ := closes
    rcases front with _ | ⟨pair, _ | ⟨part, rest⟩⟩
    · -- Before the pair there is no type, so that nothing has a parameter.
      cases split
      rcases ReflTransGen.cases_head down with same | ⟨outer, ⟨held, found, -⟩, -⟩
      · rw [← same] at listed
        simp [TypeTable.internAll, TypeTable.size] at listed
      · simp [TypeTable.internAll, TypeTable.get?] at found
    · cases split
      cases listed
    · simp [pairBeforeParts] at split
  exact ⟨ctx, built, interned, param, wellFounded, ends wellFounded⟩

/-- A type that names its own number before it has it has no text that comes to an end. -/
theorem not_ends_ownParameter :
    ∃ ctx, Context.build [.internType ⟨"core", "own", [⟨0⟩]⟩] = .ok ctx ∧
      ctx.types = .internAll [⟨"core", "own", [⟨0⟩]⟩] ∧
      ¬ WellFounded ctx.types.IsParameter ∧ ctx.types.AsksFor ⟨0⟩ ⟨0⟩ ∧
      ¬ Ends ((Attribute.type ⟨0⟩).render ctx) := by
  -- The only type is recorded with the number that it is about to get.
  obtain ⟨ctx, built, interned, found⟩ : ∃ ctx,
      Context.build [.internType ⟨"core", "own", [⟨0⟩]⟩] = .ok ctx ∧
        ctx.types = .internAll [⟨"core", "own", [⟨0⟩]⟩] ∧
        ctx.types.get? ⟨0⟩ = some ⟨"core", "own", [⟨0⟩]⟩ :=
    ⟨_, rfl, rfl, by decide +kernel⟩
  have asks : ctx.types.AsksFor ⟨0⟩ ⟨0⟩ := ⟨_, [], [], found, rfl, by simp⟩
  refine ⟨ctx, built, interned, fun wellFounded => ?_, asks, fun ends => ?_⟩
  · exact wellFounded.irrefl.irrefl ⟨0⟩ asks.isParameter
  -- A type that asks for its own text is never reached by an induction along what is asked for.
  · have acc := TypeTable.ends_render_iff_acc.mp ends
    exact acc.rec (fun _ _ ih again => ih _ again again) asks

end NestedIR
