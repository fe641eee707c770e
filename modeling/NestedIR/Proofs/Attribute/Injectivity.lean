import NestedIR.Proofs.Attribute.Verbatim
import NestedIR.Proofs.Text.Delimiting

/-! An attribute without types, payloads or floating-point numbers can be told from its text. -/

namespace NestedIR

namespace Attribute

/-- An attribute that is made of markers, truth values, integers, texts, symbols and lists. -/
inductive SelfContained : Attribute → Prop where
  /-- A marker. -/
  | unit : SelfContained .unit
  /-- A truth value. -/
  | bool (value : Bool) : SelfContained (.bool value)
  /-- An integer. -/
  | int (value : Int64) : SelfContained (.int value)
  /-- Text. -/
  | string (text : String) : SelfContained (.string text)
  /-- A reference to a symbol. -/
  | symbol (name : String) : SelfContained (.symbol name)
  /-- A list of such attributes. -/
  | list {items : List Attribute} (each : ∀ item ∈ items, SelfContained item) :
    SelfContained (.list items)

variable {ctx ctx' : Context} {value other : Attribute}

/-- The texts of a list of attributes are that of the first one and those of the others. -/
theorem renderAll_cons_eq_ok {first : Attribute} {others : List Attribute} {texts : List String} :
    renderAll ctx (first :: others) = .ok texts ↔ ∃ text more, first.render ctx = .ok text ∧
      renderAll ctx others = .ok more ∧ texts = text :: more := by
  rw [renderAll, bind_eq_ok]
  simp only [bind_eq_ok, Pure.pure, Except.pure, Except.ok.injEq, exists_and_left,
    eq_comm (a := texts)]

/-- Where every item has a text, all of them together have texts. -/
theorem exists_renderAll {items : List Attribute}
    (each : ∀ item ∈ items, ∃ text, item.render ctx = .ok text) :
    ∃ texts, renderAll ctx items = .ok texts := by
  induction items with
  | nil => exact ⟨[], rfl⟩
  | cons first rest ih =>
    obtain ⟨text, rendered⟩ := each first (by simp)
    obtain ⟨texts, renderedRest⟩ := ih fun item listed => each item (by simp [listed])
    exact ⟨text :: texts, renderAll_cons_eq_ok.mpr ⟨text, texts, rendered, renderedRest, rfl⟩⟩

/-- A self-contained attribute has a text in every program. -/
theorem SelfContained.exists_render (selfContained : value.SelfContained) (ctx : Context) :
    ∃ text, value.render ctx = .ok text := by
  -- Only types and payloads can be without a text, and there are none.
  induction selfContained with
  | list each ih =>
    obtain ⟨texts, rendered⟩ := exists_renderAll ih
    exact ⟨_, bind_eq_ok.mpr ⟨texts, rendered, rfl⟩⟩
  | _ => exact ⟨_, rfl⟩

/-- Nothing in a self-contained attribute is written as it is. -/
theorem SelfContained.not_verbatim (selfContained : value.SelfContained) (part : String) :
    ¬ value.Verbatim ctx part := by
  -- Only items, types and payloads are written as they are, and of these a list has only items.
  induction selfContained with
  | list each ih =>
    rintro (_ | ⟨listed, inner⟩ | _)
    exact ih _ listed inner
  | _ => rintro ⟨⟩

/-- The text of a self-contained attribute has no control characters. -/
theorem SelfContained.clean_render (selfContained : value.SelfContained) {text : String}
    (rendered : value.render ctx = .ok text) : Text.Clean text.toList := by
  -- A control character would come from a text that is written as it is.
  intro char listed
  rw [← Bool.not_eq_true]
  intro control
  obtain ⟨part, verbatim, -⟩ := (mem_render_iff control value text rendered).mp listed
  exact selfContained.not_verbatim part verbatim

/-- The kind of attribute that a text begins like. -/
def tagOfLead (lead : Char) : Option String :=
  if lead.isDigit || lead = '-' then some "int"
  else match lead with
    | 'u' => some "unit"
    | 't' => some "bool"
    | 'f' => some "bool"
    | '\"' => some "string"
    | '@' => some "symbol"
    | '[' => some "list"
    | _ => none

/-- A text that begins with a digit is one of an integer. -/
theorem tagOfLead_digit {lead : Char} (isDigit : lead.isDigit = true) :
    tagOfLead lead = some "int" := by
  unfold tagOfLead
  rw [if_pos (by rw [isDigit]; rfl)]

/-- The text of a self-contained attribute begins like one of its kind. -/
theorem SelfContained.exists_lead (selfContained : value.SelfContained) {text : String}
    (rendered : value.render ctx = .ok text) :
    ∃ lead tail, text.toList = lead :: tail ∧ tagOfLead lead = some value.tag := by
  -- Each kind of attribute begins with a character that no other kind begins with.
  cases selfContained with
  | unit =>
    cases rendered
    exact ⟨'u', ['n', 'i', 't'], by decide, by decide⟩
  | bool value =>
    cases rendered
    cases value
    · exact ⟨'f', ['a', 'l', 's', 'e'], by decide, by decide⟩
    · exact ⟨'t', ['r', 'u', 'e'], by decide, by decide⟩
  | int value =>
    cases rendered
    have written := Text.toList_integer value.toInt
    -- A negative number begins with its sign, and any other number with its first digit.
    split at written
    · exact ⟨'-', _, written, rfl⟩
    · obtain ⟨first, others, split⟩ := List.exists_cons_of_ne_nil
        (Nat.toDigits_ne_nil (b := 10) (n := value.toInt.natAbs))
      have isDigit := Text.isDigit_of_mem_digits (split ▸ List.mem_cons_self)
      exact ⟨first, others, written.trans split, tagOfLead_digit isDigit⟩
  | string text =>
    cases rendered
    exact ⟨'\"', _, by rw [Text.quoted, String.append_assoc, String.toList_append]; rfl, rfl⟩
  | symbol name =>
    cases rendered
    -- A name is quoted or not, but the sign in front of it is written in both cases.
    rcases Text.renderSymbol_cases name with ⟨written, -⟩ | written
    · exact ⟨'@', _, written, rfl⟩
    · exact ⟨'@', _, written, rfl⟩
  | list each =>
    obtain ⟨texts, -, made⟩ := bind_eq_ok.mp rendered
    cases made
    exact ⟨'[', _, by rw [String.append_assoc, String.toList_append]; rfl, rfl⟩

/-- Two self-contained attributes of one kind. -/
inductive SameKind : Attribute → Attribute → Prop where
  /-- Two markers. -/
  | unit : SameKind .unit .unit
  /-- Two truth values. -/
  | bool (value value' : Bool) : SameKind (.bool value) (.bool value')
  /-- Two integers. -/
  | int (value value' : Int64) : SameKind (.int value) (.int value')
  /-- Two texts. -/
  | string (text text' : String) : SameKind (.string text) (.string text')
  /-- Two references. -/
  | symbol (name name' : String) : SameKind (.symbol name) (.symbol name')
  /-- Two lists. -/
  | list (items items' : List Attribute) : SameKind (.list items) (.list items')

/-- The tag of a self-contained attribute tells its kind. -/
theorem SelfContained.sameKind_of_tag (selfContained : value.SelfContained)
    (selfContainedToo : other.SelfContained) (tags : value.tag = other.tag) :
    SameKind value other := by
  -- Attributes of different kinds have different tags, which leaves the pairs of one kind.
  cases selfContained <;> cases selfContainedToo <;> simp [tag] at tags
  all_goals constructor

/-- Self-contained attributes that are written alike, whatever follows them, are of one kind. -/
theorem SelfContained.sameKind (selfContained : value.SelfContained)
    (selfContainedToo : other.SelfContained) {text text' : String} {rest rest' : List Char}
    (rendered : value.render ctx = .ok text) (rendered' : other.render ctx' = .ok text')
    (same : text.toList ++ rest = text'.toList ++ rest') : SameKind value other := by
  obtain ⟨lead, tail, begins, kind⟩ := selfContained.exists_lead rendered
  obtain ⟨lead', tail', begins', kind'⟩ := selfContainedToo.exists_lead rendered'
  -- One character leads both texts.
  rw [begins, begins', List.cons_append, List.cons_append, List.cons.injEq] at same
  rw [same.1, kind', Option.some.injEq] at kind
  exact selfContained.sameKind_of_tag selfContainedToo kind.symm

/-- An attribute can be told from its text and anything that may follow it. -/
def Legible (ctx ctx' : Context) (value : Attribute) : Prop :=
  ∀ other : Attribute, other.SelfContained → ∀ text text' rest rest',
    value.render ctx = .ok text → other.render ctx' = .ok text' →
    Text.Stops rest → Text.Stops rest' → text.toList ++ rest = text'.toList ++ rest' →
    value = other ∧ rest = rest'

/-- Texts behind commas, up to the end of a list. -/
def listTail (texts : List String) (rest : List Char) : List Char :=
  (texts.flatMap fun text => ',' :: ' ' :: text.toList) ++ ']' :: rest

/-- What is left of a list may follow an item. -/
theorem stops_listTail (texts : List String) (rest : List Char) :
    Text.Stops (listTail texts rest) := by
  cases texts <;> simp [listTail, Text.Stops]

/-- A list is written as its first item and what is left of it, in brackets. -/
theorem toList_list (texts : List String) (rest : List Char) :
    ("[" ++ commaSeparated texts ++ "]").toList ++ rest = '[' :: match texts with
      | [] => ']' :: rest
      | first :: others => first.toList ++ listTail others rest := by
  cases texts with
  | nil => rfl
  | cons first others => simp [Text.toList_commaSeparated, listTail]

/-- Items of lists that are written alike are the same, if each can be told from its text. -/
theorem listTail_inj {items items' : List Attribute}
    (legible : ∀ item ∈ items, Legible ctx ctx' item)
    (selfContained : ∀ item ∈ items', item.SelfContained) {texts texts' : List String}
    (rendered : renderAll ctx items = .ok texts) (rendered' : renderAll ctx' items' = .ok texts')
    {rest rest' : List Char} (same : listTail texts rest = listTail texts' rest') :
    items = items' ∧ rest = rest' := by
  -- Behind an item there is a comma in front of the next one, or the end.
  induction items generalizing items' texts texts' with
  -- A list that has ended is told from one with more items by the character behind it.
  | nil =>
    cases rendered
    cases items' with
    | nil =>
      cases rendered'
      exact ⟨rfl, (List.cons.inj same).2⟩
    | cons first' others' =>
      obtain ⟨text', texts', -, -, rfl⟩ := renderAll_cons_eq_ok.mp rendered'
      simp [listTail] at same
  | cons first others ih =>
    obtain ⟨text, texts, renderedFirst, renderedOthers, rfl⟩ := renderAll_cons_eq_ok.mp rendered
    cases items' with
    | nil =>
      cases rendered'
      simp [listTail] at same
    | cons first' others' =>
      obtain ⟨text', texts', renderedFirst', renderedOthers', rfl⟩ :=
        renderAll_cons_eq_ok.mp rendered'
      simp only [listTail, List.flatMap_cons, List.cons_append, List.append_assoc,
        List.cons.injEq, true_and] at same
      -- What is left of either list may follow an item, so that the items are told apart first.
      have contained := selfContained first' (by simp)
      obtain ⟨rfl, tails⟩ := legible first (by simp) first' contained text text' _ _ renderedFirst
        renderedFirst' (stops_listTail texts rest) (stops_listTail texts' rest') same
      obtain ⟨rfl, rests⟩ := ih (fun item listed => legible item (by simp [listed]))
        (fun item listed => selfContained item (by simp [listed])) renderedOthers renderedOthers'
        tails
      exact ⟨rfl, rests⟩

/-- The text of an item does not begin like the end of a list. -/
theorem SelfContained.ne_end (selfContained : value.SelfContained) {text : String}
    (rendered : value.render ctx = .ok text) {rest rest' : List Char} :
    ']' :: rest ≠ text.toList ++ rest' := by
  obtain ⟨lead, tail, begins, kind⟩ := selfContained.exists_lead rendered
  rw [begins]
  intro same
  rw [← (List.cons.inj same).1] at kind
  cases kind

/-- Lists that are written alike are the same, if each item can be told from its text. -/
theorem list_append_inj {items items' : List Attribute}
    (legible : ∀ item ∈ items, Legible ctx ctx' item)
    (selfContained : ∀ item ∈ items, item.SelfContained)
    (selfContainedToo : ∀ item ∈ items', item.SelfContained) {texts texts' : List String}
    (rendered : renderAll ctx items = .ok texts) (rendered' : renderAll ctx' items' = .ok texts')
    {rest rest' : List Char}
    (same : ("[" ++ commaSeparated texts ++ "]").toList ++ rest =
      ("[" ++ commaSeparated texts' ++ "]").toList ++ rest') : items = items' ∧ rest = rest' := by
  rw [toList_list, toList_list, List.cons.injEq] at same
  -- The first items tell whether both lists are empty.
  cases items with
  | nil =>
    cases rendered
    cases items' with
    | nil =>
      cases rendered'
      exact ⟨rfl, (List.cons.inj same.2).2⟩
    | cons first' others' =>
      obtain ⟨text', texts', renderedFirst', -, rfl⟩ := renderAll_cons_eq_ok.mp rendered'
      exact absurd same.2 ((selfContainedToo first' (by simp)).ne_end renderedFirst')
  | cons first others =>
    obtain ⟨text, texts, renderedFirst, -, rfl⟩ := renderAll_cons_eq_ok.mp rendered
    cases items' with
    | nil =>
      cases rendered'
      exact absurd same.2.symm ((selfContained first (by simp)).ne_end renderedFirst)
    | cons first' others' =>
      obtain ⟨text', texts', -, -, rfl⟩ := renderAll_cons_eq_ok.mp rendered'
      -- With a comma in front of both, the lists are what is left of longer ones.
      refine listTail_inj legible selfContainedToo rendered rendered' ?_
      simpa [listTail] using same.2

/-- A self-contained attribute can be told from its text. -/
theorem SelfContained.legible (selfContained : value.SelfContained) (ctx ctx' : Context) :
    Legible ctx ctx' value := by
  -- The induction is on the value. The other one is of its kind, and has to be the same.
  induction selfContained with
  -- Fixed texts are told apart by their first characters, and end where they end.
  | unit =>
    intro other contained text text' rest rest' rendered rendered' stops stops' same
    cases SelfContained.unit.sameKind contained rendered rendered' same
    cases rendered
    cases rendered'
    exact ⟨rfl, List.append_cancel_left same⟩
  | bool value =>
    intro other contained text text' rest rest' rendered rendered' stops stops' same
    cases (SelfContained.bool value).sameKind contained rendered rendered' same with
    | bool _ value' =>
      cases rendered
      cases rendered'
      cases value <;> cases value'
      · exact ⟨rfl, List.append_cancel_left same⟩
      · exact absurd (List.cons.inj same).1 (by decide)
      · exact absurd (List.cons.inj same).1 (by decide)
      · exact ⟨rfl, List.append_cancel_left same⟩
  -- Behind a number there is no further digit.
  | int value =>
    intro other contained text text' rest rest' rendered rendered' stops stops' same
    cases (SelfContained.int value).sameKind contained rendered rendered' same with
    | int _ value' =>
      cases rendered
      cases rendered'
      obtain ⟨numbers, rests⟩ := Text.integer_append_inj stops stops' same
      exact ⟨congrArg Attribute.int (Int64.toInt_inj.mp numbers), rests⟩
  -- Quoted texts end with their closing quote, whatever follows.
  | string text =>
    intro other contained text text' rest rest' rendered rendered' stops stops' same
    cases (SelfContained.string _).sameKind contained rendered rendered' same with
    | string _ text' =>
      cases rendered
      cases rendered'
      exact (Text.quoted_append_inj same).imp_left (congrArg Attribute.string)
  -- A name that is not quoted ends with the character that stops it.
  | symbol name =>
    intro other contained text text' rest rest' rendered rendered' stops stops' same
    cases (SelfContained.symbol name).sameKind contained rendered rendered' same with
    | symbol _ name' =>
      cases rendered
      cases rendered'
      exact (Text.renderSymbol_append_inj stops stops' same).imp_left (congrArg Attribute.symbol)
  -- The items of a list are told apart by the induction, one after the other.
  | list each ih =>
    intro other contained text text' rest rest' rendered rendered' stops stops' same
    cases (SelfContained.list each).sameKind contained rendered rendered' same with
    | list items items' =>
      obtain ⟨texts, renderedAll, made⟩ := bind_eq_ok.mp rendered
      obtain ⟨texts', renderedAll', made'⟩ := bind_eq_ok.mp rendered'
      cases made
      cases made'
      cases contained with
      | list eachToo =>
        exact (list_append_inj ih each eachToo renderedAll renderedAll' same).imp_left
          (congrArg Attribute.list)

/--
Attributes that are made of markers, truth values, integers, texts, symbols and lists have a text
in every program, without control characters, and different ones have different texts in any two
programs. What is written between the quotes of a text has its escapes undone from left to right to
give the text, and no quote in it closes it.
-/
theorem eq_of_render_eq (ctx ctx' : Context) :
    (∀ value : Attribute, value.SelfContained →
      ∃ text, value.render ctx = .ok text ∧ Text.Clean text.toList) ∧
    (∀ value other : Attribute, value.SelfContained → other.SelfContained →
      value.render ctx = other.render ctx' → value = other) ∧
    ∀ text : String,
      (Attribute.string text).render ctx = .ok ("\"" ++ Text.escape text ++ "\"") ∧
      Text.unescape (Text.escape text).toList = some text.toList ∧
      Text.closeQuote (Text.escape text).toList = none := by
  refine ⟨fun value selfContained => ?_, fun value other selfContained contained same => ?_,
    fun text => ⟨rfl, Text.unescape_escape text, ?_⟩⟩
  · obtain ⟨text, rendered⟩ := selfContained.exists_render ctx
    exact ⟨text, rendered, selfContained.clean_render rendered⟩
  · -- Whole texts are those that nothing follows.
    obtain ⟨text, rendered⟩ := selfContained.exists_render ctx
    have stops : Text.Stops [] := by simp [Text.Stops]
    exact (selfContained.legible ctx ctx' other contained text text [] [] rendered
      (same ▸ rendered) stops stops rfl).1
  · have closed := Text.closeQuote_escape text []
    rwa [List.append_nil] at closed

/-- A list whose names and texts hold separators, brackets, escapes and control characters. -/
def separatorsInside : Attribute :=
  .list [.list [.symbol "a, @b"], .string "@a\\\", [\n\x07", .int (-3), .bool true, .unit]

/-- A list that has the separators between its parts instead. -/
def separatorsOutside : Attribute :=
  .list [.list [.symbol "a", .symbol "b"], .string "@a\\", .list [], .int (-3), .bool true, .unit]

/-- Separators in names and texts are told from those between the parts of a list. -/
theorem eq_of_render_eq_separators :
    separatorsInside.SelfContained ∧ separatorsOutside.SelfContained ∧
    (∃ text, separatorsInside.render {} = .ok text ∧ Text.Clean text.toList) ∧
    separatorsInside.render {} ≠ separatorsOutside.render {} := by
  -- Every part of both lists is of a kind that shows all that it holds.
  have inside : separatorsInside.SelfContained := by
    refine .list fun item listed => ?_
    simp only [List.mem_cons, List.not_mem_nil, or_false] at listed
    rcases listed with rfl | rfl | rfl | rfl | rfl
    · exact .list fun item listed => List.mem_singleton.mp listed ▸ .symbol "a, @b"
    all_goals constructor
  have outside : separatorsOutside.SelfContained := by
    refine .list fun item listed => ?_
    simp only [List.mem_cons, List.not_mem_nil, or_false] at listed
    rcases listed with rfl | rfl | rfl | rfl | rfl | rfl
    · refine .list fun item listed => ?_
      simp only [List.mem_cons, List.not_mem_nil, or_false] at listed
      rcases listed with rfl | rfl <;> constructor
    · constructor
    · exact .list fun item listed => absurd listed List.not_mem_nil
    all_goals constructor
  -- Equal texts would make the lists equal, which they are not.
  obtain ⟨texts, equal, -⟩ := eq_of_render_eq {} {}
  refine ⟨inside, outside, texts _ inside, fun same => ?_⟩
  exact absurd (equal _ _ inside outside same) (by decide +kernel)

end Attribute

end NestedIR
