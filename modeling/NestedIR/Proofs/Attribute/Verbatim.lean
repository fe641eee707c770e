import NestedIR.Description
import NestedIR.Proofs.Context.Listing
import NestedIR.Proofs.Text

/-! Only some texts in an attribute or an operation are written as they are, without an escape. -/

namespace NestedIR

/-- The texts that are written as they are for a type: the names in it and in its parameters. -/
inductive TypeTable.Verbatim (types : TypeTable) : TypeId → String → Prop where
  /-- The dialect that owns the type. -/
  | dialect {type : TypeId} {data : TypeData} (found : types.get? type = some data) :
    Verbatim types type data.dialect
  /-- The name inside the dialect. -/
  | name {type : TypeId} {data : TypeData} (found : types.get? type = some data) :
    Verbatim types type data.name
  /-- What is written as it is for a parameter. -/
  | param {type param : TypeId} {data : TypeData} {text : String}
    (found : types.get? type = some data) (listed : param ∈ data.params)
    (inner : Verbatim types param text) : Verbatim types type text

/-- The texts that are written as they are for an attribute with a text. -/
inductive Attribute.Verbatim (ctx : Context) : Attribute → String → Prop where
  /-- What is written as it is for a type. -/
  | type {named : TypeId} {text : String} (inner : ctx.types.Verbatim named text) :
    Verbatim ctx (.type named) text
  /-- What is written as it is for an item of a list. -/
  | item {items : List Attribute} {item : Attribute} {text : String} (listed : item ∈ items)
    (inner : Verbatim ctx item text) : Verbatim ctx (.list items) text
  /-- What a dialect prints for a payload. -/
  | payload {dialect : String} {bytes : List UInt8} {text : String}
    (printed : ctx.dialects.renderPayload dialect bytes = .ok text) :
    Verbatim ctx (.payload dialect bytes) text

/-- The texts that are written as they are for an operation, on its own lines in a dump. -/
inductive Operation.Verbatim (ctx : Context) (data : Operation) : String → Prop where
  /-- The name of the operation. -/
  | name : Verbatim ctx data data.name.toText
  /-- The symbol, when the operation is of a kind that defines one. -/
  | symbol {symbol : String} (defined : data.symbolInfo?.bind Prod.snd = some symbol) :
    Verbatim ctx data symbol
  /-- The key of an attribute. -/
  | key {entry : String × Attribute} (listed : entry ∈ data.attributes.entries) :
    Verbatim ctx data entry.1
  /-- What is written as it is for an attribute with a text. -/
  | value {entry : String × Attribute} {text part : String}
    (listed : entry ∈ data.attributes.entries) (rendered : entry.2.render ctx = .ok text)
    (inner : entry.2.Verbatim ctx part) : Verbatim ctx data part
  /-- The dialect of a payload without a text, which is named in the tag. -/
  | dialect {key dialect : String} {bytes : List UInt8} {reason : PrintError}
    (listed : (key, .payload dialect bytes) ∈ data.attributes.entries)
    (failed : ctx.dialects.renderPayload dialect bytes = .error reason) :
    Verbatim ctx data dialect

section Render

variable {ctx : Context} {char : Char}

/-- What is written as it is for a type is a name of its own, or is so for a parameter. -/
theorem TypeTable.exists_verbatim_iff {types : TypeTable} {type : TypeId} {data : TypeData}
    (found : types.get? type = some data) (shows : String → Prop) :
    (∃ part, types.Verbatim type part ∧ shows part) ↔
      (shows data.dialect ∨ shows data.name) ∨
        ∃ param ∈ data.params, ∃ part, types.Verbatim param part ∧ shows part := by
  -- Each way in which a part is written is the first name, the second name or one of a parameter.
  constructor
  · intro verbatim
    obtain ⟨part, verbatim, shown⟩ := verbatim
    cases verbatim with
    | dialect again =>
      cases found.symm.trans again
      exact .inl (.inl shown)
    | name again =>
      cases found.symm.trans again
      exact .inl (.inr shown)
    | param again listed inner =>
      cases found.symm.trans again
      exact .inr ⟨_, listed, part, inner, shown⟩
  · rintro ((shown | shown) | ⟨param, listed, part, inner, shown⟩)
    · exact ⟨_, .dialect found, shown⟩
    · exact ⟨_, .name found, shown⟩
    · exact ⟨part, .param found listed inner, shown⟩

/-- What is written as it is for a list is so for an item of it. -/
theorem Attribute.exists_verbatim_list_iff {items : List Attribute} (shows : String → Prop) :
    (∃ part, (Attribute.list items).Verbatim ctx part ∧ shows part) ↔
      ∃ item ∈ items, ∃ part, item.Verbatim ctx part ∧ shows part := by
  constructor
  · rintro ⟨part, ⟨⟩ | ⟨listed, inner⟩ | ⟨⟩, shown⟩
    exact ⟨_, listed, part, inner, shown⟩
  · rintro ⟨item, listed, part, inner, shown⟩
    exact ⟨part, .item listed inner, shown⟩

/-- A control character in the text of a type comes from a name in it. -/
theorem TypeTable.mem_renderWithin_iff (control : Text.isControl char = true) {types : TypeTable}
    {depth : Nat} {type : TypeId} {text : String}
    (rendered : types.renderWithin depth type = .ok text) :
    char ∈ text.toList ↔ ∃ part, types.Verbatim type part ∧ char ∈ part.toList := by
  -- Parameters are written with one step of depth less.
  induction depth generalizing type text with
  | zero => cases rendered
  | succ depth ih =>
    rw [renderWithin] at rendered
    cases found : types.get? type with
    | none =>
      rw [found] at rendered
      cases rendered
    | some data =>
      rw [found] at rendered
      obtain ⟨params, mapped, made⟩ := bind_eq_ok.mp rendered
      obtain ⟨shown, rfl, each⟩ := exists_map_of_mapM mapped
      have inner : (∃ param ∈ data.params, char ∈ (shown param).toList) ↔
          ∃ param ∈ data.params, ∃ part, types.Verbatim param part ∧ char ∈ part.toList :=
        exists_congr fun param => and_congr_right fun listed => ih (each param listed)
      rw [exists_verbatim_iff found, ← inner]
      cases made
      split
      · rename_i empty
        have none : data.params = [] := by simpa using empty
        have name : char ∈ (data.dialect ++ "." ++ data.name).toList ↔
            char ∈ data.dialect.toList ∨ char ∈ data.name.toList := by
          simp (disch := decide) only [String.toList_append, List.mem_append,
            Text.mem_clean_iff control, or_false]
        simp only [name, none, List.not_mem_nil, false_and, exists_false, or_false]
      · simp (disch := decide) only [String.toList_append, List.mem_append,
          Text.mem_clean_iff control, Text.mem_commaSeparated_iff control, List.mem_map,
          exists_exists_and_eq_and, or_false]

mutual

/-- A control character in the text of an attribute comes from a text written as it is. -/
theorem Attribute.mem_render_iff (control : Text.isControl char = true) :
    (value : Attribute) → (text : String) → value.render ctx = .ok text →
      (char ∈ text.toList ↔ ∃ part, value.Verbatim ctx part ∧ char ∈ part.toList)
  -- Fixed texts, numbers and escaped texts are clean, so that only types and payloads remain.
  | .unit, _, rendered => by
    cases rendered
    exact iff_of_false (Text.Clean.not_mem (by decide) control) nofun
  | .bool value, _, rendered => by
    cases rendered
    refine iff_of_false (Text.Clean.not_mem ?_ control) nofun
    cases value <;> decide
  | .int value, _, rendered => by
    cases rendered
    exact iff_of_false ((Text.clean_integer value.toInt).not_mem control) nofun
  | .float bits, _, rendered => by
    cases rendered
    exact iff_of_false ((Binary64.clean_toText (.ofBits bits)).not_mem control) nofun
  | .string text, _, rendered => by
    cases rendered
    exact iff_of_false ((Text.clean_quoted text).not_mem control) nofun
  | .symbol name, _, rendered => by
    cases rendered
    exact iff_of_false ((Text.clean_renderSymbol name).not_mem control) nofun
  | .type named, text, rendered => by
    rw [TypeTable.mem_renderWithin_iff control rendered]
    -- What stands verbatim in the attribute is what stands verbatim in the type.
    refine exists_congr fun part => and_congr_left fun _ => ⟨.type, fun verbatim => ?_⟩
    cases verbatim with
    | type inner => exact inner
  | .list items, text, rendered => by
    obtain ⟨texts, mapped, made⟩ := bind_eq_ok.mp rendered
    cases made
    -- Between the brackets and separators, which are clean, stand the texts of the items.
    rw [Attribute.exists_verbatim_list_iff,
      ← Attribute.mem_renderAll_iff control items texts mapped]
    simp (disch := decide) only [String.toList_append, List.mem_append,
      Text.mem_clean_iff control, Text.mem_commaSeparated_iff control, or_false, false_or]
  | .payload dialect bytes, text, rendered => by
    -- The dialect writes all of its text as it is.
    refine ⟨fun shown => ⟨text, .payload rendered, shown⟩, fun shown => ?_⟩
    obtain ⟨part, verbatim, shown⟩ := shown
    cases verbatim with
    | payload printed =>
      cases rendered.symm.trans printed
      exact shown

/-- A control character in the texts of attributes comes from a text written as it is. -/
theorem Attribute.mem_renderAll_iff (control : Text.isControl char = true) :
    (items : List Attribute) → (texts : List String) → renderAll ctx items = .ok texts →
      ((∃ text ∈ texts, char ∈ text.toList) ↔
        ∃ item ∈ items, ∃ part, item.Verbatim ctx part ∧ char ∈ part.toList)
  | [], _, rendered => by
    cases rendered
    simp
  | item :: rest, _, rendered => by
    -- The first text was found, and after it the others.
    obtain ⟨first, renderedFirst, rendered⟩ := bind_eq_ok.mp rendered
    obtain ⟨others, renderedRest, made⟩ := bind_eq_ok.mp rendered
    cases made
    have here := Attribute.mem_render_iff control item first renderedFirst
    have later := Attribute.mem_renderAll_iff control rest others renderedRest
    simp only [List.mem_cons, exists_eq_or_imp, here, later]

end

/-- Of the tags of attributes, only that of a payload is not fixed. -/
theorem Attribute.mem_tag_iff (control : Text.isControl char = true) (value : Attribute) :
    char ∈ value.tag.toList ↔
      ∃ dialect bytes, value = .payload dialect bytes ∧ char ∈ dialect.toList := by
  cases value with
  | payload dialect bytes =>
    -- Around the name of the dialect, the tag is clean.
    simp (disch := decide) only [tag, String.toList_append, List.mem_append,
      Text.mem_clean_iff control, or_false, false_or, payload.injEq]
    exact ⟨fun shown => ⟨dialect, bytes, ⟨rfl, rfl⟩, shown⟩,
      fun ⟨_, _, ⟨same, _⟩, shown⟩ => same ▸ shown⟩
  | _ =>
    -- All other tags are fixed and clean.
    rw [tag]
    exact iff_of_false (Text.Clean.not_mem (by decide) control) nofun

/-- A control character in what stands for an attribute is in its text or in the name in its tag. -/
theorem Attribute.mem_renderOrTag_iff (control : Text.isControl char = true) (value : Attribute) :
    char ∈ (value.renderOrTag ctx).toList ↔
      (∃ text part, value.render ctx = .ok text ∧ value.Verbatim ctx part ∧ char ∈ part.toList) ∨
        ∃ dialect bytes reason, value = .payload dialect bytes ∧
          ctx.dialects.renderPayload dialect bytes = .error reason ∧ char ∈ dialect.toList := by
  rw [renderOrTag]
  -- The tag stands in only where there is no text.
  cases rendered : value.render ctx with
  | ok text =>
    rw [Attribute.mem_render_iff control value text rendered]
    constructor
    · rintro ⟨part, verbatim, shown⟩
      exact .inl ⟨text, part, rfl, verbatim, shown⟩
    · rintro (⟨_, part, -, verbatim, shown⟩ | ⟨dialect, bytes, reason, rfl, failed, -⟩)
      · exact ⟨part, verbatim, shown⟩
      · cases rendered.symm.trans failed
  | error reason =>
    rw [Attribute.mem_tag_iff control]
    constructor
    · rintro ⟨dialect, bytes, rfl, shown⟩
      exact .inr ⟨dialect, bytes, reason, rfl, rendered, shown⟩
    · rintro (⟨_, _, failed, -⟩ | ⟨dialect, bytes, _, same, -, shown⟩)
      · cases failed
      · exact ⟨dialect, bytes, same, shown⟩

/-- A control character in the label or the attributes of an operation comes from it verbatim. -/
theorem Operation.mem_describe_iff (control : Text.isControl char = true) (op : OpId)
    (data : Operation) :
    (char ∈ (data.describe ctx op).label.toList ∨
      ∃ entry ∈ (data.describe ctx op).attributes, char ∈ entry.1.toList ∨ char ∈ entry.2.toList) ↔
        ∃ part, data.Verbatim ctx part ∧ char ∈ part.toList := by
  -- Around the name and the symbol, the label is clean.
  have label : char ∈ (data.describe ctx op).label.toList ↔ char ∈ data.name.toText.toList ∨
      ∃ symbol, data.symbolInfo?.bind Prod.snd = some symbol ∧ char ∈ symbol.toList := by
    rw [Description.label, describe]
    cases data.symbolInfo?.bind Prod.snd with
    | none => simp
    | some symbol => simp (disch := decide) only [String.toList_append, List.mem_append,
        Text.mem_clean_iff control, or_false, Option.some.injEq, exists_eq_left']
  rw [label]
  -- Each part that is written is followed to where it is shown, and the other way round.
  constructor
  · rintro ((inName | ⟨symbol, defined, inSymbol⟩) | ⟨_, written, shown⟩)
    · exact ⟨_, .name, inName⟩
    · exact ⟨symbol, .symbol defined, inSymbol⟩
    · obtain ⟨entry, listed, rfl⟩ := List.mem_map.mp written
      rcases shown with inKey | inValue
      · exact ⟨entry.1, .key listed, inKey⟩
      · rcases (Attribute.mem_renderOrTag_iff control entry.2).mp inValue with
          ⟨text, part, rendered, verbatim, inPart⟩ | ⟨dialect, bytes, reason, same, failed, inTag⟩
        · exact ⟨part, .value listed rendered verbatim, inPart⟩
        · have asked : (entry.1, .payload dialect bytes) ∈ data.attributes.entries := same ▸ listed
          exact ⟨dialect, .dialect asked failed, inTag⟩
  · rintro ⟨part, verbatim, shown⟩
    -- Every attribute is written in the description, whether or not it has a text.
    have written {entry : String × Attribute} (listed : entry ∈ data.attributes.entries) :
        (entry.1, entry.2.renderOrTag ctx) ∈ (data.describe ctx op).attributes :=
      List.mem_map.mpr ⟨entry, listed, rfl⟩
    cases verbatim with
    | name => exact .inl (.inl shown)
    | symbol defined => exact .inl (.inr ⟨part, defined, shown⟩)
    | key listed => exact .inr ⟨_, written listed, .inl shown⟩
    | value listed rendered inner =>
      refine .inr ⟨_, written listed, .inr ?_⟩
      exact (Attribute.mem_renderOrTag_iff control _).mpr (.inl ⟨_, part, rendered, inner, shown⟩)
    | dialect listed failed =>
      refine .inr ⟨_, written listed, .inr ?_⟩
      exact (Attribute.mem_renderOrTag_iff control _).mpr (.inr ⟨part, _, _, rfl, failed, shown⟩)

end Render

end NestedIR
