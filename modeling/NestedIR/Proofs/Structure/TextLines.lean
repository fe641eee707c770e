import NestedIR.Proofs.Attribute.Verbatim
import NestedIR.Proofs.Structure.Shape

/-! A dump is one line of text for each of its lines, unless a text in it breaks its own line. -/

namespace NestedIR

open Relation

namespace Line

variable {char : Char}

/-- What a line says beyond fixed words and numbers. -/
def parts : Line → List String
  | op _ label .. => [label]
  | entry _ key value => [key, value]
  | _ => []

/-- A control character in what a line says is in one of its parts. -/
theorem mem_body_iff (control : Text.isControl char = true) (line : Line) :
    char ∈ line.body.toList ↔ ∃ part ∈ line.parts, char ∈ part.toList := by
  -- Fixed words and numbers have no control characters.
  have number (count : Nat) : char ∉ (toString count).toList :=
    (Text.clean_natural count).not_mem control
  have written (text : String) : toString text = text := rfl
  unfold body parts
  cases line <;>
    simp (disch := decide) only [written, String.toList_append, List.mem_append, number,
      Text.mem_clean_iff control, or_false, false_or, List.mem_cons, List.not_mem_nil,
      exists_eq_or_imp, exists_eq_left, false_and, exists_false]

/-- A control character in the text of a line is in one of the parts of the line. -/
theorem mem_toText_iff (control : Text.isControl char = true) (line : Line) :
    char ∈ line.toText.toList ↔ ∃ part ∈ line.parts, char ∈ part.toList := by
  -- The indentation is made of spaces.
  have indentation : char ∉ (String.join (List.replicate line.indent indentUnit)).toList := by
    rw [String.toList_join]
    intro listed
    obtain ⟨unit, isUnit, inUnit⟩ := List.mem_flatMap.mp listed
    rw [(List.mem_replicate.mp isUnit).2] at inUnit
    exact Text.Clean.not_mem (by decide) control inUnit
  rw [toText, String.toList_append, List.mem_append, ← mem_body_iff control]
  simp only [indentation, false_or]

end Line

/-- The lines about attributes say their keys and texts. -/
theorem Description.exists_parts_iff (description : Description) (indent inner : UInt64)
    (shows : String → Prop) :
    (∃ line ∈ description.attributeLines indent inner, ∃ part ∈ line.parts, shows part) ↔
      ∃ entry ∈ description.attributes, shows entry.1 ∨ shows entry.2 := by
  rw [attributeLines]
  split
  · rename_i empty
    simp [List.isEmpty_iff.mp empty]
  · simp [Line.parts]

namespace Context

variable {ctx : Context} {char : Char}

/-- A character is in a text that is written as it is for an operation inside an entity. -/
def ShowsBelow (ctx : Context) (entity : Entity) (char : Char) : Prop :=
  ∃ op data part, ReflTransGen ctx.Contains entity (.op op) ∧ ctx.op op = .ok data ∧
    data.Verbatim ctx part ∧ char ∈ part.toList

/-- A character is in a text that is written as it is on the own lines of an entity. -/
def Shows (ctx : Context) (entity : Entity) (char : Char) : Prop :=
  ∃ op data part, entity = .op op ∧ ctx.op op = .ok data ∧ data.Verbatim ctx part ∧
    char ∈ part.toList

/-- What is shown below an entity is shown for itself or below what it contains. -/
theorem showsBelow_iff {entity : Entity} {listed : List Entity}
    (members : ctx.members entity = .ok listed) :
    ctx.ShowsBelow entity char ↔
      ctx.Shows entity char ∨ ∃ member ∈ listed, ctx.ShowsBelow member char := by
  constructor
  -- What can be reached is the entity itself or can be reached from one of its members.
  · rintro ⟨op, data, part, down, shown⟩
    rcases ReflTransGen.cases_head down with same | ⟨member, contains, down⟩
    · exact .inl ⟨op, data, part, same, shown⟩
    · obtain ⟨again, membersAgain, isListed⟩ := contains
      cases members.symm.trans membersAgain
      exact .inr ⟨member, isListed, op, data, part, down, shown⟩
  · rintro (⟨op, data, part, rfl, shown⟩ | ⟨member, isListed, op, data, part, down, shown⟩)
    · exact ⟨op, data, part, .refl, shown⟩
    · exact ⟨op, data, part, .head ⟨listed, members, isListed⟩ down, shown⟩

/-- The own lines of an entity have a control character where it is shown for the entity. -/
theorem mem_ownLines_iff (control : Text.isControl char = true) {entity : Entity}
    {indent : UInt64} {summary : Line} {details : List Line}
    (own : ctx.ownLines indent .wraps entity = .ok (summary, details)) :
    (∃ line ∈ summary :: details, char ∈ line.toText.toList) ↔ ctx.Shows entity char := by
  simp only [Line.mem_toText_iff control]
  cases entity with
  | op op =>
    obtain ⟨data, found, made⟩ := bind_eq_ok.mp own
    obtain ⟨inner, -, made⟩ := bind_eq_ok.mp made
    cases made
    -- Of the other lines about an operation, the header of the regions says a number only.
    have header (line : Line) (listed : line ∈ if data.regions.isEmpty then ([] : List Line)
        else [.regionsHeader indent data.regions.length]) : line.parts = [] := by
      split at listed
      · cases listed
      · rw [List.mem_singleton.mp listed]
        rfl
    have shown : ctx.Shows (.op op) char ↔ ∃ part, data.Verbatim ctx part ∧ char ∈ part.toList := by
      simp [Shows, found]
    rw [shown, ← Operation.mem_describe_iff control op data,
      ← Description.exists_parts_iff _ indent inner fun part => char ∈ part.toList]
    -- The label is on the first line, and the attributes are on those that follow.
    constructor
    · rintro ⟨line, listed, part, isPart, inPart⟩
      rcases List.mem_cons.mp listed with rfl | listed
      · exact .inl (List.mem_singleton.mp isPart ▸ inPart)
      · rcases List.mem_append.mp listed with ofAttributes | ofRegions
        · exact .inr ⟨line, ofAttributes, part, isPart, inPart⟩
        · rw [header line ofRegions] at isPart
          cases isPart
    · rintro (inLabel | ⟨line, ofAttributes, inLine⟩)
      · exact ⟨_, List.mem_cons_self, _, List.mem_singleton_self _, inLabel⟩
      · exact ⟨line, List.mem_cons_of_mem _ (List.mem_append_left _ ofAttributes), inLine⟩
  | region region =>
    obtain ⟨data, -, made⟩ := bind_eq_ok.mp own
    cases made
    simp [Line.parts, Shows]
  | block block =>
    obtain ⟨data, -, made⟩ := bind_eq_ok.mp own
    obtain ⟨successors, -, made⟩ := bind_eq_ok.mp made
    cases made
    simp [Line.parts, Shows]

/-- A dump has a control character where an operation inside the entity shows it. -/
theorem mem_dumpEntity_iff (control : Text.isControl char = true) {depth enough : Nat}
    {indent : UInt64} {entity : Entity} {lines : List Line} (fits : ctx.Fits depth entity)
    (made : ctx.dumpEntity .wraps (ctx.dumpOp .wraps enough) indent entity = .ok lines) :
    (∃ line ∈ lines, char ∈ line.toText.toList) ↔ ctx.ShowsBelow entity char := by
  -- Members are dumped in turn, and each fits into one step less.
  induction depth generalizing enough indent entity lines with
  | zero => cases fits
  | succ depth ih =>
    obtain ⟨inside, knownMembers, below⟩ := fits
    obtain ⟨less, ordered⟩ := exists_linesInOrder made
    obtain ⟨summary, details, listed, own, members, dump, dumped, rfl⟩ :=
      linesInOrder_eq_ok ordered
    cases knownMembers.symm.trans members
    rw [showsBelow_iff members, ← mem_ownLines_iff control own]
    have each (member : Entity) : (member ∈ inside ∧ ctx.ShowsBelow member char) ↔
        member ∈ inside ∧ ∃ line ∈ dump member, char ∈ line.toText.toList :=
      and_congr_right fun isListed => (ih (below member isListed) (dumped member isListed)).symm
    simp only [each]
    constructor
    · rintro ⟨line, isListed, inLine⟩
      rcases List.mem_append.mp isListed with isOwn | inBelow
      · exact .inl ⟨line, isOwn, inLine⟩
      · obtain ⟨member, isMember, inDump⟩ := List.mem_flatMap.mp inBelow
        exact .inr ⟨member, isMember, line, inDump, inLine⟩
    · rintro (⟨line, isOwn, inLine⟩ | ⟨member, isMember, line, inDump, inLine⟩)
      · exact ⟨line, List.mem_append_left _ isOwn, inLine⟩
      · exact ⟨line, List.mem_append_right _ (List.mem_flatMap.mpr ⟨member, isMember, inDump⟩),
          inLine⟩

/--
Lines that each end in a newline have at least one each, and have no other where none is in their
texts.
-/
theorem count_newlines (lines : List Line) :
    lines.length ≤ (String.join (lines.map fun line => line.toText ++ "\n")).toList.count '\n' ∧
      ((String.join (lines.map fun line => line.toText ++ "\n")).toList.count '\n' = lines.length ↔
        ∀ line ∈ lines, '\n' ∉ line.toText.toList) := by
  -- Each line ends in a newline, and the others in its text are counted with it.
  induction lines with
  | nil => simp
  | cons line rest ih =>
    have ended : (line.toText ++ "\n").toList.count '\n' = line.toText.toList.count '\n' + 1 := by
      rw [String.toList_append, List.count_append]
      rfl
    rw [List.map_cons, String.join_cons, String.toList_append, List.count_append, ended,
      List.length_cons, List.forall_mem_cons, ← ih.2, ← List.count_eq_zero]
    omega

/-- The text of a dump is that of its lines, each ended by a newline. -/
theorem dumpText_of_dumpLines {root : OpId} {indent : UInt64} {lines : List Line}
    (listed : ctx.dumpLines root indent = .ok lines) :
    ctx.dumpText root indent = .ok (String.join (lines.map fun line => line.toText ++ "\n")) :=
  bind_eq_ok.mpr ⟨lines, listed, rfl⟩

/-- The text of a dump has as many newlines as lines where no line says a newline. -/
theorem count_newlines_eq_length_iff {root : OpId} {indent : UInt64} {lines : List Line}
    {text : String} (listed : ctx.dumpLines root indent = .ok lines)
    (made : ctx.dumpText root indent = .ok text) :
    text.toList.count '\n' = lines.length ↔
      ∀ line ∈ lines, ∀ part ∈ line.parts, '\n' ∉ part.toList := by
  -- The text has been made from these lines, so that only their texts can have more newlines.
  cases (dumpText_of_dumpLines listed).symm.trans made
  rw [(count_newlines lines).2]
  simp only [Line.mem_toText_iff (by decide : Text.isControl '\n' = true)]
  push Not
  rfl

/--
The text of a dump ends each of its lines, and has other newlines exactly where there is one in what
is written as it is: the name of an operation, its symbol, the key of an attribute, a name in a
type, the text that a dialect prints for a payload, or the dialect of a payload that has no text.
-/
theorem newlines_of_dumpText {root : OpId} (known : ctx.KnownBelow (.op root))
    (acyclic : ctx.AcyclicBelow (.op root)) (indent : UInt64) :
    ∃ lines text, ctx.dumpLines root indent = .ok lines ∧ ctx.dumpText root indent = .ok text ∧
      lines.length ≤ text.toList.count '\n' ∧
      (text.toList.count '\n' = lines.length ↔
        ∀ op data part, ReflTransGen ctx.Contains (.op root) (.op op) → ctx.op op = .ok data →
          data.Verbatim ctx part → '\n' ∉ part.toList) := by
  have control : Text.isControl '\n' = true := by decide
  have fits := fits_depthBound known acyclic
  obtain ⟨shape, found⟩ := exists_shapeWithin fits
  have listed : ctx.dumpLines root indent = .ok (shape.lines indent) :=
    dumpLines_of_shape acyclic found indent
  have made : ctx.recursiveDump .wraps indent root = .ok (shape.lines indent) :=
    (recursiveDump_eq_ok_iff acyclic).mpr ⟨hasRoom_wraps _ indent, shape, found, rfl⟩
  have written := dumpText_of_dumpLines listed
  refine ⟨_, _, listed, written, (count_newlines _).1, ?_⟩
  -- A line says a newline where an operation inside the root does.
  have shown := mem_dumpEntity_iff control fits made
  simp only [Line.mem_toText_iff control] at shown
  rw [count_newlines_eq_length_iff listed written, ← not_iff_not]
  push Not
  exact shown

/-- Requests for a function with an attribute that is a string in two lines. -/
def stringInTwoLines : List Request :=
  [.addOp { name := OpKind.func.opName, symbol := some "main"
            attributes := { entries := [("doc", .string "a\nb")] } }]

/-- The newline in the string is escaped, so three lines are three newlines of text. -/
theorem newlines_of_dumpText_stringInTwoLines :
    ∃ ctx, build stringInTwoLines = .ok ctx ∧ ctx.KnownBelow (.op ⟨0⟩) ∧
      ctx.AcyclicBelow (.op ⟨0⟩) ∧
      ∃ text, ctx.dumpText ⟨0⟩ 0 = .ok text ∧ text.toList.count '\n' = 3 ∧
        ∀ op data part, ReflTransGen ctx.Contains (.op ⟨0⟩) (.op op) → ctx.op op = .ok data →
          data.Verbatim ctx part → '\n' ∉ part.toList := by
  -- The lines are computed, and the string among them is escaped.
  obtain ⟨ctx, built, listed, inLines⟩ : ∃ ctx, build stringInTwoLines = .ok ctx ∧
      ctx.preorder (.op ⟨0⟩) = .ok [.op ⟨0⟩] ∧
      ctx.dumpLines ⟨0⟩ 0 = .ok [.op 0 "func@main" 0 0 1 0 0, .attributesHeader 0 1,
        .entry 1 "doc" "\"a\\nb\""] := ⟨_, rfl, by decide +kernel, by decide +kernel⟩
  obtain ⟨known, acyclic⟩ := preorder_ok_iff.mp ⟨_, listed⟩
  obtain ⟨_, text, sameLines, written, -, none⟩ := newlines_of_dumpText known acyclic 0
  cases inLines.symm.trans sameLines
  -- None of the three lines has a newline in it, and so nothing shows one.
  have counted := (count_newlines_eq_length_iff inLines written).mpr (by decide +kernel)
  exact ⟨ctx, built, known, acyclic, text, written, counted, none.mp counted⟩

/-- Requests for a function whose symbol has a newline in it, and that refers to that symbol. -/
def brokenSymbol : List Request :=
  [.addOp { name := OpKind.func.opName, symbol := some "a\nb"
            attributes := { entries := [("ref", .symbol "a\nb")] } }]

/-- The symbol breaks the first of three lines, while the reference to it is quoted. -/
theorem newlines_ne_brokenSymbol :
    ∃ ctx, build brokenSymbol = .ok ctx ∧ WellFounded ctx.types.IsParameter ∧
      ctx.KnownBelow (.op ⟨0⟩) ∧ ctx.AcyclicBelow (.op ⟨0⟩) ∧
      ∃ lines text, ctx.dumpLines ⟨0⟩ 0 = .ok lines ∧ ctx.dump ⟨0⟩ = .ok text ∧
        lines = [.op 0 "func@a\nb" 0 0 1 0 0, .attributesHeader 0 1,
          .entry 1 "ref" "@\"a\\nb\""] ∧
        text.toList.count '\n' ≠ lines.length := by
  -- The lines are computed, and the symbol among them is not escaped.
  obtain ⟨ctx, built, noTypes, listed, inLines⟩ : ∃ ctx, build brokenSymbol = .ok ctx ∧
      ctx.types.entries = #[] ∧ ctx.preorder (.op ⟨0⟩) = .ok [.op ⟨0⟩] ∧
      ctx.dumpLines ⟨0⟩ 0 = .ok [.op 0 "func@a\nb" 0 0 1 0 0, .attributesHeader 0 1,
        .entry 1 "ref" "@\"a\\nb\""] := ⟨_, rfl, rfl, by decide +kernel, by decide +kernel⟩
  obtain ⟨known, acyclic⟩ := preorder_ok_iff.mp ⟨_, listed⟩
  have wellFounded : WellFounded ctx.types.IsParameter :=
    TypeTable.wellFounded_of_plain fun data recorded => by
      rw [noTypes] at recorded
      simp at recorded
  have written : ctx.dump ⟨0⟩ = .ok _ := dumpText_of_dumpLines inLines
  refine ⟨ctx, built, wellFounded, known, acyclic, _, _, inLines, written, rfl, fun counted => ?_⟩
  -- As many newlines as lines would need every line to be unbroken.
  have unbroken := (count_newlines_eq_length_iff inLines written).mp counted
  exact absurd unbroken (by decide +kernel)

end Context

end NestedIR
