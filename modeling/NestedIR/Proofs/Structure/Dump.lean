import NestedIR.Proofs.Structure.Room

/-! A dump lists what a walk visits, line by line in the same order. -/

namespace NestedIR

open Relation

/-- Whether a line is the summary of an operation. -/
def Line.isOp : Line → Bool
  | .op .. => true
  | _ => false

/-- Lists that are put together from related parts are related. -/
theorem forall₂_flatMap {α β γ : Type} {related : β → γ → Prop} {items : List α}
    {first : α → List β} {second : α → List γ}
    (each : ∀ item ∈ items, List.Forall₂ related (first item) (second item)) :
    List.Forall₂ related (items.flatMap first) (items.flatMap second) := by
  induction items with
  | nil => exact .nil
  | cons item rest ih =>
    rw [List.flatMap_cons, List.flatMap_cons]
    exact List.rel_append (each item (by simp))
      (ih fun other listed => each other (by simp [listed]))

namespace Context

variable {ctx : Context} {overflow : Overflow}

/-- A line is the summary of an operation at some indentation. -/
def Summarizes (ctx : Context) (op : OpId) (line : Line) : Prop :=
  ∃ indent details, ctx.opLines op indent .wraps = .ok (line, details)

/-- Of the lines about an operation, only the summary is one of an operation. -/
theorem filter_isOp_opLines {op : OpId} {indent : UInt64} {summary : Line} {details : List Line}
    (own : ctx.opLines op indent .wraps = .ok (summary, details)) :
    summary.isOp ∧ details.filter Line.isOp = [] := by
  -- Attributes and headers have lines of their own kinds.
  obtain ⟨data, -, made⟩ := bind_eq_ok.mp own
  obtain ⟨inner, -, made⟩ := bind_eq_ok.mp made
  cases made
  refine ⟨rfl, List.filter_eq_nil_iff.mpr fun line listed => ?_⟩
  rcases List.mem_append.mp listed with ofAttributes | ofRegions
  · rw [Description.attributeLines] at ofAttributes
    split at ofAttributes
    · cases ofAttributes
    · rcases List.mem_cons.mp ofAttributes with rfl | entry
      · simp [Line.isOp]
      · obtain ⟨item, -, rfl⟩ := List.mem_map.mp entry
        simp [Line.isOp]
  · split at ofRegions
    · cases ofRegions
    · cases List.mem_singleton.mp ofRegions
      simp [Line.isOp]

/-- The lines that an entity begins with summarize the operation that it is, if it is one. -/
theorem summarizes_ownLines {entity : Entity} {indent : UInt64} {summary : Line}
    {details : List Line} (own : ctx.ownLines indent .wraps entity = .ok (summary, details)) :
    List.Forall₂ ctx.Summarizes entity.op?.toList ((summary :: details).filter Line.isOp) := by
  -- Of its own lines, only the summary of an operation is an operation line.
  cases entity with
  | op op =>
    obtain ⟨isOp, none⟩ := filter_isOp_opLines own
    rw [List.filter_cons_of_pos isOp, none]
    exact .cons ⟨indent, details, own⟩ .nil
  | region region =>
    obtain ⟨data, -, made⟩ := bind_eq_ok.mp own
    cases made
    exact .nil
  | block block =>
    obtain ⟨data, -, made⟩ := bind_eq_ok.mp own
    obtain ⟨successors, -, made⟩ := bind_eq_ok.mp made
    cases made
    exact .nil

/-- A dump in order consists of the lines of the entity and the dumps of its members. -/
theorem linesInOrder_eq_ok {below : UInt64 → OpId → Except Fault (List Line)} {indent : UInt64}
    {entity : Entity} {lines : List Line}
    (made : ctx.linesInOrder overflow below indent entity = .ok lines) :
    ∃ summary details listed, ctx.ownLines indent .wraps entity = .ok (summary, details) ∧
      ctx.members entity = .ok listed ∧ ∃ dump : Entity → List Line,
        (∀ member ∈ listed, ctx.dumpEntity overflow below (indent + 1) member = .ok (dump member)) ∧
          lines = summary :: details ++ listed.flatMap dump := by
  -- The members stand at the next word, whatever the build makes of greater sums.
  obtain ⟨listed, members, made⟩ := bind_eq_ok.mp made
  obtain ⟨inner, further, made⟩ := bind_eq_ok.mp made
  obtain ⟨own, first, made⟩ := bind_eq_ok.mp made
  obtain ⟨parts, mapped, made⟩ := bind_eq_ok.mp made
  cases made
  cases Overflow.eq_of_inner further
  obtain ⟨dump, rfl, each⟩ := exists_map_of_mapM mapped
  exact ⟨own.1, own.2, listed, ownLines_wraps first, members, dump, each, by rw [List.flatMap_def]⟩

/-- A dump that is made is made in order, whatever depth was left for it. -/
theorem exists_linesInOrder {depth : Nat} {indent : UInt64} {entity : Entity} {lines : List Line}
    (made : ctx.dumpEntity overflow (ctx.dumpOp overflow depth) indent entity = .ok lines) :
    ∃ below, ctx.linesInOrder overflow (ctx.dumpOp overflow below) indent entity = .ok lines := by
  -- Without any depth left there are no operations, but regions and blocks may be empty.
  cases depth with
  | zero =>
    cases entity with
    | op op => cases made
    | region region => exact ⟨0, (dumpRegion_eq _ indent region).symm.trans made⟩
    | block block => exact ⟨0, (dumpBlock_eq _ indent block).symm.trans made⟩
  | succ depth =>
    obtain ⟨below, -, same⟩ := ctx.dumpEntity_succ depth indent entity
    exact ⟨below, same.symm.trans made⟩

/-- The summaries in a dump are those of the operations of a listing, in the same order. -/
theorem forall₂_summarizes {depth enough : Nat} {indent : UInt64} {entity : Entity}
    {listing : List Entity} {lines : List Line}
    (listed : ctx.preorderWithin depth entity = .ok listing)
    (made : ctx.dumpEntity overflow (ctx.dumpOp overflow enough) indent entity = .ok lines) :
    List.Forall₂ ctx.Summarizes (listing.filterMap Entity.op?) (lines.filter Line.isOp) := by
  -- Both go on with the same members, so that the induction is on the depth of the listing.
  induction depth generalizing enough indent entity listing lines with
  | zero => cases listed
  | succ depth ih =>
    obtain ⟨inside, members, list, each, rfl⟩ := preorderWithin_eq_ok.mp listed
    obtain ⟨below, ordered⟩ := exists_linesInOrder made
    obtain ⟨summary, details, again, own, membersAgain, dump, dumped, rfl⟩ :=
      linesInOrder_eq_ok ordered
    cases members.symm.trans membersAgain
    have parts : List.Forall₂ ctx.Summarizes ((inside.flatMap list).filterMap Entity.op?)
        ((inside.flatMap dump).filter Line.isOp) := by
      rw [List.filterMap_flatMap, List.filter_flatMap]
      exact forall₂_flatMap fun member isListed =>
        ih (each member isListed) (dumped member isListed)
    rw [Entity.filterMap_op?_cons, List.filter_append]
    exact List.rel_append (summarizes_ownLines own) parts

/-- Whatever is below an entity that is dumped has members. -/
theorem knownBelow_of_dumpEntity {enough : Nat} {indent : UInt64} {entity : Entity}
    {lines : List Line}
    (made : ctx.dumpEntity overflow (ctx.dumpOp overflow enough) indent entity = .ok lines) :
    ctx.KnownBelow entity := by
  -- On the way down, each member of what is dumped is dumped as well.
  intro inner down
  have dumped : ∃ enough indent lines,
      ctx.dumpEntity overflow (ctx.dumpOp overflow enough) indent inner = .ok lines := by
    induction down with
    | refl => exact ⟨enough, indent, lines, made⟩
    | tail _ contains ih =>
      obtain ⟨enough, indent, lines, made⟩ := ih
      obtain ⟨below, ordered⟩ := exists_linesInOrder made
      obtain ⟨_, _, listed, -, members, dump, each, -⟩ := linesInOrder_eq_ok ordered
      obtain ⟨again, membersAgain, isListed⟩ := contains
      cases members.symm.trans membersAgain
      exact ⟨below, indent + 1, dump _, each _ isListed⟩
  obtain ⟨enough, indent, lines, made⟩ := dumped
  obtain ⟨below, ordered⟩ := exists_linesInOrder made
  obtain ⟨_, _, listed, -, members, -⟩ := linesInOrder_eq_ok ordered
  exact ⟨listed, members⟩

/--
Where nothing is inside itself, a dump by recursion is made exactly where all is known and has room.
-/
theorem recursiveDump_ok_iff {root : OpId} (acyclic : ctx.AcyclicBelow (.op root))
    (overflow : Overflow) (indent : UInt64) :
    (∃ lines, ctx.recursiveDump overflow indent root = .ok lines) ↔
      ctx.KnownBelow (.op root) ∧ ctx.HasRoom overflow (.op root) indent := by
  -- A dump of what fits is made if there is room, and otherwise ends with a sum that is too large.
  have outcome (known : ctx.KnownBelow (.op root)) :=
    dumpEntity_of_fits (fits_depthBound known acyclic) (Nat.le_refl _) overflow indent
  constructor
  -- A dump that was made has come to everything, and has not ended with such a sum.
  · rintro ⟨lines, made⟩
    have known : ctx.KnownBelow (.op root) :=
      @knownBelow_of_dumpEntity ctx overflow ctx.depthBound indent (.op root) lines made
    refine ⟨known, ?_⟩
    by_contra crowded
    cases made.symm.trans ((outcome known).2 crowded)
  · rintro ⟨known, room⟩
    exact (outcome known).1 room

/-- A dump that is made in a build that checks its sums is that of any other build. -/
theorem recursiveDump_wraps {root : OpId} (acyclic : ctx.AcyclicBelow (.op root)) {indent : UInt64}
    {lines : List Line} (made : ctx.recursiveDump overflow indent root = .ok lines) :
    ctx.recursiveDump .wraps indent root = .ok lines := by
  -- With enough lines asked for, both stacks give all of them.
  obtain ⟨enough, ends⟩ := (produces_recursiveDump acyclic .wraps indent).ends
  have taken := (produces_recursiveDump acyclic overflow indent).begins lines made
    (max enough lines.length)
  have all := takeLines_wraps taken
  rwa [ends _ (Nat.le_max_left ..), List.take_of_length_le (Nat.le_max_right ..)] at all

/-- As many lines are counted for what fits as there are in its dump. -/
theorem lineCountWithin_of_dump {depth enough : Nat} {indent : UInt64} {entity : Entity}
    {lines : List Line} (fits : ctx.Fits depth entity)
    (made : ctx.dumpEntity overflow (ctx.dumpOp overflow enough) indent entity = .ok lines) :
    ctx.lineCountWithin overflow depth indent entity = .ok lines.length := by
  -- The count takes the same sums, and adds up what the members come to.
  induction depth generalizing enough indent entity lines with
  | zero => cases fits
  | succ depth ih =>
    obtain ⟨inside, known, below⟩ := fits
    obtain ⟨less, made⟩ := exists_linesInOrder made
    obtain ⟨listed, members, made⟩ := bind_eq_ok.mp made
    obtain ⟨inner, further, made⟩ := bind_eq_ok.mp made
    obtain ⟨own, first, made⟩ := bind_eq_ok.mp made
    obtain ⟨parts, mapped, made⟩ := bind_eq_ok.mp made
    cases made
    cases known.symm.trans members
    obtain ⟨dump, rfl, each⟩ := exists_map_of_mapM mapped
    have counts : inside.mapM (ctx.lineCountWithin overflow depth inner) =
        .ok (inside.map fun member => (dump member).length) :=
      (mapM_congr fun member isListed => ih (below member isListed) (each member isListed)).trans
        List.mapM_pure
    refine bind_eq_ok.mpr ⟨inside, members, bind_eq_ok.mpr ⟨inner, further,
      bind_eq_ok.mpr ⟨own, first, bind_eq_ok.mpr ⟨_, counts, congrArg Except.ok ?_⟩⟩⟩⟩
    rw [List.length_append, List.length_cons, Nat.add_comm 1, ← List.flatMap_def,
      List.length_flatMap]

/-- The lines of a dump are those by recursion, where there are any. -/
theorem dumpLines_of_recursiveDump {root : OpId} (acyclic : ctx.AcyclicBelow (.op root))
    {indent : UInt64} {lines : List Line}
    (made : ctx.recursiveDump overflow indent root = .ok lines) :
    ctx.dumpLines root indent overflow = .ok lines := by
  -- All that was dumped is known, and the lines are counted as they are made.
  have known := ((recursiveDump_ok_iff acyclic overflow indent).mp ⟨lines, made⟩).1
  have counted : ctx.lineCount root indent overflow = .ok lines.length :=
    @lineCountWithin_of_dump ctx overflow _ ctx.depthBound _ _ _ (fits_depthBound known acyclic)
      made
  -- That many lines are all the lines that there are.
  refine bind_eq_ok.mpr ⟨_, counted, ?_⟩
  rw [firstLines, (produces_recursiveDump acyclic overflow indent).begins lines made,
    List.take_length]

/-- Items that are noted one by one are noted in order. -/
theorem foldl_concat {α : Type} (items seen : List α) :
    items.foldl (fun seen item => seen ++ [item]) seen = seen ++ items := by
  induction items generalizing seen with
  | nil => simp
  | cons first rest ih => simp [ih]

/--
Where no type is among its own parameters and no operation below a root is inside itself, the lines
that come from the stack one by one are those of the dump by recursion, in the same order and with
the same end. All of them come where everything below the root is known and the indentation has
room for them. Otherwise something unknown or a sum that is too large ends both. The summaries are
those of the operations in the order of a walk.
-/
theorem firstLines_eq_recursiveDump (wellFounded : WellFounded ctx.types.IsParameter)
    {root : OpId} (acyclic : ctx.AcyclicBelow (.op root)) (overflow : Overflow) (indent : UInt64) :
    (∀ type, ctx.types.render type = ctx.types.renderNested ctx.types.render type) ∧
      (∀ value : Attribute, Ends (value.render ctx)) ∧
      (∀ op, ReflTransGen ctx.Contains (.op root) (.op op) → ∀ indent,
        ctx.recursiveDump overflow indent op =
          ctx.dumpNested overflow (ctx.recursiveDump overflow) indent op) ∧
      (∃ enough, ∀ limit, enough ≤ limit →
        ctx.firstLines limit root indent overflow = ctx.recursiveDump overflow indent root) ∧
      ((∃ lines, ctx.recursiveDump overflow indent root = .ok lines) ↔
        ctx.KnownBelow (.op root) ∧ ctx.HasRoom overflow (.op root) indent) ∧
      (ctx.KnownBelow (.op root) → ¬ ctx.HasRoom overflow (.op root) indent →
        ctx.recursiveDump overflow indent root = .error .sumTooLarge) ∧
      ∀ lines, ctx.recursiveDump overflow indent root = .ok lines →
        (∀ limit, ctx.firstLines limit root indent overflow = .ok (lines.take limit)) ∧
        ∃ visited,
          ctx.walk (.noting fun seen op => seen ++ [op] : Visitor (List OpId) Empty)
            (.op root) [] = .ok (none, visited) ∧
          List.Forall₂ ctx.Summarizes visited (lines.filter Line.isOp) := by
  have produces := produces_recursiveDump acyclic overflow indent
  refine ⟨TypeTable.render_eq wellFounded, Attribute.ends_render wellFounded, ?_, produces.ends,
    recursiveDump_ok_iff acyclic overflow indent, fun known crowded => ?_,
    fun lines made => ⟨produces.begins lines made, ?_⟩⟩
  · intro op down indent
    exact recursiveDump_eq (fun inner path => acyclic inner (down.trans path)) overflow indent
  · exact (dumpEntity_of_fits (fits_depthBound known acyclic) (Nat.le_refl _) overflow
      indent).2 crowded
  · -- The walk and the dump both end, and both follow the listing.
    have known := ((recursiveDump_ok_iff acyclic overflow indent).mp ⟨lines, made⟩).1
    obtain ⟨listing, listed⟩ := preorder_ok_iff.mpr ⟨known, acyclic⟩
    refine ⟨listing.filterMap Entity.op?, ?_, ?_⟩
    · rw [walk_noting, listed]
      rw [Except.map, foldl_concat, List.nil_append]
    · exact @forall₂_summarizes ctx overflow _ ctx.depthBound indent _ _ _ listed made

/-- Requests that make a loop around an operation with an attribute and one without a text. -/
def loopWithAttributes : List Request :=
  [.internType { dialect := "core", name := "i1", params := [] },
    .internType { dialect := "core", name := "pair", params := [⟨0⟩, ⟨0⟩] },
    .addOp { name := .bare "body"
             attributes := { entries := [("type", .type ⟨1⟩), ("lost", .type ⟨2⟩)] } },
    .addBlock { ops := [⟨0⟩] }, .addRegion { blocks := [⟨0⟩] },
    .addOp { name := .bare "loop", regions := [⟨0⟩] }]

/-- The eight lines that the loop and its body are dumped in, one word for each level of them. -/
def loopWithAttributesLines (top inRegion inBlock inLoop inBody : UInt64) : List Line :=
  [.op top "loop" 0 0 0 1 0, .regionsHeader top 1, .region inRegion 1, .block inBlock 0 0 1,
    .op inLoop "body" 0 0 2 0 0, .attributesHeader inLoop 2,
    .entry inBody "type" "core.pair(core.i1, core.i1)", .entry inBody "lost" "type"]

/--
The loop and its body are dumped in eight lines, with the tag of the attribute without a text. With
three more words than that of the first line, the attributes are where a build decides.
-/
theorem firstLines_eq_recursiveDump_loopWithAttributes :
    ∃ ctx, build loopWithAttributes = .ok ctx ∧ WellFounded ctx.types.IsParameter ∧
      ctx.AcyclicBelow (.op ⟨1⟩) ∧
      (∀ overflow limit, ctx.firstLines limit ⟨1⟩ 2 overflow =
        .ok ((loopWithAttributesLines 2 3 4 5 6).take limit)) ∧
      (∀ limit, ctx.firstLines limit ⟨1⟩ 18446744073709551612 .wraps =
        .ok ((loopWithAttributesLines 18446744073709551612 18446744073709551613
          18446744073709551614 18446744073709551615 0).take limit)) ∧
      ∃ enough, ∀ limit, enough ≤ limit →
        ctx.firstLines limit ⟨1⟩ 18446744073709551612 .stops = .error .sumTooLarge := by
  obtain ⟨ctx, built, types, listed, dumped, wrapped, stopped⟩ :
      ∃ ctx, build loopWithAttributes = .ok ctx ∧
        ctx.types.entries = #[⟨"core", "i1", []⟩, ⟨"core", "pair", [⟨0⟩, ⟨0⟩]⟩] ∧
        ctx.preorder (.op ⟨1⟩) = .ok [.op ⟨1⟩, .region ⟨0⟩, .block ⟨0⟩, .op ⟨0⟩] ∧
        (ctx.recursiveDump .wraps 2 ⟨1⟩ = .ok (loopWithAttributesLines 2 3 4 5 6) ∧
          ctx.recursiveDump .stops 2 ⟨1⟩ = .ok (loopWithAttributesLines 2 3 4 5 6)) ∧
        ctx.recursiveDump .wraps 18446744073709551612 ⟨1⟩ =
          .ok (loopWithAttributesLines 18446744073709551612 18446744073709551613
            18446744073709551614 18446744073709551615 0) ∧
        ctx.recursiveDump .stops 18446744073709551612 ⟨1⟩ = .error .sumTooLarge :=
    ⟨_, rfl, by decide +kernel, rfl, by decide +kernel, by decide +kernel, by decide +kernel⟩
  have wellFounded : WellFounded ctx.types.IsParameter := by
    -- The one type with parameters was recorded after them.
    refine TypeTable.wellFounded_of_lt fun inner outer param => ?_
    obtain ⟨data, found, isParam⟩ := param
    rw [TypeTable.get?, types] at found
    obtain ⟨_ | _ | index⟩ := outer
    · cases found
      cases isParam
    · cases found
      have first : inner = ⟨0⟩ := by simpa using isParam
      rw [first]
      exact Nat.zero_lt_one
    · simp at found
  have acyclic : ctx.AcyclicBelow (.op ⟨1⟩) := (preorder_ok_iff.mp ⟨_, listed⟩).2
  have streams := firstLines_eq_recursiveDump wellFounded acyclic
  refine ⟨ctx, built, wellFounded, acyclic, fun overflow => ?_, ?_, ?_⟩
  · obtain ⟨-, -, -, -, -, -, lines⟩ := streams overflow 2
    cases overflow with
    | wraps => exact (lines _ dumped.1).1
    | stops => exact (lines _ dumped.2).1
  · obtain ⟨-, -, -, -, -, -, lines⟩ := streams .wraps 18446744073709551612
    exact (lines _ wrapped).1
  · obtain ⟨-, -, -, ⟨enough, ends⟩, -⟩ := streams .stops 18446744073709551612
    exact ⟨enough, fun limit le => (ends limit le).trans stopped⟩

end Context

end NestedIR
