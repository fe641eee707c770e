import NestedIR.Proofs.Structure.Dump

/-! The lines of a dump determine the tree that they were made of, and where they end. -/

namespace NestedIR

open Relation

/-- What the lines of an entity say about itself. -/
inductive Face where
  /-- The label of an operation, the texts of its attributes, and what it only has a number of. -/
  | op (label : String) (operands results : Nat) (attributes : List (String × String))
    (successors : Nat)
  /-- A region has nothing but its blocks. -/
  | region
  /-- How many arguments and successors a block has. -/
  | block (arguments successors : Nat)
deriving DecidableEq, Inhabited

/-- What the lines of an entity say about itself and, in order, about everything in it. -/
inductive Shape where
  /-- An entity with its members. -/
  | mk (face : Face) (members : List Shape)
deriving Inhabited

namespace Face

/-- The lines of an entity in front of those of its members, of which there is a number. -/
def lines (indent : UInt64) (count : Nat) : Face → List Line
  | op label operands results attributes successors =>
    .op indent label operands results attributes.length count successors ::
      (if attributes.isEmpty then [] else .attributesHeader indent attributes.length ::
        attributes.map fun (key, value) => .entry (indent + 1) key value) ++
      if count = 0 then [] else [.regionsHeader indent count]
  | region => [.region indent count]
  | block arguments successors => [.block indent arguments successors count]

/-- Lines about attributes, as many as are announced, tell the attributes and what follows. -/
theorem entries_append_inj {indent : UInt64} {attributes others : List (String × String)}
    {rest rest' : List Line} (count : attributes.length = others.length)
    (same : (attributes.map fun (key, value) => Line.entry indent key value) ++ rest =
      (others.map fun (key, value) => Line.entry indent key value) ++ rest') :
    attributes = others ∧ rest = rest' := by
  -- As many lines as there are attributes are about them, and a line tells its key and its value.
  obtain ⟨entries, rests⟩ := List.append_inj same (by simp [count])
  refine ⟨List.map_injective_iff.mpr ?_ entries, rests⟩
  rintro ⟨key, value⟩ ⟨key', value'⟩ sameLine
  cases sameLine
  rfl

/-- The first line of an entity tells how many lines follow in front of its members. -/
theorem lines_append_inj {indent indent' : UInt64} {count count' : Nat} {face face' : Face}
    {rest rest' : List Line}
    (same : face.lines indent count ++ rest = face'.lines indent' count' ++ rest') :
    indent = indent' ∧ count = count' ∧ face = face' ∧ rest = rest' := by
  -- Lines of different kinds differ, so both faces are of one kind.
  cases face with
  | op label operands results attributes successors =>
    cases face' with
    | op label' operands' results' attributes' successors' =>
      simp only [lines, List.cons_append, List.cons.injEq, Line.op.injEq] at same
      obtain ⟨⟨rfl, rfl, rfl, rfl, number, rfl, rfl⟩, same⟩ := same
      rw [List.append_assoc, List.append_assoc] at same
      -- Attributes are announced on both sides or on neither, as the first line tells their number.
      have none : attributes.isEmpty = attributes'.isEmpty := by
        rw [Bool.eq_iff_iff, List.isEmpty_iff_length_eq_zero, List.isEmpty_iff_length_eq_zero,
          number]
      have apart : attributes = attributes' ∧
          (if count = 0 then [] else [Line.regionsHeader indent count]) ++ rest =
            (if count = 0 then [] else [Line.regionsHeader indent count]) ++ rest' := by
        rw [← none] at same
        split at same
        · rename_i empty
          rw [none] at empty
          simp_all
        · exact entries_append_inj number (List.cons.inj same).2
      exact ⟨rfl, rfl, by rw [apart.1], List.append_cancel_left apart.2⟩
    | region => cases same
    | block => cases same
  | region =>
    cases face' with
    | op => cases same
    | region =>
      cases same
      exact ⟨rfl, rfl, rfl, rfl⟩
    | block => cases same
  | block arguments successors =>
    cases face' with
    | op => cases same
    | region => cases same
    | block =>
      cases same
      exact ⟨rfl, rfl, rfl, rfl⟩

end Face

namespace Shape

mutual

/-- The lines that an entity of a shape is dumped in, with the first one at a depth. -/
def lines (indent : UInt64) : Shape → List Line
  | mk face members => face.lines indent members.length ++ linesAll (indent + 1) members
termination_by structural shape => shape

/-- The lines that entities of some shapes are dumped in, one entity after the other. -/
def linesAll (indent : UInt64) : List Shape → List Line
  | [] => []
  | first :: others => first.lines indent ++ linesAll indent others
termination_by structural shapes => shapes

end

/-- Entities are dumped one after the other. -/
theorem linesAll_eq_flatMap (indent : UInt64) (shapes : List Shape) :
    linesAll indent shapes = shapes.flatMap (lines indent) := by
  induction shapes with
  | nil => rfl
  | cons first others ih => rw [linesAll, ih, List.flatMap_cons]

mutual

/-- Lines of a shape tell at which depth they start, the shape, and what follows them. -/
theorem lines_append_inj {indent indent' : UInt64} {rest rest' : List Line} :
    (shape shape' : Shape) → shape.lines indent ++ rest = shape'.lines indent' ++ rest' →
      indent = indent' ∧ shape = shape' ∧ rest = rest'
  | mk face members, mk face' members', same => by
    -- The lines of the entity itself tell how many members follow.
    rw [lines, lines, List.append_assoc, List.append_assoc] at same
    obtain ⟨rfl, count, rfl, inner⟩ := Face.lines_append_inj same
    obtain ⟨rfl, rests⟩ := linesAll_append_inj members members' count inner
    exact ⟨rfl, rfl, rests⟩

/-- Lines of a known number of shapes tell the shapes and what follows them. -/
theorem linesAll_append_inj {indent : UInt64} {rest rest' : List Line} :
    (shapes shapes' : List Shape) → shapes.length = shapes'.length →
      linesAll indent shapes ++ rest = linesAll indent shapes' ++ rest' →
      shapes = shapes' ∧ rest = rest'
  | [], [], _, same => ⟨rfl, same⟩
  | first :: others, first' :: others', count, same => by
    -- The first lines tell the first shape, and what is left is told by the others.
    rw [linesAll, linesAll, List.append_assoc, List.append_assoc] at same
    obtain ⟨-, rfl, inner⟩ := lines_append_inj first first' same
    obtain ⟨rfl, rests⟩ := linesAll_append_inj others others' (Nat.succ.inj count) inner
    exact ⟨rfl, rests⟩

end

end Shape

namespace Context

variable {ctx ctx' : Context} {overflow : Overflow}

/-- What the lines of an entity say about itself. -/
def face (ctx : Context) : Entity → Except Fault Face
  | .op op => do
    let data ← ctx.op op
    let description := data.describe ctx op
    return .op description.label data.operands.length data.results.length description.attributes
      data.successors.length
  | .region region => do
    let _ ← ctx.region region
    return .region
  | .block block => do
    let data ← ctx.block block
    return .block data.arguments.length (← ctx.successors block).length

/-- The shape of an entity, down to a depth. -/
def shapeWithin (ctx : Context) : Nat → Entity → Except Fault Shape
  | 0, entity => .error (.containmentCycle entity)
  | depth + 1, entity => do
    return .mk (← ctx.face entity) (← (← ctx.members entity).mapM (ctx.shapeWithin depth))

/-- The shape of an operation. -/
def shape (ctx : Context) (op : OpId) : Except Fault Shape :=
  ctx.shapeWithin ctx.depthBound (.op op)

/-- The lines that an entity begins with are those of its face, with the number of its members. -/
theorem ownLines_of_face {entity : Entity} {face : Face} {listed : List Entity}
    (found : ctx.face entity = .ok face) (members : ctx.members entity = .ok listed)
    (indent : UInt64) : ∃ own, ctx.ownLines indent .wraps entity = .ok own ∧
      own.1 :: own.2 = face.lines indent listed.length := by
  -- Each kind of entity has lines of its own, but all of them say how many members there are.
  cases entity with
  | op op =>
    obtain ⟨data, known, made⟩ := bind_eq_ok.mp found
    obtain ⟨again, knownAgain, listing⟩ := bind_eq_ok.mp members
    cases known.symm.trans knownAgain
    cases made
    cases listing
    refine ⟨_, bind_eq_ok.mpr ⟨data, known, bind_eq_ok.mpr ⟨_, Overflow.inner_wraps .., rfl⟩⟩, ?_⟩
    simp [Face.lines, Description.attributeLines]
  | region region =>
    obtain ⟨data, known, made⟩ := bind_eq_ok.mp found
    obtain ⟨again, knownAgain, listing⟩ := bind_eq_ok.mp members
    cases known.symm.trans knownAgain
    cases made
    cases listing
    refine ⟨_, bind_eq_ok.mpr ⟨data, known, rfl⟩, ?_⟩
    simp [Face.lines]
  | block block =>
    obtain ⟨data, known, made⟩ := bind_eq_ok.mp found
    obtain ⟨successors, targeted, made⟩ := bind_eq_ok.mp made
    obtain ⟨again, knownAgain, listing⟩ := bind_eq_ok.mp members
    cases known.symm.trans knownAgain
    cases made
    cases listing
    refine ⟨_, bind_eq_ok.mpr ⟨data, known, bind_eq_ok.mpr ⟨successors, targeted, rfl⟩⟩, ?_⟩
    simp [Face.lines]

/-- An entity whose first lines are known has a face. -/
theorem exists_face {entity : Entity} {indent : UInt64} {own : Line × List Line}
    (found : ctx.ownLines indent .wraps entity = .ok own) : ∃ face, ctx.face entity = .ok face := by
  -- The first lines are made from what the face is made from.
  cases entity with
  | op op =>
    obtain ⟨data, known, -⟩ := bind_eq_ok.mp found
    exact ⟨_, bind_eq_ok.mpr ⟨data, known, rfl⟩⟩
  | region region =>
    obtain ⟨data, known, -⟩ := bind_eq_ok.mp found
    exact ⟨_, bind_eq_ok.mpr ⟨data, known, rfl⟩⟩
  | block block =>
    obtain ⟨data, known, made⟩ := bind_eq_ok.mp found
    obtain ⟨successors, targeted, -⟩ := bind_eq_ok.mp made
    exact ⟨_, bind_eq_ok.mpr ⟨data, known, bind_eq_ok.mpr ⟨successors, targeted, rfl⟩⟩⟩

/-- The shape of an entity is its face with the shapes of its members. -/
theorem shapeWithin_eq_ok {depth : Nat} {entity : Entity} {shape : Shape} :
    ctx.shapeWithin (depth + 1) entity = .ok shape ↔
      ∃ face listed, ctx.face entity = .ok face ∧ ctx.members entity = .ok listed ∧
        ∃ inner : Entity → Shape, (∀ member ∈ listed,
          ctx.shapeWithin depth member = .ok (inner member)) ∧
            shape = .mk face (listed.map inner) := by
  constructor
  -- A shape that was found is found in three steps, of which the last one goes through the members.
  · intro found
    obtain ⟨face, seen, found⟩ := bind_eq_ok.mp found
    obtain ⟨listed, members, found⟩ := bind_eq_ok.mp found
    obtain ⟨parts, mapped, made⟩ := bind_eq_ok.mp found
    cases made
    obtain ⟨inner, rfl, each⟩ := exists_map_of_mapM mapped
    exact ⟨face, listed, seen, members, inner, each, rfl⟩
  · rintro ⟨face, listed, seen, members, inner, each, rfl⟩
    -- Shapes of all members are a list of shapes.
    have mapped : listed.mapM (ctx.shapeWithin depth) = .ok (listed.map inner) :=
      (mapM_congr each).trans List.mapM_pure
    exact bind_eq_ok.mpr ⟨face, seen, bind_eq_ok.mpr ⟨listed, members,
      bind_eq_ok.mpr ⟨_, mapped, rfl⟩⟩⟩

/-- What fits into a depth has a shape down to it. -/
theorem exists_shapeWithin {depth : Nat} {entity : Entity} (fits : ctx.Fits depth entity) :
    ∃ shape, ctx.shapeWithin depth entity = .ok shape := by
  induction depth generalizing entity with
  | zero => cases fits
  | succ depth ih =>
    -- What fits is known, and so it has a face and a list of members that fit in turn.
    obtain ⟨own, first⟩ := exists_ownLines fits 0
    obtain ⟨face, seen⟩ := exists_face first
    obtain ⟨listed, members, inside⟩ := fits
    obtain ⟨parts, mapped⟩ := mapM_ok_iff.mpr fun member isListed => ih (inside member isListed)
    exact ⟨_, bind_eq_ok.mpr ⟨face, seen, bind_eq_ok.mpr ⟨listed, members,
      bind_eq_ok.mpr ⟨parts, mapped, rfl⟩⟩⟩⟩

/-- An entity that has a shape down to a depth is dumped in its lines. -/
theorem dumpEntity_of_shape {depth enough : Nat} {entity : Entity} {shape : Shape}
    (found : ctx.shapeWithin depth entity = .ok shape) (le : depth ≤ enough) (indent : UInt64) :
    ctx.dumpEntity .wraps (ctx.dumpOp .wraps enough) indent entity = .ok (shape.lines indent) := by
  -- Members have their shapes with one step less, which the recursion has left for them.
  induction depth generalizing enough entity indent shape with
  | zero => cases found
  | succ depth ih =>
    obtain ⟨left, rfl⟩ : ∃ left, enough = left + 1 := ⟨enough - 1, by omega⟩
    obtain ⟨below, more, same⟩ := ctx.dumpEntity_succ left indent entity
    obtain ⟨face, listed, seen, members, inner, each, rfl⟩ := shapeWithin_eq_ok.mp found
    obtain ⟨own, first, begins⟩ := ownLines_of_face seen members indent
    have parts : listed.mapM (ctx.dumpEntity .wraps (ctx.dumpOp .wraps below) (indent + 1)) =
        .ok (listed.map fun member => (inner member).lines (indent + 1)) :=
      (mapM_congr fun member isListed => ih (each member isListed) (by omega) (indent + 1)).trans
        List.mapM_pure
    rw [same]
    refine bind_eq_ok.mpr ⟨listed, members, bind_eq_ok.mpr ⟨_, Overflow.inner_wraps ..,
      bind_eq_ok.mpr ⟨own, first, bind_eq_ok.mpr ⟨_, parts, congrArg Except.ok ?_⟩⟩⟩⟩
    rw [Shape.lines, Shape.linesAll_eq_flatMap, List.length_map, List.flatMap_map, ← begins]
    rfl

/--
The dump of an operation is made where everything in it is known and has room, in the lines of its
shape.
-/
theorem recursiveDump_eq_ok_iff {root : OpId} (acyclic : ctx.AcyclicBelow (.op root))
    {indent : UInt64} {lines : List Line} :
    ctx.recursiveDump overflow indent root = .ok lines ↔
      ctx.HasRoom overflow (.op root) indent ∧
        ∃ shape, ctx.shape root = .ok shape ∧ lines = shape.lines indent := by
  have dumped {shape : Shape} (found : ctx.shape root = .ok shape) :
      ctx.recursiveDump .wraps indent root = .ok (shape.lines indent) :=
    @dumpEntity_of_shape ctx ctx.depthBound ctx.depthBound (.op root) shape found le_rfl indent
  constructor
  · intro made
    obtain ⟨known, room⟩ := (recursiveDump_ok_iff acyclic overflow indent).mp ⟨lines, made⟩
    obtain ⟨shape, found⟩ := exists_shapeWithin (fits_depthBound known acyclic)
    refine ⟨room, shape, found, ?_⟩
    exact Except.ok.inj ((recursiveDump_wraps acyclic made).symm.trans (dumped found))
  · rintro ⟨room, shape, found, rfl⟩
    -- What a build that checks its sums makes is no other dump.
    have known := ((recursiveDump_ok_iff acyclic .wraps indent).mp ⟨_, dumped found⟩).1
    obtain ⟨lines, made⟩ := (recursiveDump_ok_iff acyclic overflow indent).mpr ⟨known, room⟩
    rwa [Except.ok.inj ((dumped found).symm.trans (recursiveDump_wraps acyclic made))]

/-- The dump of an operation that has a shape is in its lines. -/
theorem dumpLines_of_shape {root : OpId} (acyclic : ctx.AcyclicBelow (.op root)) {shape : Shape}
    (found : ctx.shape root = .ok shape) (indent : UInt64) :
    ctx.dumpLines root indent = .ok (shape.lines indent) :=
  dumpLines_of_recursiveDump acyclic
    ((recursiveDump_eq_ok_iff acyclic).mpr ⟨hasRoom_wraps _ _, shape, found, rfl⟩)

/-- The lines that come one by one for an operation, from texts of attributes that all end. -/
structure Streams (ctx : Context) (root : OpId) (indent : UInt64) (lines : List Line)
    (overflow : Overflow := .wraps) : Prop where
  /-- Every attribute below the operation is given in full. -/
  ends : ∀ op data, ReflTransGen ctx.Contains (.op root) (.op op) → ctx.op op = .ok data →
    ∀ entry ∈ data.attributes.entries, Ends (entry.2.render ctx)
  /-- As many lines as are asked for are the first ones. -/
  begins : ∀ limit, ctx.firstLines limit root indent overflow = .ok (lines.take limit)

/-- The lines that come one by one are those of the dump by recursion. -/
theorem streams_iff (wellFounded : WellFounded ctx.types.IsParameter) {root : OpId}
    (acyclic : ctx.AcyclicBelow (.op root)) {indent : UInt64} {lines : List Line} :
    ctx.Streams root indent lines overflow ↔
      ctx.recursiveDump overflow indent root = .ok lines := by
  have produces := produces_recursiveDump acyclic overflow indent
  constructor
  · intro streams
    -- More lines than there are and than it takes are all of them.
    obtain ⟨enough, ends⟩ := produces.ends
    have all := streams.begins (max enough lines.length)
    rw [firstLines, ends _ (le_max_left _ _), List.take_of_length_le (le_max_right _ _)] at all
    exact all
  · intro made
    exact ⟨fun _ _ _ _ entry _ => Attribute.ends_render wellFounded entry.2,
      produces.begins lines made⟩

/-- Lines come one by one to an end exactly where all is known below the root and has room. -/
theorem exists_streams_iff (wellFounded : WellFounded ctx.types.IsParameter) {root : OpId}
    (acyclic : ctx.AcyclicBelow (.op root)) (overflow : Overflow) (indent : UInt64) :
    (∃ lines, ctx.Streams root indent lines overflow) ↔
      ctx.KnownBelow (.op root) ∧ ctx.HasRoom overflow (.op root) indent := by
  rw [← recursiveDump_ok_iff acyclic overflow indent]
  exact exists_congr fun lines => streams_iff wellFounded acyclic

/--
Where no type is among its own parameters and no operation below two roots is inside itself, the
lines that come one by one are finitely many exactly where everything below the root is known and
has room. They determine the shape of the root, the indentation of the first line, and where they
end: if the lines of one root, followed by anything, are those of another one, followed by anything,
then both roots have one shape, whatever the builds make of sums that are too large.
-/
theorem shape_eq_of_streams (wellFounded : WellFounded ctx.types.IsParameter)
    (wellFounded' : WellFounded ctx'.types.IsParameter) {root root' : OpId}
    (acyclic : ctx.AcyclicBelow (.op root)) (acyclic' : ctx'.AcyclicBelow (.op root')) :
    (∀ overflow indent, (∃ lines, ctx.Streams root indent lines overflow) ↔
        ctx.KnownBelow (.op root) ∧ ctx.HasRoom overflow (.op root) indent) ∧
      ∀ overflow overflow' indent indent' lines lines' rest rest',
        ctx.Streams root indent lines overflow → ctx'.Streams root' indent' lines' overflow' →
        lines ++ rest = lines' ++ rest' →
        indent = indent' ∧ (∃ shape, ctx.shape root = .ok shape ∧ ctx'.shape root' = .ok shape) ∧
          rest = rest' := by
  refine ⟨exists_streams_iff wellFounded acyclic, ?_⟩
  intro overflow overflow' indent indent' lines lines' rest rest' streams streams' same
  -- Both streams are the lines of shapes, which can be read off them with anything behind.
  obtain ⟨-, shape, found, rfl⟩ :=
    (recursiveDump_eq_ok_iff acyclic).mp ((streams_iff wellFounded acyclic).mp streams)
  obtain ⟨-, shape', found', rfl⟩ :=
    (recursiveDump_eq_ok_iff acyclic').mp ((streams_iff wellFounded' acyclic').mp streams')
  obtain ⟨rfl, rfl, rests⟩ := Shape.lines_append_inj shape shape' same
  exact ⟨rfl, ⟨shape, found, found'⟩, rests⟩

/-- Requests that make two loops, each around a call of its own. -/
def twinLoops : List Request :=
  [.addOp { name := .bare "call" }, .addBlock { ops := [⟨0⟩] }, .addRegion { blocks := [⟨0⟩] },
    .addOp { name := .bare "loop", regions := [⟨0⟩] },
    .addOp { name := .bare "call" }, .addBlock { ops := [⟨2⟩] }, .addRegion { blocks := [⟨1⟩] },
    .addOp { name := .bare "loop", regions := [⟨1⟩] }]

/-- The five lines that a loop around a call is dumped in, when the call has the greatest word. -/
def loopLines : List Line :=
  [.op 18446744073709551612 "loop" 0 0 0 1 0, .regionsHeader 18446744073709551612 1,
    .region 18446744073709551613 1, .block 18446744073709551614 0 0 1,
    .op 18446744073709551615 "call" 0 0 0 0 0]

/-- Two loops that come in the same lines have one shape, also where the last word is reached. -/
theorem shape_eq_of_streams_twinLoops :
    ∃ ctx, build twinLoops = .ok ctx ∧ ctx.AcyclicBelow (.op ⟨1⟩) ∧ ctx.AcyclicBelow (.op ⟨3⟩) ∧
      ctx.KnownBelow (.op ⟨1⟩) ∧ ctx.HasRoom .stops (.op ⟨3⟩) 18446744073709551612 ∧
      ctx.Streams ⟨1⟩ 18446744073709551612 loopLines .wraps ∧
      ctx.Streams ⟨3⟩ 18446744073709551612 loopLines .stops ∧
      ∃ shape, ctx.shape ⟨1⟩ = .ok shape ∧ ctx.shape ⟨3⟩ = .ok shape := by
  -- The last line of each loop stands three levels in from its summary, at the greatest word.
  obtain ⟨ctx, built, types, listed, listedToo, dumped, dumpedToo⟩ :
      ∃ ctx, build twinLoops = .ok ctx ∧ ctx.types.entries = #[] ∧
        ctx.preorder (.op ⟨1⟩) = .ok [.op ⟨1⟩, .region ⟨0⟩, .block ⟨0⟩, .op ⟨0⟩] ∧
        ctx.preorder (.op ⟨3⟩) = .ok [.op ⟨3⟩, .region ⟨1⟩, .block ⟨1⟩, .op ⟨2⟩] ∧
        ctx.recursiveDump .wraps 18446744073709551612 ⟨1⟩ = .ok loopLines ∧
        ctx.recursiveDump .stops 18446744073709551612 ⟨3⟩ = .ok loopLines :=
    ⟨_, rfl, rfl, rfl, rfl, by decide +kernel, by decide +kernel⟩
  have wellFounded : WellFounded ctx.types.IsParameter :=
    TypeTable.wellFounded_of_plain (by simp [types])
  have acyclic : ctx.AcyclicBelow (.op ⟨1⟩) := (preorder_ok_iff.mp ⟨_, listed⟩).2
  have acyclicToo : ctx.AcyclicBelow (.op ⟨3⟩) := (preorder_ok_iff.mp ⟨_, listedToo⟩).2
  -- What was dumped comes line by line, in either kind of build.
  have streams := (streams_iff wellFounded acyclic).mpr dumped
  have streamsToo := (streams_iff wellFounded acyclicToo).mpr dumpedToo
  -- Equal lines belong to equal shapes, and only what is known and has room comes in lines at all.
  obtain ⟨known, decides⟩ := shape_eq_of_streams wellFounded wellFounded acyclic acyclicToo
  obtain ⟨knownToo, -⟩ := shape_eq_of_streams wellFounded wellFounded acyclicToo acyclic
  obtain ⟨-, alike, -⟩ := decides .wraps .stops _ _ _ _ [] [] streams streamsToo rfl
  exact ⟨ctx, built, acyclic, acyclicToo, ((known .wraps _).mp ⟨_, streams⟩).1,
    ((knownToo .stops _).mp ⟨_, streamsToo⟩).2, streams, streamsToo, alike⟩

end Context

end NestedIR
