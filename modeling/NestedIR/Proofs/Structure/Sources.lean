import NestedIR.Proofs.Structure.Shape

/-! Every line of a dump about an operation comes from that operation on the stack. -/

namespace NestedIR

/-- The operation whose summary an item on the stack gives next, if it gives one. -/
def Pending.op? : Pending → Option OpId
  | .entity shown _ => shown.op?
  | .line _ => none

namespace Context

variable {ctx : Context} {overflow : Overflow}

/-- The first lines of a stack, up to a limit, each with the operation on top when it came out. -/
def takeSourced (ctx : Context) (overflow : Overflow) :
    Nat → List Pending → Except Fault (List (Line × Option OpId))
  | 0, _ => return []
  | limit + 1, stack => do
    match ← ctx.nextLine overflow stack with
    | none => return []
    | some (line, rest) =>
      return (line, stack.head?.bind Pending.op?) :: (← ctx.takeSourced overflow limit rest)

/-- The first lines of the dump of an operation, each with the operation that it summarizes. -/
def firstSourced (ctx : Context) (limit : Nat) (op : OpId) (indent : UInt64)
    (overflow : Overflow := .wraps) : Except Fault (List (Line × Option OpId)) :=
  ctx.takeSourced overflow limit [.entity (.op op) indent]

/-- The sources leave the lines as they are. -/
theorem takeSourced_lines (ctx : Context) (overflow : Overflow) (limit : Nat)
    (stack : List Pending) :
    (ctx.takeSourced overflow limit stack).map (List.map Prod.fst) =
      ctx.takeLines overflow limit stack := by
  -- Both take the same next line, whatever is noted beside it.
  induction limit generalizing stack with
  | zero => rfl
  | succ limit ih =>
    rw [takeSourced, takeLines]
    cases ctx.nextLine overflow stack with
    | error fault => rfl
    | ok next =>
      obtain _ | ⟨line, rest⟩ := next
      · rfl
      · show ((ctx.takeSourced overflow limit rest >>= _) : Except Fault _).map _ =
          (ctx.takeLines overflow limit rest >>= _)
        rw [← ih]
        cases ctx.takeSourced overflow limit rest <;> rfl

/-- The lines of an entity down to a depth, each with the operation that it summarizes. -/
def sourcedWithin (ctx : Context) (overflow : Overflow) :
    Nat → UInt64 → Entity → Except Fault (List (Line × Option OpId))
  | 0, _, entity => .error (.containmentCycle entity)
  | depth + 1, indent, entity => do
    let listed ← ctx.members entity
    let inner ← overflow.inner indent listed
    let own ← ctx.ownLines indent overflow entity
    let parts ← listed.mapM (ctx.sourcedWithin overflow depth inner)
    return (own.1, entity.op?) :: own.2.map (·, none) ++ parts.flatten

/-- The sourced lines of an entity are its own lines, and those of its members in order. -/
theorem sourcedWithin_eq_ok {depth : Nat} {indent : UInt64} {entity : Entity}
    {sourced : List (Line × Option OpId)}
    (made : ctx.sourcedWithin overflow (depth + 1) indent entity = .ok sourced) :
    ∃ own listed, ctx.ownLines indent overflow entity = .ok own ∧
      ctx.members entity = .ok listed ∧ overflow.inner indent listed = .ok (indent + 1) ∧
      ∃ part : Entity → List (Line × Option OpId),
        (∀ member ∈ listed,
          ctx.sourcedWithin overflow depth (indent + 1) member = .ok (part member)) ∧
          sourced = (own.1, entity.op?) :: own.2.map (·, none) ++ listed.flatMap part := by
  -- The members stand at the next word, or there would be no lines of the entity.
  obtain ⟨listed, members, made⟩ := bind_eq_ok.mp made
  obtain ⟨inner, further, made⟩ := bind_eq_ok.mp made
  obtain ⟨own, first, made⟩ := bind_eq_ok.mp made
  obtain ⟨parts, mapped, made⟩ := bind_eq_ok.mp made
  cases made
  cases Overflow.eq_of_inner further
  obtain ⟨part, rfl, each⟩ := exists_map_of_mapM mapped
  exact ⟨own, listed, first, members, further, part, each, by rw [List.flatMap_def]⟩

/-- What fits into a depth and has room has sourced lines down to the depth. -/
theorem exists_sourcedWithin {depth : Nat} {entity : Entity} (fits : ctx.Fits depth entity)
    {indent : UInt64} (room : ctx.HasRoom overflow entity indent) :
    ∃ sourced, ctx.sourcedWithin overflow depth indent entity = .ok sourced := by
  -- Members fit into one step less, and have room one level further in.
  induction depth generalizing entity indent with
  | zero => cases fits
  | succ depth ih =>
    obtain ⟨own, first⟩ := exists_ownLines fits indent
    obtain ⟨listed, members, inside⟩ := fits
    rw [hasRoom_iff, listed_eq members] at room
    obtain ⟨further, furtherEntry, roomInside⟩ := room
    obtain ⟨parts, mapped⟩ := mapM_ok_iff.mpr fun member isListed =>
      ih (inside member isListed) (roomInside member isListed)
    refine ⟨_, bind_eq_ok.mpr ⟨listed, members, bind_eq_ok.mpr ⟨_, further,
      bind_eq_ok.mpr ⟨own, ?_, bind_eq_ok.mpr ⟨parts, mapped, rfl⟩⟩⟩⟩⟩
    rw [ownLines_eq, furtherEntry]
    exact first

/-- The top of a stack yields some lines before anything is taken from what is below it. -/
def Yields (ctx : Context) (overflow : Overflow) (top : List Pending)
    (sourced : List (Line × Option OpId)) : Prop :=
  ∀ limit rest, ctx.takeSourced overflow (sourced.length + limit) (top ++ rest) =
    (ctx.takeSourced overflow limit rest).map (sourced ++ ·)

namespace Yields

/-- No items yield no lines. -/
theorem nil : ctx.Yields overflow [] [] := by
  intro limit rest
  simp

/-- What is below the top yields its lines after those of the top. -/
theorem append {top below : List Pending} {front back : List (Line × Option OpId)}
    (yields : ctx.Yields overflow top front) (yieldsToo : ctx.Yields overflow below back) :
    ctx.Yields overflow (top ++ below) (front ++ back) := by
  intro limit rest
  rw [List.length_append, Nat.add_assoc, List.append_assoc, yields, yieldsToo]
  cases ctx.takeSourced overflow limit rest <;> simp [Except.map]

/-- An item that expands yields its line in front of what it expands into. -/
theorem item {top : Pending} {line : Line} {more : List Pending}
    {sourced : List (Line × Option OpId)} (expanded : ctx.expand overflow top = .ok (line, more))
    (yields : ctx.Yields overflow more sourced) :
    ctx.Yields overflow [top] ((line, top.op?) :: sourced) := by
  intro limit rest
  -- The line of the item comes next, in front of what it expands into.
  have next : ctx.nextLine overflow (top :: rest) = .ok (some (line, more ++ rest)) :=
    bind_eq_ok.mpr ⟨(line, more), expanded, rfl⟩
  -- The limit counts this line and all that follow it.
  rw [List.length_cons, Nat.add_right_comm, List.singleton_append, takeSourced, next]
  show (ctx.takeSourced overflow (sourced.length + limit) (more ++ rest) >>= _) = _
  rw [yields]
  cases ctx.takeSourced overflow limit rest <;> rfl

/-- Items yield their lines one after the other. -/
theorem each {α : Type} {items : List α} {pending : α → Pending}
    {part : α → List (Line × Option OpId)}
    (yields : ∀ item ∈ items, ctx.Yields overflow [pending item] (part item)) :
    ctx.Yields overflow (items.map pending) (items.flatMap part) := by
  induction items with
  | nil => exact nil
  | cons first others ih =>
    rw [List.map_cons, List.flatMap_cons, ← List.singleton_append]
    exact (yields first (by simp)).append (ih fun item listed => yields item (by simp [listed]))

/-- Lines that are known already have no source. -/
theorem lines (known : List Line) :
    ctx.Yields overflow (known.map .line) (known.map (·, none)) := by
  -- A known line leaves nothing to be expanded.
  induction known with
  | nil => exact nil
  | cons first others ih =>
    have here : ctx.Yields overflow [.line first] [(first, none)] := item rfl nil
    exact here.append ih

/-- An entity yields its sourced lines. -/
theorem entity {depth : Nat} {indent : UInt64} {entity : Entity}
    {sourced : List (Line × Option OpId)}
    (made : ctx.sourcedWithin overflow depth indent entity = .ok sourced) :
    ctx.Yields overflow [.entity entity indent] sourced := by
  -- Its own lines come first, and its members are next on the stack.
  induction depth generalizing indent entity sourced with
  | zero => cases made
  | succ depth ih =>
    obtain ⟨own, listed, first, members, further, part, each, rfl⟩ := sourcedWithin_eq_ok made
    have expanded : ctx.expand overflow (.entity entity indent) = .ok (own.1,
        own.2.map .line ++ listed.map fun member => .entity member (indent + 1)) :=
      bind_eq_ok.mpr ⟨listed, members, bind_eq_ok.mpr ⟨_, further,
        bind_eq_ok.mpr ⟨own, first, rfl⟩⟩⟩
    have inner := Yields.each fun member isListed => ih (each member isListed)
    exact item expanded ((lines own.2).append inner)

end Yields

/-- With as many lines asked for as there are, the stream gives all of them with their sources. -/
theorem firstSourced_of_within {depth : Nat} {indent : UInt64} {root : OpId}
    {sourced : List (Line × Option OpId)}
    (made : ctx.sourcedWithin overflow depth indent (.op root) = .ok sourced) {limit : Nat}
    (enough : sourced.length ≤ limit) :
    ctx.firstSourced limit root indent overflow = .ok sourced := by
  obtain ⟨more, rfl⟩ := Nat.exists_eq_add_of_le enough
  -- When the root has given its lines, the stack is empty.
  have nothing : ctx.takeSourced overflow more [] = .ok [] := by cases more <;> rfl
  have yielded := Yields.entity made more []
  rw [nothing] at yielded
  rw [firstSourced, ← List.append_nil [Pending.entity (.op root) indent], yielded]
  simp [Except.map]

end Context

end NestedIR
