import NestedIR.Proofs.Pass.Schedule

/-! A visit gives each operation below its root one turn, in an order fixed from the start. -/

namespace NestedIR

open Relation

namespace Sweep

variable {α β : Type} {ctx : Context} {first second third : Sweep}

/-- Two sweeps do the same if the first parts do, and the second parts do on what is left then. -/
theorem andThen_congr {first' second' : Sweep} (same : first ctx = first' ctx)
    (sameToo : ∀ count mid, first' ctx = .ok (count, mid) → second mid = second' mid) :
    first.andThen second ctx = first'.andThen second' ctx := by
  -- The second part sees only what the first one leaves, and is not run after a fault.
  show first ctx >>= _ = first' ctx >>= _
  rw [same]
  cases ran : first' ctx with
  | error fault => rfl
  | ok answer =>
    show second answer.2 >>= _ = second' answer.2 >>= _
    rw [sameToo answer.1 answer.2 ran]

/-- Three sweeps one after the other are counted together in any grouping. -/
theorem andThen_assoc :
    (first.andThen second).andThen third ctx = first.andThen (second.andThen third) ctx := by
  simp only [andThen, bind_assoc, pure_bind, Nat.add_assoc]

/-- Doing nothing before a sweep adds nothing to it. -/
theorem idle_andThen : idle.andThen second ctx = second ctx := by
  simp [andThen, idle]

/-- Sweeps for the items of two lists come one after another. -/
theorem each_append {step : α → Sweep} (front back : List α) :
    each step (front ++ back) ctx = (each step front).andThen (each step back) ctx := by
  induction front generalizing ctx with
  | nil => exact idle_andThen.symm
  | cons item front ih =>
    exact (andThen_congr rfl fun _ _ _ => ih).trans andThen_assoc.symm

end Sweep

namespace Replaces

variable {op : OpId} {heir : Option OpId} {moved : ValueId → ValueId} {ctx ctx' : Context}

/-- What does not list the operation lists the same after it has been replaced. -/
theorem members (replaces : Replaces op heir moved ctx ctx') {entity : Entity}
    {members : List Entity} (known : ctx.members entity = .ok members)
    (absent : .op op ∉ members) : ctx'.members entity = .ok members := by
  -- Only the list of a block could have the operation in it.
  cases entity with
  | op other =>
    obtain ⟨data, found, made⟩ := bind_eq_ok.mp known
    exact bind_eq_ok.mpr ⟨_, replaces.op_known found, made⟩
  | region region =>
    obtain ⟨data, found, made⟩ := bind_eq_ok.mp known
    refine bind_eq_ok.mpr ⟨data, ?_, made⟩
    rw [Context.region_congr replaces.regions_eq, found]
  | block block =>
    obtain ⟨data, found, made⟩ := bind_eq_ok.mp known
    cases made
    have unlisted : op ∉ data.ops := fun listed => absent (List.mem_map_of_mem listed)
    have foundAfter : ctx'.block block = .ok { data with ops := succession op heir data.ops } := by
      rw [replaces.block_eq, found]
      rfl
    exact bind_eq_ok.mpr ⟨_, foundAfter, by rw [succession_of_not_mem unlisted]; rfl⟩

/-- What cannot reach the operation lists the same below after it has been replaced. -/
theorem sameBelow (replaces : Replaces op heir moved ctx ctx') {entity : Entity}
    (apart : ¬ ReflTransGen ctx.Contains entity (.op op)) : ctx.SameBelow ctx' entity :=
  fun _ members path known => replaces.members known fun listed =>
    apart (path.tail ⟨members, known, listed⟩)

end Replaces

namespace Context.SameBelow

variable {ctx mid ctx' : Context} {entity inner : Entity}

/-- What lists the same below reaches the same. -/
theorem reaches_iff {depth : Nat} (same : ctx.SameBelow mid entity)
    (fits : ctx.Fits depth entity) :
    ReflTransGen mid.Contains entity inner ↔ ReflTransGen ctx.Contains entity inner := by
  induction depth generalizing entity with
  | zero => cases fits
  | succ depth ih =>
    -- A way down ends here, or starts with a member that is the same in both programs.
    obtain ⟨members, known, below⟩ := fits
    have knownMid := same entity members .refl known
    rw [ReflTransGen.cases_head_iff, ReflTransGen.cases_head_iff]
    refine or_congr_right (exists_congr fun member => ?_)
    have contains : mid.Contains entity member ↔ ctx.Contains entity member := by
      simp [Contains, known, knownMid]
    rw [contains]
    refine and_congr_right fun holds => ?_
    obtain ⟨_, again, isListed⟩ := holds
    cases known.symm.trans again
    exact ih (same.of_contains ⟨members, known, isListed⟩) (below member isListed)

/-- Two programs that list the same below lead on to a third one. -/
theorem trans (first : ctx.SameBelow mid entity) (second : mid.SameBelow ctx' entity)
    {depth : Nat} (fits : ctx.Fits depth entity) : ctx.SameBelow ctx' entity :=
  fun inner members path known => second inner members ((first.reaches_iff fits).mpr path)
    (first inner members path known)

end Context.SameBelow

namespace Canonicalization

variable {discarded : OpId → Prop} {ctx mid ctx' : Context} {op : OpId} {count : Nat}

/-- The turn of an operation in a visit: the built-in patterns are tried on it in its block. -/
def turn (op : OpId) : Sweep := fun ctx => do
  match (← ctx.op op).parentBlock with
  | some block => (Pattern.applyFirst block op builtinPatterns).counted ctx
  | none => return (0, ctx)

/-- What a turn of a known operation comes to, and how it counts. -/
inductive TurnsInto (op : OpId) (data : Operation) (ctx : Context) : Nat → Context → Prop where
  /-- What is in no block is passed over. -/
  | free (free : data.parentBlock = none) : TurnsInto op data ctx 0 ctx
  /-- An addition of constants is folded. -/
  | fold {ctx' : Context} (block : BlockId) (sum : Sum) (owner : data.parentBlock = some block)
    (computed : ctx.sum? data = .ok (some sum))
    (performed : ctx.performAll (ctx.foldRequests block op sum) = .ok ctx') :
    TurnsInto op data ctx 1 ctx'
  /-- What is dead and nothing to fold is erased. -/
  | erase {ctx' : Context} (block : BlockId) (owner : data.parentBlock = some block)
    (sumless : ctx.sum? data = .ok none) (dead : ctx.isDead data = true)
    (performed : ctx.performAll (Context.eraseRequests block op) = .ok ctx') :
    TurnsInto op data ctx 1 ctx'
  /-- What is neither stays. -/
  | stay (block : BlockId) (owner : data.parentBlock = some block)
    (sumless : ctx.sum? data = .ok none) (alive : ctx.isDead data = false) :
    TurnsInto op data ctx 0 ctx

/-- A turn of a known operation comes to one of these ends. -/
theorem turnsInto_of_turn {data : Operation} (found : ctx.op op = .ok data)
    (done : turn op ctx = .ok (count, ctx')) : TurnsInto op data ctx count ctx' := by
  obtain ⟨again, foundAgain, rest⟩ := bind_eq_ok.mp done
  cases found.symm.trans foundAgain
  cases owner : data.parentBlock with
  | none =>
    simp only [owner] at rest
    cases rest
    exact .free owner
  | some block =>
    simp only [owner] at rest
    obtain ⟨⟨applied, last⟩, ran, made⟩ := bind_eq_ok.mp rest
    cases made
    rw [applyFirst_builtinPatterns found] at ran
    obtain ⟨sum?, computed, rest⟩ := bind_eq_ok.mp ran
    -- Only where there is no sum is the operation erased.
    cases sum? with
    | some sum =>
      obtain ⟨_, performed, made⟩ := map_eq_ok.mp rest
      cases made
      exact .fold block sum owner computed performed
    | none =>
      dsimp only at rest
      split at rest
      · rename_i dead
        obtain ⟨_, performed, made⟩ := map_eq_ok.mp rest
        cases made
        exact .erase block owner computed dead performed
      · rename_i alive
        cases rest
        exact .stay block owner computed (Bool.not_eq_true _ ▸ alive)

/-- What a turn of an operation in a block comes to. -/
inductive Turned (op : OpId) (ctx ctx' : Context) : Prop where
  /-- An addition of constants is folded. -/
  | fold (block : BlockId) (data : Operation) (sum : Sum) (found : ctx.op op = .ok data)
    (computed : ctx.sum? data = .ok (some sum))
    (performed : ctx.performAll (ctx.foldRequests block op sum) = .ok ctx')
  /-- What is dead and nothing to fold is erased. -/
  | erase (block : BlockId) (data : Operation) (found : ctx.op op = .ok data)
    (sumless : ctx.sum? data = .ok none) (dead : ctx.isDead data)
    (performed : ctx.performAll (Context.eraseRequests block op) = .ok ctx')
  /-- An operation with nothing to do stays. -/
  | settled (settled : Settled ctx op) (same : ctx' = ctx)

/-- A turn of an operation in a block ends in one of these ways. -/
theorem turned_of_turn (attached : ctx.Attached op) (done : turn op ctx = .ok (count, ctx')) :
    Turned op ctx ctx' := by
  obtain ⟨data, block, found, owner⟩ := attached
  cases turnsInto_of_turn found done with
  | free free => cases free.symm.trans owner
  | fold block sum owner computed performed => exact .fold block data sum found computed performed
  | erase block owner sumless dead performed => exact .erase block data found sumless dead performed
  | stay block owner sumless alive => exact .settled ⟨data, found, sumless, alive⟩ rfl

/-- A turn rewrites the operation, or changes nothing. -/
theorem same_or_rewrite_of_turn (done : turn op ctx = .ok (count, ctx')) :
    ctx' = ctx ∨ Rewrite op ctx ctx' := by
  -- The outcomes of a turn are told apart by what it does to the operation.
  obtain ⟨data, found, -⟩ := bind_eq_ok.mp done
  cases turnsInto_of_turn found done with
  | free free => exact .inl rfl
  | fold block sum owner computed performed =>
    exact .inr (.fold block data sum found computed performed)
  | erase block owner sumless dead performed =>
    exact .inr (.erase block data found dead performed)
  | stay block owner sumless alive => exact .inl rfl

/-- What the turns of some operations leave alone. -/
structure KeepsOthers (ops : List OpId) (ctx ctx' : Context) : Prop where
  /-- The program stays sound. -/
  sound : ∃ discarded, Sound discarded ctx'
  /-- What does not contain the operations lists the same below. -/
  sameBelow : ∀ {entity depth}, ctx.Fits depth entity →
    (∀ op ∈ ops, ¬ ReflTransGen ctx.Contains entity (.op op)) → ctx.SameBelow ctx' entity
  /-- Others stay where they are. -/
  contains : ∀ {outer inner}, ctx.Contains outer inner → (∀ op ∈ ops, inner ≠ .op op) →
    ctx'.Contains outer inner

/-- Turns of operations leave the others alone. -/
theorem keepsOthers_of_turns {ops : List OpId} (sound : Sound discarded ctx)
    (done : Sweep.each turn ops ctx = .ok (count, ctx')) : KeepsOthers ops ctx ctx' := by
  induction ops generalizing ctx discarded count with
  | nil =>
    cases done
    exact ⟨⟨_, sound⟩, fun _ _ _ _ _ known => known, fun holds _ => holds⟩
  | cons op rest ih =>
    obtain ⟨⟨first, mid⟩, ran, done⟩ := bind_eq_ok.mp done
    obtain ⟨⟨more, last⟩, ranRest, made⟩ := bind_eq_ok.mp done
    cases made
    -- The first turn replaces its operation at most, and the other turns go on from there.
    rcases same_or_rewrite_of_turn ran with same | rewrite
    · cases same
      have keeps := ih sound ranRest
      refine ⟨keeps.sound, fun fits apart => ?_, fun holds others => ?_⟩
      · exact keeps.sameBelow fits fun other has => apart other (by simp [has])
      · exact keeps.contains holds fun other has => others other (by simp [has])
    · have keeps := ih (sound.rewrite rewrite) ranRest
      obtain ⟨heir, moved, replaces⟩ := rewrite.exists_replaces sound
      refine ⟨keeps.sound, fun {entity _} fits apart => ?_, fun holds others => ?_⟩
      · have same : ctx.SameBelow mid entity := replaces.sameBelow (apart op (by simp))
        refine same.trans (keeps.sameBelow (same.fits fits) fun other has path => ?_) fits
        exact apart other (by simp [has]) ((same.reaches_iff fits).mp path)
      · have holdsMid := replaces.contains_iff.mpr (.inl ⟨holds, others op (by simp)⟩)
        exact keeps.contains holdsMid fun other has => others other (by simp [has])

section Members

variable {α : Type} {wrap : α → Entity} {step : α → Sweep} {depth : Nat} {entity : Entity}

/-- A sweep for a member gives turns to what is inside it, and last to the member itself. -/
def GivesTurns (ctx : Context) (depth : Nat) (entity : Entity) (member : Entity) (sweep : Sweep) :
    Prop :=
  ∀ mid, (∃ discarded, Sound discarded mid) → ctx.SameBelow mid member →
    mid.Contains entity member →
      sweep mid = Sweep.each turn (ctx.turnsWithin depth member ++ member.op?.toList) mid

/-- Sweeps for members of an entity give turns one after another, as they leave each other alone. -/
theorem each_eq_turns_of_members (sound : Sound discarded ctx) (fits : ctx.Fits (depth + 1) entity)
    {items : List α} (distinct : (items.map wrap).Nodup)
    (contains : ∀ item ∈ items, ctx.Contains entity (wrap item))
    (gives : ∀ item ∈ items, GivesTurns ctx depth entity (wrap item) (step item))
    (soundMid : ∃ discarded, Sound discarded mid)
    (same : ∀ item ∈ items, ctx.SameBelow mid (wrap item))
    (stay : ∀ item ∈ items, mid.Contains entity (wrap item)) :
    Sweep.each step items mid = Sweep.each turn (items.flatMap fun item =>
      ctx.turnsWithin depth (wrap item) ++ (wrap item).op?.toList) mid := by
  induction items generalizing mid with
  | nil => rfl
  | cons item rest ih =>
    -- The turns for the first member leave the others as they were.
    rw [List.flatMap_cons, Sweep.each_append]
    rw [List.map_cons, List.nodup_cons] at distinct
    have holds := contains item (by simp)
    refine Sweep.andThen_congr
      (gives item (by simp) mid soundMid (same item (by simp)) (stay item (by simp)))
      fun count last ran => ?_
    obtain ⟨gone, soundMid⟩ := soundMid
    have keeps := keepsOthers_of_turns soundMid ran
    -- What has a turn is reached from the first member, and so from no other one.
    have apart {other : α} (isRest : other ∈ rest) {op : OpId}
        (has : op ∈ ctx.turnsWithin depth (wrap item) ++ (wrap item).op?.toList) :
        ¬ ReflTransGen ctx.Contains (wrap other) (.op op) := by
      intro path
      have reached := Context.reaches_of_turn (fits.of_contains holds) has
      have equal := sound.eq_of_common fits holds (contains other (by simp [isRest])) reached path
      exact distinct.1 (equal ▸ List.mem_map_of_mem isRest)
    refine ih distinct.2 (fun other isRest => contains other (by simp [isRest]))
      (fun other isRest => gives other (by simp [isRest])) keeps.sound
      (fun other isRest => ?_) fun other isRest => ?_
    · have sameOther := same other (by simp [isRest])
      have fitsOther := fits.of_contains (contains other (by simp [isRest]))
      refine sameOther.trans (keeps.sameBelow (sameOther.fits fitsOther) ?_) fitsOther
      intro op has path
      exact apart isRest has ((sameOther.reaches_iff fitsOther).mp path)
    · refine keeps.contains (stay other (by simp [isRest])) fun op has equal => ?_
      exact apart isRest has (equal ▸ .refl)

/-- Sweeps for all members of an entity give the turns of that entity. -/
theorem each_eq_turns (sound : Sound discarded ctx) (fits : ctx.Fits (depth + 1) entity)
    {items : List α} (known : ctx.members entity = .ok (items.map wrap))
    (gives : ∀ item ∈ items, GivesTurns ctx depth entity (wrap item) (step item)) :
    Sweep.each step items ctx = Sweep.each turn (ctx.turnsWithin (depth + 1) entity) ctx := by
  -- The members are different from each other, so that the turn of one leaves the others to theirs.
  have contains : ∀ item ∈ items, ctx.Contains entity (wrap item) :=
    fun item isListed => ⟨_, known, List.mem_map_of_mem isListed⟩
  have distinct : (items.map wrap).Nodup := Context.listed_eq known ▸ sound.nodup_listed entity
  rw [each_eq_turns_of_members sound fits distinct contains gives ⟨_, sound⟩
    (fun _ _ _ _ _ known => known) contains, Context.turnsWithin, Context.listed_eq known,
    List.flatMap_map]

/-- A sweep gives turns to what is inside a member if it does so in every sound program. -/
theorem GivesTurns.of_eq_turns {member : Entity} {sweep : Sweep} (fits : ctx.Fits depth member)
    (unshown : member.op? = none)
    (same : ∀ {discarded mid}, Sound discarded mid → mid.Fits depth member →
      sweep mid = Sweep.each turn (mid.turnsWithin depth member) mid) :
    GivesTurns ctx depth entity member sweep := by
  intro mid soundMid sameMid _
  obtain ⟨gone, soundMid⟩ := soundMid
  rw [same soundMid (sameMid.fits fits), sameMid.turnsWithin fits, unshown]
  simp

end Members

section Levels

variable {visit : OpId → Sweep} {depth : Nat}

/-- A sweep below each operation that gives turns to everything inside it. -/
def VisitsTurns (depth : Nat) (visit : OpId → Sweep) : Prop :=
  ∀ {discarded ctx op}, Sound discarded ctx → ctx.Fits depth (.op op) →
    visit op ctx = Sweep.each turn (ctx.turnsWithin depth (.op op)) ctx

/-- The visit of an operation in its block gives turns to what is inside it and then to itself. -/
theorem givesTurns_visitOp (visits : VisitsTurns depth visit) {block : BlockId} {shallow : Nat}
    (fits : ctx.Fits shallow (.op op)) (le : shallow ≤ depth) :
    GivesTurns ctx shallow (.block block) (.op op) (visitOp visit block op) := by
  intro mid soundMid same holds
  obtain ⟨gone, soundMid⟩ := soundMid
  have recorded {mid : Context} (soundMid : ∃ discarded, Sound discarded mid)
      (holds : mid.Contains (.block block) (.op op)) :
      ∃ data, mid.op op = .ok data ∧ data.parentBlock = some block := by
    obtain ⟨gone, soundMid⟩ := soundMid
    obtain ⟨target, _, known, listed, same⟩ := Context.contains_block.mp holds
    cases same
    exact soundMid.ops.recorded known listed
  obtain ⟨data, found, owner⟩ := recorded ⟨_, soundMid⟩ holds
  have reached : visitOp visit block op mid =
      (visit op).andThen (Pattern.applyFirst block op builtinPatterns).counted mid := by
    show (mid.op op >>= _) = _
    rw [found]
    exact if_pos owner
  -- Nothing inside has changed, so that the turns are those of the first program.
  have fitsMid := same.fits fits
  have inside : visit op mid = Sweep.each turn (ctx.turnsWithin shallow (.op op)) mid := by
    rw [visits soundMid (fitsMid.mono le), Context.turnsWithin_of_fits fitsMid le,
      same.turnsWithin fits]
  rw [reached, Sweep.each_append]
  refine Sweep.andThen_congr inside fun count last ran => ?_
  -- What is inside leaves the operation itself in the block.
  have keeps := keepsOthers_of_turns soundMid ran
  have stays : last.Contains (.block block) (.op op) := by
    refine keeps.contains holds fun other has equal => ?_
    cases equal
    exact fits.not_transGen ((Context.mem_turnsWithin_iff fits).mp has)
  obtain ⟨data', found', owner'⟩ := recorded keeps.sound stays
  have own : turn op last =
      (Pattern.applyFirst block op builtinPatterns).counted last := by
    show (last.op op >>= _) = _
    rw [found']
    show (match data'.parentBlock with | some block => _ | none => _) = _
    rw [owner']
  have alone : Sweep.each turn (Entity.op? (.op op)).toList last = turn op last := by
    show (turn op last >>= fun answer => pure (answer.1 + 0, answer.2)) = turn op last
    simp
  rw [alone, own]

/-- The visit of the operations of a block gives turns to everything inside the block. -/
theorem visitBlock_eq_turns (visits : VisitsTurns depth visit) (sound : Sound discarded ctx)
    {block : BlockId} {shallow : Nat} (fits : ctx.Fits shallow (.block block))
    (le : shallow ≤ depth) : Sweep.eachOp (visitOp visit block) block ctx =
      Sweep.each turn (ctx.turnsWithin shallow (.block block)) ctx := by
  cases shallow with
  | zero => cases fits
  | succ shallow =>
    -- The block is known and lists what fits a level deeper.
    obtain ⟨target, known⟩ := fits.exists_block
    have members : ctx.members (.block block) = .ok (target.ops.map .op) :=
      bind_eq_ok.mpr ⟨target, known, rfl⟩
    show (ctx.block block >>= _) = _
    rw [known]
    refine each_eq_turns sound fits members fun op listed => ?_
    have fitsOp := fits.of_contains ⟨_, members, List.mem_map_of_mem listed⟩
    exact givesTurns_visitOp visits fitsOp (by omega)

/-- The visit of the blocks of a region gives turns to everything inside the region. -/
theorem visitRegion_eq_turns (visits : VisitsTurns depth visit) (sound : Sound discarded ctx)
    {region : RegionId} {shallow : Nat} (fits : ctx.Fits shallow (.region region))
    (le : shallow ≤ depth) :
    (ctx.region region >>= fun listed =>
        Sweep.each (fun block => Sweep.eachOp (visitOp visit block) block) listed.blocks ctx) =
      Sweep.each turn (ctx.turnsWithin shallow (.region region)) ctx := by
  cases shallow with
  | zero => cases fits
  | succ shallow =>
    -- The region is known and lists what fits a level deeper.
    obtain ⟨listed, known⟩ := fits.exists_region
    have members : ctx.members (.region region) = .ok (listed.blocks.map .block) :=
      bind_eq_ok.mpr ⟨listed, known, rfl⟩
    rw [known]
    refine each_eq_turns sound fits members fun block inBlocks => ?_
    have fitsBlock := fits.of_contains ⟨_, members, List.mem_map_of_mem inBlocks⟩
    exact .of_eq_turns fitsBlock rfl fun soundMid fitsMid =>
      visitBlock_eq_turns visits soundMid fitsMid (by omega)

/-- A visit below an operation gives turns to everything inside it. -/
theorem visitBelow_eq_turns (depth : Nat) :
    VisitsTurns depth (visitBelow builtinPatterns depth) := by
  -- What is nested deeper is visited with less depth left, in which it fits.
  induction depth with
  | zero => exact fun _ fits => nomatch fits
  | succ depth ih =>
    intro discarded ctx op sound fits
    obtain ⟨data, found⟩ := fits.exists_op
    have members : ctx.members (.op op) = .ok (data.regions.map .region) :=
      bind_eq_ok.mpr ⟨data, found, rfl⟩
    show (ctx.op op >>= _) = _
    rw [found]
    refine each_eq_turns sound fits members fun region inRegions => ?_
    have fitsRegion := fits.of_contains ⟨_, members, List.mem_map_of_mem inRegions⟩
    exact .of_eq_turns fitsRegion rfl fun soundMid fitsMid =>
      visitRegion_eq_turns ih soundMid fitsMid le_rfl

end Levels

/-- A visit gives turns to everything inside its root. -/
theorem visit_eq_turns (sound : Sound discarded ctx) {root : OpId}
    (fits : ctx.Fits ctx.depthBound (.op root)) : visit builtinPatterns root ctx =
      Sweep.each turn (ctx.turnsWithin ctx.depthBound (.op root)) ctx := by
  -- A visit starts with more depth than is needed.
  have room : ctx.depthBound ≤ ctx.depthBound * (builtinPatterns.length + 1) :=
    Nat.le_mul_of_pos_right _ (by simp)
  rw [visit, visitBelow_eq_turns _ sound (fits.mono room), Context.turnsWithin_of_fits fits room]

end Canonicalization

end NestedIR
