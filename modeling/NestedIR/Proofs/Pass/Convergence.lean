import NestedIR.Proofs.Pass.Advance

/-! Canonicalization converges within some visits if nothing is left to erase after them. -/

namespace NestedIR

open Relation

namespace Context

/-- Chains list uses of known values only. -/
def UsesKnown (ctx : Context) : Prop :=
  ∀ value use, use ∈ ctx.usesOf value → ∃ data, ctx.value value = .ok data

end Context

/-- A replacement leaves no use of an unknown value if there was none. -/
theorem Replaces.usesKnown {op : OpId} {heir : Option OpId} {moved : ValueId → ValueId}
    {ctx ctx' : Context} (replaces : Replaces op heir moved ctx ctx') (known : ctx.UsesKnown) :
    ctx'.UsesKnown := by
  -- Every use was a use before, of the value itself or of one that has moved to it.
  intro value use listed
  obtain ⟨-, old, rfl, listedOld⟩ := (replaces.mem_usesOf_iff value use).mp listed
  obtain ⟨data, found⟩ := known old use listedOld
  rcases replaces.moved_cases listedOld found with ⟨new, -, isHeir, same⟩ | ⟨-, same⟩
  · obtain ⟨value, -, -, -, foundValue, -⟩ := replaces.isIntConstant_heir isHeir
    exact ⟨value, by rw [same, foundValue]⟩
  · exact ⟨data, by rw [same, replaces.value_known found]⟩

/-- A program below one of whose operations visits come to an answer. -/
structure Ready (root : OpId) (ctx : Context) : Prop where
  /-- The program is sound. -/
  sound : ∃ discarded, Sound discarded ctx
  /-- Definitions stand in front of their uses. -/
  ordered : ctx.UsesInOrder root
  /-- Only known values are read. -/
  reads : ctx.ReadsBelow (fun _ => False) root
  /-- Everything below is known, and nothing is inside itself. -/
  fits : ctx.Fits ctx.depthBound (.op root)

namespace Ready

variable {root op : OpId} {ctx ctx' : Context}

/-- What is below the root does not contain it. -/
theorem outside (ready : Ready root ctx) (below : TransGen ctx.Contains (.op root) (.op op)) :
    ¬ ReflTransGen ctx.Contains (.op op) (.op root) :=
  fun around => ready.fits.not_transGen (TransGen.trans_left below around)

/-- What is below the root is known. -/
theorem index_lt (ready : Ready root ctx) (below : TransGen ctx.Contains (.op root) (.op op)) :
    op.index < ctx.ops.size := by
  obtain ⟨gone, sound⟩ := ready.sound
  obtain ⟨data, -, found, -⟩ := sound.attached_below below
  exact Context.index_lt_of_op found

/-- A rewrite below the root leaves the program as ready as it was. -/
theorem rewrite (ready : Ready root ctx) (rewrite : Rewrite op ctx ctx')
    (below : TransGen ctx.Contains (.op root) (.op op)) : Ready root ctx' := by
  obtain ⟨gone, sound⟩ := ready.sound
  have evolves := rewrite.evolves
  exact ⟨⟨_, sound.rewrite rewrite⟩,
    rewrite.usesInOrder sound (ready.outside below) ready.ordered,
    fun other inside => evolves.readsAt (ready.reads other (evolves.within inside)),
    (evolves.fits ready.fits).mono evolves.depthBound_le⟩

end Ready

/-- Rewrites of operations below a root, each of which is there when it is rewritten. -/
def RewritesBelow (root : OpId) : Context → Context → Prop :=
  ReflTransGen fun ctx ctx' =>
    ∃ op, TransGen ctx.Contains (.op root) (.op op) ∧ Rewrite op ctx ctx'

/-- An operation has had its turn in a visit, or has come in during the visit. -/
def Passed (start : Context) (done : List OpId) (op : OpId) : Prop :=
  op ∈ done ∨ start.ops.size ≤ op.index

/-- A visit below a root after the turns of some operations. -/
structure Underway (root : OpId) (start : Context) (done : List OpId) (ctx : Context) : Prop
    extends Ready root ctx where
  /-- The visit has started from a program that was ready for it. -/
  origin : Ready root start
  /-- The visit has rewritten operations below the root only. -/
  evolves : Evolves (start.Within root) start ctx
  /-- What has not had its turn is still there. -/
  stays : ∀ {op}, TransGen start.Contains (.op root) (.op op) → op ∉ done →
    TransGen ctx.Contains (.op root) (.op op)
  /-- What stands in front of an operation has always done so. -/
  inFront : ∀ {definer user}, definer.index < start.ops.size → user.index < start.ops.size →
    ctx.Precedes definer user → start.Precedes definer user
  /-- Nothing that has had its turn can be folded. -/
  unfolded : ∀ {op}, Passed start done op → ¬ ctx.Folds root op
  /-- Uses of unknown values do not come in. -/
  known : start.UsesKnown → ctx.UsesKnown

/-- The next operation in a visit: all that is inside it or in front of it has had its turn. -/
structure IsNext (root : OpId) (start : Context) (done : List OpId) (op : OpId) : Prop where
  /-- The operation is below the root. -/
  below : TransGen start.Contains (.op root) (.op op)
  /-- The operation has not had its turn. -/
  fresh : op ∉ done
  /-- What comes before it has had its turn. -/
  before : ∀ other, TransGen start.Contains (.op root) (.op other) →
    TransGen start.Contains (.op op) (.op other) ∨ start.Precedes other op → other ∈ done

namespace Underway

variable {root op : OpId} {start ctx ctx' : Context} {done : List OpId}

/-- Before its first turn, a visit is underway in the program that it starts from. -/
theorem of_ready (ready : Ready root start) : Underway root start [] start where
  toReady := ready
  origin := ready
  evolves := .refl _ start
  stays below _ := below
  inFront _ _ inFront := inFront
  unfolded passed folds := by
    -- No operation has passed yet, and what is folded is known from the start.
    obtain ⟨-, data, found, -⟩ := folds
    exact Nat.not_le.mpr (Context.index_lt_of_op found) (passed.resolve_left (by simp))
  known := id

/-- What is late in the rest of a visit can be folded, or has had its turn. -/
def Late (root : OpId) (start : Context) (done : List OpId) (ctx : Context) (op : OpId) : Prop :=
  ctx.Folds root op ∨ Passed start done op

/-- What is inside the next operation has had its turn. -/
theorem passed_of_inside (underway : Underway root start done ctx)
    (isNext : IsNext root start done op) {other : OpId}
    (inside : TransGen ctx.Contains (.op op) (.op other)) :
    Passed start done other := by
  rcases underway.evolves.transGen_contains inside with before | ⟨new, same, fresh⟩
  · exact .inl (isNext.before other (isNext.below.trans before) (.inl before))
  · cases same
    exact .inr fresh

/-- What stands in front of the next operation has had its turn. -/
theorem passed_of_precedes (underway : Underway root start done ctx)
    (isNext : IsNext root start done op) {other : OpId}
    (below : TransGen ctx.Contains (.op root) (.op other)) (inFront : ctx.Precedes other op) :
    Passed start done other := by
  -- Whatever is below now was below in the beginning, or it is a constant that a turn has made.
  rcases underway.evolves.transGen_contains below with before | ⟨new, same, fresh⟩
  · have older := underway.inFront (underway.origin.index_lt before)
      (underway.origin.index_lt isNext.below) inFront
    exact .inl (isNext.before other before (.inr older))
  · cases same
    exact .inr fresh

/-- What the next operation reads has come to be a constant if it comes to be one at all. -/
theorem holdsConstant (underway : Underway root start done ctx)
    (isNext : IsNext root start done op) {index : Nat}
    (comes : ctx.ComesToConstant root ⟨op, index⟩) : ctx.HoldsConstant ⟨op, index⟩ := by
  cases comes with
  | constant held constant => exact ⟨_, held, constant⟩
  | @sum _ value known definer data listed foundValue defines below found isSum left right =>
    -- A sum that it uses stands in front of it, so that it has been folded.
    obtain ⟨again, foundAgain, inFront⟩ := underway.ordered value ⟨op, index⟩ listed
      (underway.stays isNext.below isNext.fresh)
    cases foundValue.symm.trans foundAgain
    have passed := underway.passed_of_precedes isNext below (inFront definer 0 defines)
    exact absurd ⟨below, data, found, isSum, left, right⟩ (underway.unfolded passed)

/-- The next operation has a sum exactly if a visit folds it. -/
theorem folds_iff_sum (underway : Underway root start done ctx)
    (isNext : IsNext root start done op) {data : Operation} (found : ctx.op op = .ok data) :
    ctx.Folds root op ↔ ∃ sum, ctx.sum? data = .ok (some sum) := by
  constructor
  · intro folds
    -- Both operands hold constants when the turn comes, so that they can be added.
    obtain ⟨-, data', found', isSum, left, right⟩ := folds
    cases found.symm.trans found'
    exact (Context.foldable_of_holdsConstant found isSum (underway.holdsConstant isNext left)
      (underway.holdsConstant isNext right)).exists_sum
  -- A sum that is found now is folded in this turn.
  · rintro ⟨sum, computed⟩
    exact Context.folds_of_sum (underway.stays isNext.below isNext.fresh) found computed

/-- When the next operation is replaced, nothing else changes about what is to be erased. -/
theorem advances (underway : Underway root start done ctx) (isNext : IsNext root start done op)
    {data : Operation} (found : ctx.op op = .ok data) {heir : Option OpId}
    {moved : ValueId → ValueId} (replaces : Replaces op heir moved ctx ctx')
    (erased : heir = none → ¬ ctx.Folds root op ∧ ctx.isDead data = true)
    (folded : ∀ new, heir = some new → ctx.Folds root op) :
    Advances root (Late root start done ctx)
      (fun other => ctx.Folds root other ∨ Passed start (done ++ [op]) other) op heir moved ctx
      ctx' := by
  have below := underway.stays isNext.below isNext.fresh
  obtain ⟨gone, sound⟩ := underway.sound
  refine ⟨replaces, ⟨_, sound⟩, ⟨data, found⟩, underway.fits.below.2 _ below.to_reflTransGen,
    underway.outside below, ?_, ?_, fun _ _ _ _ => below, ?_, ?_, ?_, ?_⟩
  · -- Only known values are read below the root.
    intro user slot value belowUser held
    obtain ⟨reader, foundReader, here⟩ := Context.operand?_eq_some_iff.mp held
    exact (underway.reads user (.inl belowUser) reader value foundReader
      (List.mem_of_getElem? here)).resolve_right id
  · -- What the operation uses stands in front of it, and so has had its turn.
    intro other definer value slot belowOther foundOther inResults listed
    obtain ⟨index, here⟩ := List.mem_iff_getElem?.mp inResults
    obtain ⟨known, foundValue, defines⟩ :=
      (sound.results value other index).mpr ⟨definer, foundOther, here⟩
    obtain ⟨again, foundAgain, inFront⟩ := underway.ordered value ⟨op, slot⟩ listed below
    cases foundValue.symm.trans foundAgain
    have before := inFront other index defines
    exact ⟨below, .inr (underway.passed_of_precedes isNext belowOther before)⟩
  -- What is inside it has had its turn as well.
  · intro other inside belowOther
    have passed := underway.passed_of_inside isNext inside
    exact ⟨below, .inr passed, underway.unfolded passed⟩
  · intro other definer foundOther differs
    simp [Late, Passed, differs]
  · -- What is dead and on time is erased in this visit.
    intro _ none
    obtain ⟨stays, dead⟩ := erased none
    obtain ⟨isPure, unused⟩ := Context.isDead_iff_usesOf.mp dead
    have notLate : ¬ Late root start done ctx op := by
      rintro (folds | inDone | fresh)
      · exact stays folds
      · exact isNext.fresh inDone
      · exact absurd (underway.origin.index_lt isNext.below) (Nat.not_lt.mpr fresh)
    refine .inr ⟨below, fun late => absurd late notLate, fun outer _ leaves => ?_, data, found,
      isPure, fun value inResults use listed => ?_⟩
    · exact leaves.elim id fun impossible => absurd impossible.1 (Nat.lt_irrefl 0)
    · rw [unused value inResults] at listed
      cases listed
  -- The heir is newer than the visit, and so it is late itself.
  · intro _ new isHeir
    have folds := folded new isHeir
    refine ⟨folds, .inl folds, .inr (.inr ?_)⟩
    rw [(replaces.heir_eq isHeir).1]
    exact underway.evolves.size_le

/-- What is still to be erased, and when, after a turn in a visit is as it was before. -/
structure KeepsForecast (root : OpId) (start : Context) (late late' : OpId → Prop)
    (ctx ctx' : Context) : Prop where
  /-- Nothing comes to be erased. -/
  before : ∀ {visits}, ctx'.ErasesAfter root late' visits → ctx.ErasesAfter root late visits
  /-- What was to be erased after this visit still is. -/
  after : start.UsesKnown → ∀ {visits}, 1 ≤ visits → ctx.ErasesAfter root late visits →
    ctx'.ErasesAfter root late' visits

/-- A replacement of the next operation takes a visit one turn further. -/
theorem replaced (underway : Underway root start done ctx) (isNext : IsNext root start done op)
    (rewrite : Rewrite op ctx ctx') {heir : Option OpId} {moved : ValueId → ValueId}
    (advances : Advances root (Late root start done ctx)
      (fun other => ctx.Folds root other ∨ Passed start (done ++ [op]) other) op heir moved ctx
      ctx') :
    Underway root start (done ++ [op]) ctx' ∧ KeepsForecast root start (Late root start done ctx)
      (Late root start (done ++ [op]) ctx') ctx ctx' := by
  have replaces := advances.replaces
  have below := underway.stays isNext.below isNext.fresh
  -- The heir is new, so that nothing of the start is the heir.
  have older {new : OpId} (isHeir : heir = some new) : start.ops.size ≤ new.index := by
    rw [(replaces.heir_eq isHeir).1]
    exact underway.evolves.size_le
  -- What is folded or passed is late afterwards exactly if it was so before or is the operation.
  have late (other : OpId) : Late root start (done ++ [op]) ctx' other ↔
      ctx.Folds root other ∨ Passed start (done ++ [op]) other := by
    rw [Late, advances.folds_iff]
    by_cases same : other = op <;> simp [same, Passed]
  refine ⟨⟨underway.rewrite rewrite below, underway.origin, ?_, ?_, ?_, ?_, ?_⟩, ?_, ?_⟩
  -- The evolution goes on by one step below the root.
  · exact underway.evolves.trans (rewrite.evolves.mono fun _ same => same ▸ .inl isNext.below)
  · -- What has not had its turn is neither within the operation nor its heir.
    intro other belowOther fresh
    have known := underway.origin.index_lt belowOther
    refine (replaces.transGen_iff (fun inside => ?_) fun new isHeir same => ?_).mpr
      (underway.stays belowOther fun inDone => fresh (List.mem_append_left _ inDone))
    · rcases reflTransGen_iff_eq_or_transGen.mp inside with same | inside
      · exact fresh (by simp [Entity.op.inj same])
      · rcases underway.passed_of_inside isNext inside with inDone | new
        · exact fresh (List.mem_append_left _ inDone)
        · exact absurd known (Nat.not_lt.mpr new)
    · exact absurd known (Nat.not_lt.mpr (Entity.op.inj same ▸ older isHeir))
  -- The order of the start is not touched by the heir, which was not there.
  · intro definer user knownDefiner knownUser inFront
    refine underway.inFront knownDefiner knownUser
      (replaces.precedes_before (fun new isHeir => ⟨?_, ?_⟩) inFront)
    · rintro rfl
      exact absurd knownDefiner (Nat.not_lt.mpr (older isHeir))
    · rintro rfl
      exact absurd knownUser (Nat.not_lt.mpr (older isHeir))
  · -- The operation itself is gone, and folding it lets nothing else be folded.
    intro other passed folds
    obtain ⟨foldsBefore, differs⟩ := advances.folds_iff.mp folds
    refine underway.unfolded (passed.imp_left fun inDone => ?_) foldsBefore
    simpa [differs] using inDone
  -- What remains is the forecast, which the replacement keeps in both directions.
  · exact fun known => replaces.usesKnown (underway.known known)
  · exact fun erases => advances.erasesAfter
      ((Context.erasesAfter_congr fun other _ _ _ _ => late other).mp erases)
  · exact fun known _ some_ erases =>
      (Context.erasesAfter_congr fun other _ _ _ _ => late other).mpr
        (advances.of_erasesAfter some_ (underway.known known) erases)

/-- A visit goes on to the next turn when the next operation is settled. -/
theorem skipped (underway : Underway root start done ctx) (isNext : IsNext root start done op)
    (settled : Canonicalization.Settled ctx op) :
    Underway root start (done ++ [op]) ctx ∧ KeepsForecast root start (Late root start done ctx)
      (Late root start (done ++ [op]) ctx) ctx ctx := by
  obtain ⟨data, found, none, alive⟩ := settled
  have stays : ¬ ctx.Folds root op := by
    intro folds
    obtain ⟨sum, computed⟩ := (underway.folds_iff_sum isNext found).mp folds
    rw [computed] at none
    cases none
  -- What is late matters only for dead operations, and the settled one is not dead.
  have same {visits : Nat} : ctx.ErasesAfter root (Late root start (done ++ [op]) ctx) visits ↔
      ctx.ErasesAfter root (Late root start done ctx) visits := by
    refine Context.erasesAfter_congr fun other data' _ found' dead => ?_
    have differs : other ≠ op := by
      rintro rfl
      cases found.symm.trans found'
      rw [dead] at alive
      cases alive
    simp [Late, Passed, differs]
  refine ⟨⟨underway.toReady, underway.origin, underway.evolves, ?_, underway.inFront, ?_,
    underway.known⟩, same.mp, fun _ _ _ => same.mpr⟩
  · intro other below fresh
    exact underway.stays below fun inDone => fresh (List.mem_append_left _ inDone)
  · intro other passed
    by_cases own : other = op
    · exact own ▸ stays
    · exact underway.unfolded (passed.imp_left fun inDone => by simpa [own] using inDone)

/-- A turn of the next operation takes a visit one turn further. -/
theorem turn (underway : Underway root start done ctx) (isNext : IsNext root start done op)
    {count : Nat} (ran : Canonicalization.turn op ctx = .ok (count, ctx')) :
    Underway root start (done ++ [op]) ctx' ∧ KeepsForecast root start (Late root start done ctx)
      (Late root start (done ++ [op]) ctx') ctx ctx' := by
  obtain ⟨gone, sound⟩ := underway.sound
  have attached := sound.attached_below (underway.stays isNext.below isNext.fresh)
  -- Where there is a sum a visit folds the operation, and only where there is one.
  cases Canonicalization.turned_of_turn attached ran with
  | settled settled same =>
    subst same
    exact underway.skipped isNext settled
  | erase block data found sumless dead performed =>
    have rewrite : Rewrite op ctx ctx' := .erase block data found dead performed
    have stays : ¬ ctx.Folds root op := by
      intro folds
      obtain ⟨sum, computed⟩ := (underway.folds_iff_sum isNext found).mp folds
      rw [computed] at sumless
      cases sumless
    exact underway.replaced isNext rewrite (underway.advances isNext found
      (.of_erase sound found dead performed) (fun _ => ⟨stays, dead⟩) fun _ none => nomatch none)
  | fold block data sum found computed performed =>
    have rewrite : Rewrite op ctx ctx' := .fold block data sum found computed performed
    have folds := (underway.folds_iff_sum isNext found).mpr ⟨sum, computed⟩
    have replaces := Replaces.of_fold sound found computed performed
    exact underway.replaced isNext rewrite
      (underway.advances isNext found replaces (fun none => nomatch none) fun _ _ => folds)

/-- The turns of the remaining operations take a visit to its end. -/
theorem turns (underway : Underway root start done ctx) {rest : List OpId}
    (split : start.turnsWithin start.depthBound (.op root) = done ++ rest) {count : Nat}
    (ran : Sweep.each Canonicalization.turn rest ctx = .ok (count, ctx')) :
    Underway root start (done ++ rest) ctx' ∧ RewritesBelow root ctx ctx' ∧
      KeepsForecast root start (Late root start done ctx) (Late root start (done ++ rest) ctx') ctx
        ctx' := by
  induction rest generalizing done ctx count with
  | nil =>
    cases ran
    rw [List.append_nil]
    exact ⟨underway, .refl, id, fun _ _ _ => id⟩
  | cons op rest ih =>
    obtain ⟨⟨first, mid⟩, ranFirst, ran⟩ := bind_eq_ok.mp ran
    obtain ⟨⟨more, last⟩, ranRest, made⟩ := bind_eq_ok.mp ran
    cases made
    obtain ⟨gone, sound⟩ := underway.origin.sound
    obtain ⟨below, fresh, before⟩ :=
      Context.turnsWithin_eq_append sound underway.origin.fits split
    -- The next operation has its turn, and the others have theirs in what it leaves.
    obtain ⟨underwayMid, keeps⟩ := underway.turn ⟨below, fresh, before⟩ ranFirst
    obtain ⟨underwayLast, rewrites, keepsToo⟩ := ih underwayMid (by simpa using split) ranRest
    rw [List.append_assoc, List.singleton_append] at underwayLast keepsToo
    refine ⟨underwayLast, ?_, fun erases => keeps.before (keepsToo.before erases),
      fun known _ some_ erases => keepsToo.after known some_ (keeps.after known some_ erases)⟩
    rcases Canonicalization.same_or_rewrite_of_turn ranFirst with same | rewrite
    · exact same ▸ rewrites
    · exact .head ⟨op, underway.stays below fresh, rewrite⟩ rewrites

end Underway

/-- What a visit of everything below a root leads to. -/
structure Visited (root : OpId) (ctx ctx' : Context) : Prop where
  /-- The program is ready for another visit. -/
  ready : Ready root ctx'
  /-- Only what is below the root has been rewritten. -/
  rewrites : RewritesBelow root ctx ctx'
  /-- Nothing can be folded any more. -/
  unfolded : ∀ op, ¬ ctx'.Folds root op
  /-- What remains to be erased after some visits was to be erased after one more. -/
  before : ∀ {visits}, ctx'.LastsBeyond root visits → ctx.LastsBeyond root (visits + 1)
  /-- What was to be erased after some more visits still is, if only known values are used. -/
  after : ctx.UsesKnown → ∀ {visits}, ctx.LastsBeyond root (visits + 1) →
    ctx'.LastsBeyond root visits
  /-- Uses of unknown values do not come in. -/
  known : ctx.UsesKnown → ctx'.UsesKnown

namespace Ready

open Canonicalization

variable {root op : OpId} {ctx ctx' : Context} {count : Nat}

/-- After a visit nothing is folded any more, and what remains to be erased takes one visit less. -/
theorem visit (ready : Ready root ctx)
    (visited : visit builtinPatterns root ctx = .ok (count, ctx')) : Visited root ctx ctx' := by
  obtain ⟨gone, sound⟩ := ready.sound
  rw [visit_eq_turns sound ready.fits] at visited
  obtain ⟨underway, rewrites, keeps⟩ := (Underway.of_ready ready).turns rfl visited
  rw [List.nil_append] at underway keeps
  -- Everything that is there in the end has had its turn, or has come in.
  have passed {op : OpId} (below : TransGen ctx'.Contains (.op root) (.op op)) :
      Passed ctx (ctx.turnsWithin ctx.depthBound (.op root)) op := by
    rcases underway.evolves.transGen_contains below with before | ⟨new, same, fresh⟩
    · exact .inl ((Context.mem_turnsWithin_iff ready.fits).mpr before)
    · cases same
      exact .inr fresh
  have none (op : OpId) : ¬ ctx'.Folds root op :=
    fun folds => underway.unfolded (passed folds.1) folds
  -- Before the visit only what is folded is late, and after it everything is.
  have atStart {visits : Nat} : ctx.ErasesAfter root (Underway.Late root ctx [] ctx) visits ↔
      ctx.LastsBeyond root visits := by
    refine Context.erasesAfter_congr fun op data below found _ => or_iff_left fun passed => ?_
    exact Nat.not_le.mpr (Context.index_lt_of_op found) (passed.resolve_left (by simp))
  have atEnd {visits : Nat} : ctx'.ErasesAfter root
      (Underway.Late root ctx (ctx.turnsWithin ctx.depthBound (.op root)) ctx') (visits + 1) ↔
        ctx'.LastsBeyond root visits := by
    have later {op : OpId} {visits : Nat} : ctx'.ErasedBy root (Underway.Late root ctx
        (ctx.turnsWithin ctx.depthBound (.op root)) ctx') (visits + 1) op ↔
          ctx'.ErasedBy root (ctx'.Folds root) visits op :=
      Context.erasedBy_succ_of_late (fun _ below => .inr (passed below)) none
    exact exists_congr fun op => and_congr later (not_congr later)
  exact {
    ready := underway.toReady
    rewrites
    unfolded := none
    before := fun lasts => atStart.mp (keeps.before (atEnd.mpr lasts))
    after := fun known visits lasts =>
      atEnd.mp (keeps.after known (Nat.le_add_left 1 visits) (atStart.mpr lasts))
    known := underway.known }

/-- What is inside the root is owned by the blocks that list it. -/
theorem ownedBelow (ready : Ready root ctx) : ctx.OwnedBelow root := by
  obtain ⟨gone, sound⟩ := ready.sound
  exact sound.ops.ownedBelow root

/-- A visit is at rest where it folds nothing and has nothing to erase. -/
theorem rests_of_not_lastsBeyond (ready : Ready root ctx) (none : ∀ op, ¬ ctx.Folds root op)
    (ends : ¬ ctx.LastsBeyond root 0) :
    (Canonicalization.visit builtinPatterns root).Rests ctx := by
  refine (rests_visit_iff ready.fits ready.ownedBelow).mpr fun op below => ?_
  obtain ⟨gone, sound⟩ := ready.sound
  obtain ⟨data, -, found, -⟩ := sound.attached_below below
  exact settled_of_not_leaves sound.results below found (ready.reads op (.inl below)) (none op)
    fun erased => ends ⟨op, erased, id⟩

/-- Where a visit is at rest, nothing is left to erase after any number of visits. -/
theorem not_lastsBeyond_of_rests (ready : Ready root ctx)
    (rests : (Canonicalization.visit builtinPatterns root).Rests ctx) (visits : Nat) :
    ¬ ctx.LastsBeyond root visits := by
  rintro ⟨op, erased, -⟩
  exact not_erasedBy_of_settled ((rests_visit_iff ready.fits ready.ownedBelow).mp rests) erased

/--
A canonicalization converges within one more visit than there is something left to erase after.

The visits must be enough for what is folded in the first of them.
-/
theorem converged_of_iterate (ready : Ready root ctx) {visits : Nat} {result : Result}
    (ripe : 1 ≤ visits ∨ ∀ op, ¬ ctx.Folds root op)
    (done : iterate builtinPatterns root (visits + 1) ctx = .ok (result, ctx')) :
    (¬ ctx.LastsBeyond root visits → result.converged = true) ∧
      (ctx.UsesKnown → result.converged = true → ¬ ctx.LastsBeyond root visits) := by
  -- The first visit folds what there is to fold, and each visit leaves one less to the others.
  induction visits generalizing ctx result with
  | zero =>
    have none := ripe.resolve_left (by omega)
    -- The only visit either changes nothing or leaves the run without an answer.
    obtain ⟨⟨count, mid⟩, visited, rest⟩ := bind_eq_ok.mp done
    dsimp only at rest
    split at rest
    · rename_i isZero
      cases rest
      subst isZero
      cases honest_visitBelow _ root ctx _ visited
      exact ⟨fun _ => rfl, fun _ _ => ready.not_lastsBeyond_of_rests visited 0⟩
    · rename_i changed
      obtain ⟨⟨later, last⟩, again, made⟩ := bind_eq_ok.mp rest
      cases made
      cases again
      refine ⟨fun ends => ?_, fun _ impossible => nomatch impossible⟩
      -- A visit that counts changes was not at rest.
      cases (ready.rests_of_not_lastsBeyond none ends).symm.trans visited
      exact absurd rfl changed
  | succ visits ih =>
    -- A first visit that changes nothing has converged already.
    obtain ⟨⟨count, mid⟩, visited, rest⟩ := bind_eq_ok.mp done
    dsimp only at rest
    split at rest
    · rename_i isZero
      cases rest
      subst isZero
      cases honest_visitBelow _ root ctx _ visited
      exact ⟨fun _ => rfl, fun _ _ => ready.not_lastsBeyond_of_rests visited _⟩
    · obtain ⟨⟨later, last⟩, again, made⟩ := bind_eq_ok.mp rest
      cases made
      -- A first visit that changes something leaves one visit less for what is late.
      have visitedMid := ready.visit visited
      obtain ⟨ends, lasts⟩ := ih visitedMid.ready (.inr visitedMid.unfolded) again
      exact ⟨fun ended => ends fun left => ended (visitedMid.before left),
        fun known converged left => lasts (visitedMid.known known) converged
          (visitedMid.after known left)⟩

/-- A canonicalization rewrites only what is below its root at the time. -/
theorem rewritesBelow_of_iterate (ready : Ready root ctx) {limit : Nat} {result : Result}
    (done : iterate builtinPatterns root limit ctx = .ok (result, ctx')) :
    RewritesBelow root ctx ctx' := by
  -- A visit that changes nothing ends the run, and what others leave is ready again.
  induction limit generalizing ctx result with
  | zero =>
    cases done
    exact .refl
  | succ limit ih =>
    obtain ⟨⟨count, mid⟩, visited, rest⟩ := bind_eq_ok.mp done
    have visitedMid := ready.visit visited
    dsimp only at rest
    split at rest
    · cases rest
      exact visitedMid.rewrites
    · obtain ⟨⟨later, last⟩, again, made⟩ := bind_eq_ok.mp rest
      cases made
      exact visitedMid.rewrites.trans (ih visitedMid.ready again)

end Ready

end NestedIR
