import NestedIR.Proofs.Pass.Elimination
import NestedIR.Proofs.Pass.Order
import NestedIR.Proofs.Pass.Preservation

/-! Optimisation erases pure operations or folds sums below its root, and leaves all else alone. -/

namespace NestedIR

open Relation

/--
How a program is condensed below an operation.

Where a known operation stood, it still stands, or a new constant does, or nothing.
-/
structure Condenses (root : OpId) (heir : OpId → Option OpId) (ctx ctx' : Context) : Prop where
  /-- A known operation keeps all but its operands, and is freed unless it stays where it is. -/
  op_known : ∀ {op data}, ctx.op op = .ok data → ∃ operands,
    operands.length = data.operands.length ∧ ctx'.op op = .ok { data with
      operands, parentBlock := if heir op = some op then data.parentBlock else none }
  /-- Nothing but constants without regions is new. -/
  op_new : ∀ {op data}, ctx'.op op = .ok data → ctx.ops.size ≤ op.index →
    data.isKind .constant ∧ data.regions = []
  /-- What does not stay is below the root, and is a pure operation that goes or a folded sum. -/
  heir_known : ∀ {op data}, ctx.op op = .ok data → heir op = some op ∨
    TransGen ctx.Contains (.op root) (.op op) ∧ (data.isPure ∧ heir op = none ∨
      data.isKind .addi ∧ ∃ new constant, heir op = some new ∧ ctx.ops.size ≤ new.index ∧
        ctx'.op new = .ok constant ∧ constant.isKind .constant)
  /-- No constant takes the place of two operations. -/
  heir_unique : ∀ {op other new}, (∃ data, ctx.op op = .ok data) →
    (∃ data, ctx.op other = .ok data) → heir op = some new → heir other = some new → op = other
  /-- In every list, the heirs take the places of the operations. -/
  block_eq : ∀ block, ctx'.block block = (ctx.block block).map fun data =>
    { data with ops := data.ops.filterMap heir }
  /-- Known values stay. -/
  value_known : ∀ {value data}, ctx.value value = .ok data → ctx'.value value = .ok data
  /-- Regions stay. -/
  regions_eq : ctx'.regions = ctx.regions
  /-- Types stay. -/
  types_eq : ctx'.types = ctx.types

namespace Operation

variable {data : Operation}

/-- A sum is pure. -/
theorem isPure_of_addi (kind : data.isKind .addi) : data.isPure = true := by
  simp [isPure, kind]

/-- A constant is no sum. -/
theorem not_addi_of_constant (kind : data.isKind .constant) : ¬ data.isKind .addi := by
  -- The two kinds have different names.
  have named : data.name = OpKind.constant.opName := by simpa [isKind] using kind
  simp only [isKind, named]
  decide

end Operation

namespace Condenses

variable {root : OpId} {heir : OpId → Option OpId} {ctx mid ctx' : Context}

/-- Where nothing happens, every operation is its own heir. -/
theorem refl (root : OpId) (ctx : Context) : Condenses root some ctx ctx where
  op_known {op data} found := ⟨data.operands, rfl, by simpa using found⟩
  op_new found new := absurd (Context.index_lt_of_op found) (Nat.not_lt.mpr new)
  heir_known _ := .inl rfl
  heir_unique _ _ isHeir isHeirToo := Option.some.inj (isHeir.trans isHeirToo.symm)
  block_eq block := by simp
  value_known known := known
  regions_eq := rfl
  types_eq := rfl

/-- No operation goes away. -/
theorem size_le (condenses : Condenses root heir ctx ctx') : ctx.ops.size ≤ ctx'.ops.size := by
  -- Otherwise the first number that is not known any more was known before.
  refine Nat.not_lt.mp fun fewer => ?_
  obtain ⟨data, found⟩ := @Context.exists_op_of_lt ctx ⟨ctx'.ops.size⟩ fewer
  obtain ⟨operands, -, found'⟩ := condenses.op_known found
  exact Context.op_ne_next found' rfl

/-- The heir of a known operation is known. -/
theorem exists_op_of_heir (condenses : Condenses root heir ctx ctx') {op new : OpId}
    (known : ∃ data, ctx.op op = .ok data) (isHeir : heir op = some new) :
    ∃ data, ctx'.op new = .ok data := by
  obtain ⟨data, found⟩ := known
  -- The operation is its own heir, is gone, or has been folded into a constant.
  rcases condenses.heir_known found with stays |
    ⟨-, ⟨-, goes⟩ | ⟨-, other, constant, folded, -, made, -⟩⟩
  · cases stays.symm.trans isHeir
    obtain ⟨operands, -, found'⟩ := condenses.op_known found
    exact ⟨_, found'⟩
  · cases goes.symm.trans isHeir
  · cases folded.symm.trans isHeir
    exact ⟨constant, made⟩

section Step

variable {op : OpId} {next : Option OpId} {moved : ValueId → ValueId}

/-- The heir that stands in a list after one more replacement. -/
def heirAfter (heir : OpId → Option OpId) (op : OpId) (next : Option OpId) (other : OpId) :
    Option OpId :=
  (heir other).bind fun standing => if standing = op then next else some standing

/-- A known operation stays where it is as long as it is not the one that is replaced. -/
theorem heirAfter_eq_self_iff (condenses : Condenses root heir ctx mid)
    (replaces : Replaces op next moved mid ctx') {other : OpId} {data : Operation}
    (found : ctx.op other = .ok data) :
    heirAfter heir op next other = some other ↔ heir other = some other ∧ other ≠ op := by
  obtain ⟨operands, -, foundMid⟩ := condenses.op_known found
  simp only [heirAfter, Option.bind_eq_some_iff]
  constructor
  · intro stands
    obtain ⟨standing, isHeir, shown⟩ := stands
    split at shown
    · -- The heir of the replaced operation was not known before.
      exact absurd (replaces.heir_eq shown).1 (Context.op_ne_next foundMid)
    · rename_i differs
      cases shown
      exact ⟨isHeir, differs⟩
  · intro both
    exact ⟨other, both.1, if_neg both.2⟩

/-- A program stays condensed when one more of its pure operations is replaced. -/
theorem step (condenses : Condenses root heir ctx mid)
    (replaces : Replaces op next moved mid ctx') {data : Operation}
    (found : mid.op op = .ok data) (isPure : data.isPure = true)
    (isSum : next = none ∨ data.isKind .addi) (within : ctx.Within root op) :
    Condenses root (heirAfter heir op next) ctx ctx' where
  op_known {other old} foundOld := by
    obtain ⟨operands, same, foundMid⟩ := condenses.op_known foundOld
    refine ⟨mid.moveOperands moved other operands, by simp [Context.moveOperands, same], ?_⟩
    -- An operation stays in its block just as long as it is its own heir.
    rw [replaces.op_known foundMid]
    simp only [condenses.heirAfter_eq_self_iff replaces foundOld]
    by_cases stays : heir other = some other <;> by_cases same : other = op <;>
      simp [stays, same]
  op_new {other new} foundNew isNew := by
    rcases replaces.op_new foundNew with ⟨before, foundMid⟩ | ⟨isHeir, empty, -⟩
    · cases foundNew.symm.trans (replaces.op_known foundMid)
      have bare : before.isKind .constant ∧ before.regions = [] := condenses.op_new foundMid isNew
      exact bare
    · obtain ⟨-, -, constant, -, -, made, kind, -⟩ := replaces.heir_eq isHeir
      cases foundNew.symm.trans made
      exact ⟨kind, empty⟩
  heir_known {other old} foundOld := by
    obtain ⟨operands, -, foundMid⟩ := condenses.op_known foundOld
    rcases condenses.heir_known foundOld with stays | ⟨below, ⟨pure', goes⟩ |
      ⟨kind, new, constant, folded, isNew, made, isConstant⟩⟩
    · by_cases same : other = op
      · -- The operation has stood there so far, and is replaced now.
        subst same
        cases found.symm.trans foundMid
        have below := within.resolve_right (Nat.not_le.mpr (Context.index_lt_of_op foundOld))
        refine .inr ⟨below, ?_⟩
        have after : heirAfter heir other next other = next := by simp [heirAfter, stays]
        rw [after]
        rcases isSum with none | kind
        · exact .inl ⟨isPure, none⟩
        · cases isHeir : next with
          | none => exact .inl ⟨isPure, rfl⟩
          | some new =>
            obtain ⟨isNext, -, constant, -, -, made, isConstant, -⟩ := replaces.heir_eq isHeir
            have room := condenses.size_le
            refine .inr ⟨kind, new, constant, rfl, ?_, made, isConstant⟩
            simpa [isNext] using room
      · exact .inl ((condenses.heirAfter_eq_self_iff replaces foundOld).mpr ⟨stays, same⟩)
    · exact .inr ⟨below, .inl ⟨pure', by simp [heirAfter, goes]⟩⟩
    · refine .inr ⟨below, ?_⟩
      by_cases same : new = op
      · -- A constant is not folded, so that nothing takes the place of the sum any more.
        subst same
        cases found.symm.trans made
        have none := isSum.resolve_right (Operation.not_addi_of_constant isConstant)
        exact .inl ⟨Operation.isPure_of_addi kind, by simp [heirAfter, folded, none]⟩
      · exact .inr ⟨kind, new, _, by simp [heirAfter, folded, same], isNew,
          replaces.op_known made, isConstant⟩
  heir_unique {first second new} known knownToo isHeir isHeirToo := by
    obtain ⟨standing, before, shown⟩ := Option.bind_eq_some_iff.mp isHeir
    obtain ⟨standing', before', shown'⟩ := Option.bind_eq_some_iff.mp isHeirToo
    obtain ⟨data, foundFirst⟩ := condenses.exists_op_of_heir known before
    obtain ⟨data', foundSecond⟩ := condenses.exists_op_of_heir knownToo before'
    refine condenses.heir_unique known knownToo before (before'.trans (congrArg some ?_))
    -- What comes in with the replacement stood nowhere before.
    split at shown <;> split at shown'
    · rename_i same same'
      exact same'.trans same.symm
    · cases shown'
      exact absurd (replaces.heir_eq shown).1 (Context.op_ne_next foundSecond)
    · cases shown
      exact absurd (replaces.heir_eq shown').1 (Context.op_ne_next foundFirst)
    · exact Option.some.inj (shown'.trans shown.symm)
  block_eq block := by
    -- Replacing in a list of heirs is the same as replacing the heirs.
    rw [replaces.block_eq, condenses.block_eq]
    cases ctx.block block with
    | error fault => rfl
    | ok data =>
      simp only [Except.map, succession, List.filterMap_filterMap]
      rfl
  value_known known := replaces.value_known (condenses.value_known known)
  regions_eq := replaces.regions_eq.trans condenses.regions_eq
  types_eq := replaces.types_eq.trans condenses.types_eq

end Step

/-- Erasing pure operations below the root condenses a program. -/
theorem of_erases {gone : List OpId} (erases : Erases gone ctx ctx')
    (among : ∀ op ∈ gone, TransGen ctx.Contains (.op root) (.op op) ∧
      ∃ data, ctx.op op = .ok data ∧ data.isPure = true) :
    Condenses root (fun op => if op ∈ gone then none else some op) ctx ctx' where
  op_known {op data} found := by
    refine ⟨data.operands, rfl, ?_⟩
    rw [erases.op_eq, found]
    by_cases isGone : op ∈ gone <;> simp [Except.map, isGone]
  op_new {op data} found new := by
    -- Erasing makes no operation.
    obtain ⟨old, foundOld, -⟩ := erases.op_before found
    exact absurd (Context.index_lt_of_op foundOld) (Nat.not_lt.mpr new)
  heir_known {op data} found := by
    by_cases isGone : op ∈ gone
    · obtain ⟨below, same, foundSame, isPure⟩ := among op isGone
      cases found.symm.trans foundSame
      exact .inr ⟨below, .inl ⟨isPure, if_pos isGone⟩⟩
    · exact .inl (if_neg isGone)
  heir_unique {op other new} _ _ isHeir isHeirToo := by
    split at isHeir
    · cases isHeir
    · split at isHeirToo
      · cases isHeirToo
      · exact Option.some.inj (isHeir.trans isHeirToo.symm)
  block_eq block := by
    rw [erases.block_eq]
    cases ctx.block block with
    | error fault => rfl
    | ok data =>
      -- Leaving out what is gone is what a filter does.
      have same : data.ops.filter (· ∉ gone) =
          data.ops.filterMap fun op => if op ∈ gone then none else some op := by
        rw [← List.filterMap_eq_filter]
        refine List.filterMap_congr fun op _ => ?_
        by_cases isGone : op ∈ gone <;> simp [Option.guard, isGone]
      simp only [Except.map, same]
  value_known known := (Context.value_congr erases.values_eq _).trans known
  regions_eq := erases.regions_eq
  types_eq := erases.types_eq

/-- Rewrites within an operation of a sound program condense it. -/
theorem of_rewrites {discarded : OpId → Prop} (sound : Sound discarded ctx)
    (rewrites : Rewrites (ctx.Within root) ctx ctx') :
    (∃ discarded, Sound discarded ctx') ∧ ∃ heir, Condenses root heir ctx ctx' := by
  induction rewrites with
  | refl => exact ⟨⟨_, sound⟩, _, .refl root ctx⟩
  | tail _ step ih =>
    -- What was condensed before is condensed by one step more.
    obtain ⟨⟨gone, soundMid⟩, heir, condenses⟩ := ih
    obtain ⟨op, within, rewrite⟩ := step
    refine ⟨⟨_, soundMid.rewrite rewrite⟩, ?_⟩
    cases rewrite with
    | erase block data found dead performed =>
      -- An erased operation was dead, and so pure and without uses.
      have replaces := Replaces.of_erase soundMid found dead performed
      exact ⟨_, condenses.step replaces found (Context.isDead_iff_usesOf.mp dead).1 (.inl rfl)
        within⟩
    | fold block data sum found computed performed =>
      -- A folded operation was an addition, which is pure.
      have replaces := Replaces.of_fold soundMid found computed performed
      have kind := (Context.sum?_eq_some computed).1
      exact ⟨_, condenses.step replaces found (Operation.isPure_of_addi kind) (.inr kind) within⟩

/-- What is not pure stays. -/
theorem heir_of_impure (condenses : Condenses root heir ctx ctx') {op : OpId} {data : Operation}
    (found : ctx.op op = .ok data) (impure : ¬ data.isPure) : heir op = some op := by
  rcases condenses.heir_known found with stays | ⟨-, ⟨isPure, -⟩ | ⟨kind, -⟩⟩
  · exact stays
  · exact absurd isPure impure
  · exact absurd (Operation.isPure_of_addi kind) impure

/-- What a block lists that is not below the root stays. -/
theorem block_outside (condenses : Condenses root heir ctx ctx') {discarded : OpId → Prop}
    (sound : Sound discarded ctx) {block : BlockId}
    (outside : ¬ TransGen ctx.Contains (.op root) (.block block)) :
    ctx'.block block = ctx.block block := by
  rw [condenses.block_eq]
  cases found : ctx.block block with
  | error fault => rfl
  | ok data =>
    have stays : data.ops.filterMap heir = data.ops := by
      refine (List.filterMap_congr fun op listed => ?_).trans List.filterMap_some
      obtain ⟨owned, foundOp, -⟩ := sound.ops.recorded found listed
      refine (condenses.heir_known foundOp).resolve_right fun replaced => outside ?_
      -- What is below the root is in a block below the root, and in no other one.
      obtain ⟨outer, above, contains⟩ := TransGen.tail'_iff.mp replaced.1
      have here := Context.contains_block.mpr ⟨data, op, found, listed, rfl⟩
      cases sound.owner_unique contains here
      rcases ReflTransGen.cases_head_iff.mp above with same | ⟨next, first, rest⟩
      · cases same
      · exact TransGen.head' first rest
    simp only [Except.map, stays]

/-- What stays in a list stays there in the old order. -/
theorem sublist_of_stays (condenses : Condenses root heir ctx ctx') {block : BlockId}
    {data : Block} (found : ctx.block block = .ok data) {items : List OpId}
    (inOrder : items.Sublist data.ops) (stay : ∀ op ∈ items, heir op = some op) :
    ∃ after, ctx'.block block = .ok after ∧ items.Sublist after.ops := by
  -- Every one of the items is its own heir, so that the new list has them too.
  have kept : items.filterMap heir = items :=
    (List.filterMap_congr stay).trans List.filterMap_some
  refine ⟨_, by rw [condenses.block_eq, found]; rfl, ?_⟩
  exact kept ▸ inOrder.filterMap heir

end Condenses

/--
What optimisation below an operation makes of a program.

It condenses the program. Therefore it leaves alone what is not pure, and every list elsewhere.
-/
structure Optimizes (root : OpId) (heir : OpId → Option OpId) (ctx ctx' : Context) : Prop extends
    Condenses root heir ctx ctx' where
  /-- What is not pure keeps its owner, and all else but its operands. -/
  impure : ∀ {op data}, ctx.op op = .ok data → ¬ data.isPure → ∃ operands,
    operands.length = data.operands.length ∧ ctx'.op op = .ok { data with operands }
  /-- A block that is not below the root keeps its list. -/
  outside : ∀ {block}, ¬ TransGen ctx.Contains (.op root) (.block block) →
    ctx'.block block = ctx.block block
  /-- What stays in a list stays there in the old order, and what is not pure stays. -/
  inOrder : ∀ {block data} {items : List OpId}, ctx.block block = .ok data →
    items.Sublist data.ops →
    (∀ op ∈ items, heir op = some op ∨ ∃ data, ctx.op op = .ok data ∧ ¬ data.isPure) →
      ∃ after, ctx'.block block = .ok after ∧ items.Sublist after.ops

/-- Condensing a sound program is all that an optimisation does. -/
theorem Condenses.optimizes {discarded : OpId → Prop} {root : OpId} {heir : OpId → Option OpId}
    {ctx ctx' : Context} (condenses : Condenses root heir ctx ctx') (sound : Sound discarded ctx) :
    Optimizes root heir ctx ctx' where
  toCondenses := condenses
  impure {op data} found impure := by
    -- An operation that is not pure is its own heir, so that it stays.
    obtain ⟨operands, same, found'⟩ := condenses.op_known found
    exact ⟨operands, same, by simpa [condenses.heir_of_impure found impure] using found'⟩
  outside := condenses.block_outside sound
  inOrder found inOrder stay := by
    -- What stays in a list is in the order that it had.
    refine condenses.sublist_of_stays found inOrder fun op listed => ?_
    rcases stay op listed with stays | ⟨data, foundOp, impure⟩
    · exact stays
    · exact condenses.heir_of_impure foundOp impure

namespace Context

section Passes

variable {requests : List Request} {ctx : Context}
  (plain : ∀ request ∈ requests, request.isEdit = false) (built : build requests = .ok ctx)
  {root : OpId} {data : Operation} (found : ctx.op root = .ok data)
  (acyclic : ctx.AcyclicBelow (.op root))
include plain built found acyclic

/-- Dead code elimination comes to an answer, and condenses a program by erasing operations. -/
theorem exists_eliminated_condenses (config : DeadCode.Config) :
    ∃ result ctx' gone, DeadCode.eliminate config root ctx = .ok (result, ctx') ∧
      Erases gone ctx ctx' ∧
        Condenses root (fun op => if op ∈ gone then none else some op) ctx ctx' := by
  have sound := Sound.of_build plain built
  have fits := fits_of_build plain built found acyclic
  obtain ⟨result, ctx', done, -⟩ :=
    DeadCode.exists_eliminated config fits (sound.ops.ownedBelow root)
  obtain ⟨gone, collected, -⟩ := (DeadCode.Collected.start ctx
    (DeadCode.Covers ctx config.recursive root)).eliminateFrom sound.consistent sound.ops done
  rw [List.nil_append] at collected
  refine ⟨result, ctx', gone, done, collected.erases, .of_erases collected.erases ?_⟩
  intro op inGone
  -- What is erased is pure, and among what the root covers.
  obtain ⟨covers, isPure⟩ := (collected.dead op inGone).mem_pureOps
  exact ⟨covers.transGen, isPure⟩

/-- Canonicalization comes to an answer, and condenses a program. -/
theorem exists_canonicalized_condenses
    (reads : ∀ op data value, TransGen ctx.Contains (.op root) (.op op) → ctx.op op = .ok data →
      value ∈ data.operands → ∃ known, ctx.value value = .ok known)
    {σ : Type} (config : Canonicalization.Config) (notes : σ) :
    ∃ outcome ctx' heir,
      (Canonicalization.pass config).run root (ctx, notes) = .ok (outcome, ctx', notes) ∧
        Condenses root heir ctx ctx' := by
  have sound := Sound.of_build plain built
  have fits := fits_of_build plain built found acyclic
  have readsBelow : ctx.ReadsBelow (fun _ => False) root := by
    -- A new operation is not known, so that only what is below the root can read anything.
    intro op inside data value foundOp read
    have below := inside.resolve_right (Nat.not_le.mpr (index_lt_of_op foundOp))
    exact .inl (reads op data value below foundOp read)
  have meets : Meets (fun _ => False) (ctx.Within root) ctx
      (Canonicalization.iterate Canonicalization.builtinPatterns root config.maxIterations ctx) :=
    Meets.iterateBelow sound.consistent readsBelow (.inr fits) config.maxIterations
  obtain ⟨result, ctx', done, rewrites⟩ := meets.exists_ok
  obtain ⟨-, heir, condenses⟩ := Condenses.of_rewrites sound rewrites
  rw [Canonicalization.run_pass, done]
  exact ⟨_, ctx', heir, rfl, condenses⟩

/--
Where everything below an operation reads known values and nothing there is inside itself, both
passes come to an answer, and do no more to the program than an optimisation may, also when they run
out of iterations. Dead code elimination makes nothing and leaves all operands alone.
-/
theorem optimizes_of_build
    (reads : ∀ op data value, TransGen ctx.Contains (.op root) (.op op) → ctx.op op = .ok data →
      value ∈ data.operands → ∃ known, ctx.value value = .ok known) :
    (∀ config, ∃ result ctx' gone, DeadCode.eliminate config root ctx = .ok (result, ctx') ∧
      Erases gone ctx ctx' ∧
        Optimizes root (fun op => if op ∈ gone then none else some op) ctx ctx') ∧
      ∀ {σ : Type} (config : Canonicalization.Config) (notes : σ), ∃ outcome ctx' heir,
        (Canonicalization.pass config).run root (ctx, notes) = .ok (outcome, ctx', notes) ∧
          Optimizes root heir ctx ctx' := by
  have sound := Sound.of_build plain built
  constructor
  · intro config
    -- Erasures alone leave no operation with an heir other than itself.
    obtain ⟨result, ctx', gone, done, erases, condenses⟩ :=
      exists_eliminated_condenses plain built found acyclic config
    exact ⟨result, ctx', gone, done, erases, condenses.optimizes sound⟩
  · intro σ config notes
    -- Folding makes heirs of constants.
    obtain ⟨outcome, ctx', heir, ran, condenses⟩ :=
      exists_canonicalized_condenses plain built found acyclic reads config notes
    exact ⟨outcome, ctx', heir, ran, condenses.optimizes sound⟩

end Passes

/-- Folding puts a constant in the place of the sum that does not fit, next to its only use. -/
theorem optimizes_of_build_overflowingSum :
    (∀ request ∈ Canonicalization.overflowingSum, request.isEdit = false) ∧
      ∃ ctx, build Canonicalization.overflowingSum = .ok ctx ∧ (∃ data, ctx.op ⟨3⟩ = .ok data) ∧
        ctx.AcyclicBelow (.op ⟨3⟩) ∧
        (∀ op data value, TransGen ctx.Contains (.op ⟨3⟩) (.op op) → ctx.op op = .ok data →
          value ∈ data.operands → ∃ known, ctx.value value = .ok known) ∧
        (∃ result ctx' gone, DeadCode.eliminate {} ⟨3⟩ ctx = .ok (result, ctx') ∧
          Erases gone ctx ctx' ∧
            Optimizes ⟨3⟩ (fun op => if op ∈ gone then none else some op) ctx ctx') ∧
        ∃ outcome ctx' heir,
          (Canonicalization.pass {}).run ⟨3⟩ (ctx, ()) = .ok (outcome, ctx', ()) ∧
            Optimizes ⟨3⟩ heir ctx ctx' := by
  -- The hypotheses are decided by evaluating the requests.
  obtain ⟨ctx, built, ⟨data, found⟩, inside, listed⟩ :
      ∃ ctx, build Canonicalization.overflowingSum = .ok ctx ∧ (∃ data, ctx.op ⟨3⟩ = .ok data) ∧
        (∀ data ∈ ctx.ops.toList, ∀ value ∈ data.operands, value.index < ctx.values.size) ∧
        ∃ listing, ctx.preorder (.op ⟨3⟩) = .ok listing :=
    ⟨_, rfl, ⟨_, rfl⟩, by decide, _, rfl⟩
  have plain : ∀ request ∈ Canonicalization.overflowingSum, request.isEdit = false := by decide
  have acyclic := (preorder_ok_iff.mp listed).2
  have reads : ∀ op data value, TransGen ctx.Contains (.op ⟨3⟩) (.op op) →
      ctx.op op = .ok data → value ∈ data.operands → ∃ known, ctx.value value = .ok known := by
    intro op data value _ foundOp read
    exact exists_value_of_lt (inside data (mem_ops_of_op foundOp) value read)
  obtain ⟨eliminates, canonicalizes⟩ := optimizes_of_build plain built found acyclic reads
  exact ⟨plain, ctx, built, ⟨data, found⟩, acyclic, reads, eliminates {}, canonicalizes {} ()⟩

end Context

end NestedIR
