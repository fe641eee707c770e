import NestedIR.Proofs.Context.Nesting
import NestedIR.Proofs.Pass.Rewriting

/-! Rewrites keep every operation of a block in its place, and put nothing behind the last one. -/

namespace NestedIR

open Relation

section Suffixes

variable {α : Type} {first item : α} {front tail rest list : List α}

/-- What stands in a filtered list stood in the list, and was followed by as much or more. -/
theorem suffix_of_suffix_filter {keep : α → Bool} (suffix : (first :: rest) <:+ list.filter keep) :
    keep first ∧ ∃ after, (first :: after) <:+ list ∧ (after = [] → rest = []) := by
  -- The head of the list is left out, or it is the item itself, or it stands in front of it.
  induction list with
  | nil => cases List.suffix_nil.mp suffix
  | cons head list ih =>
    rw [List.filter_cons] at suffix
    have later (shorter : (first :: rest) <:+ list.filter keep) :
        keep first ∧ ∃ after, (first :: after) <:+ head :: list ∧ (after = [] → rest = []) := by
      obtain ⟨kept, after, inList, ends⟩ := ih shorter
      exact ⟨kept, after, List.suffix_cons_iff.mpr (.inr inList), ends⟩
    split at suffix
    · rename_i kept
      rcases List.suffix_cons_iff.mp suffix with same | shorter
      · cases same
        exact ⟨kept, list, List.suffix_refl _, fun empty => by simp [empty]⟩
      · exact later shorter
    · exact later suffix

/-- What stands in a list after an insertion is the new item, or stood there and did not end it. -/
theorem suffix_of_suffix_insert (some_ : tail ≠ [])
    (suffix : (first :: rest) <:+ front ++ item :: tail) :
    first = item ∨ ∃ after, (first :: after) <:+ front ++ tail ∧ (after = [] → rest = []) := by
  -- The new item comes in front of the tail, which keeps whatever is before it from the end.
  induction front with
  | nil =>
    rcases List.suffix_cons_iff.mp suffix with same | shorter
    · cases same
      exact .inl rfl
    · exact .inr ⟨rest, shorter, id⟩
  | cons head front ih =>
    rcases List.suffix_cons_iff.mp suffix with same | shorter
    · cases same
      refine .inr ⟨front ++ tail, List.suffix_refl _, fun empty => ?_⟩
      exact absurd (List.append_eq_nil_iff.mp empty).2 some_
    · rcases ih shorter with same | ⟨after, inList, ends⟩
      · exact .inl same
      · exact .inr ⟨after, List.suffix_cons_iff.mpr (.inr inList), ends⟩

end Suffixes

/--
What stands in a block after a change stood there before, and was last only if it still is.

New operations may stand there too, which record the block and do not branch. What recorded the
block changes in its operands alone.
-/
def KeepsPlaces (ctx ctx' : Context) : Prop :=
  ∀ block old data op rest, ctx.block block = .ok old → ctx'.block block = .ok data →
    (op :: rest) <:+ data.ops →
      (∃ new, ctx'.op op = .ok new ∧ new.parentBlock = some block ∧ new.successors = []) ∨
      ∃ after, (op :: after) <:+ old.ops ∧ (after = [] → rest = []) ∧
        ∀ was, ctx.op op = .ok was → was.parentBlock = some block →
          ∃ operands, ctx'.op op = .ok { was with operands }

namespace KeepsPlaces

variable {ctx mid ctx' : Context}

/-- Nothing moves where nothing changes. -/
theorem refl (ctx : Context) : KeepsPlaces ctx ctx := by
  intro block old data op rest found found' suffix
  cases found.symm.trans found'
  exact .inr ⟨rest, suffix, id, fun was foundOp _ => ⟨was.operands, foundOp⟩⟩

/-- Where known blocks stay known, places are kept by one change after another. -/
theorem trans {touched : OpId → Prop} (evolves : Evolves touched ctx mid)
    (first : KeepsPlaces ctx mid) (second : KeepsPlaces mid ctx') : KeepsPlaces ctx ctx' := by
  intro block old data op rest found found' suffix
  obtain ⟨ops, foundMid, -⟩ := evolves.block_known found
  rcases second block _ data op rest foundMid found' suffix with new | ⟨after, inMid, ends, kept⟩
  · exact .inl new
  · rcases first block old _ op after found foundMid inMid with
      ⟨new, foundNew, owner, branches⟩ | ⟨before, inOld, endsOld, keptOld⟩
    · -- What the first change brought in is kept by the second one.
      obtain ⟨operands, foundLast⟩ := kept new foundNew owner
      exact .inl ⟨_, foundLast, owner, branches⟩
    · refine .inr ⟨before, inOld, fun empty => ends (endsOld empty), fun was foundOp owner => ?_⟩
      obtain ⟨operands, foundOpMid⟩ := keptOld was foundOp owner
      obtain ⟨operands', foundLast⟩ := kept _ foundOpMid owner
      exact ⟨operands', foundLast⟩

/-- A new constant comes in front of an operation, so that it is never the last one. -/
theorem withConstant {block : BlockId} {op : OpId} {target : Block} {front back : List OpId}
    (known : ctx.block block = .ok target) (split : target.ops = front ++ op :: back) (sum : Sum) :
    KeepsPlaces ctx
      ((ctx.withConstant sum).place block ⟨ctx.ops.size⟩
        (front ++ ⟨ctx.ops.size⟩ :: op :: back)) := by
  intro other old data member rest found found' suffix
  -- All operations that were known stay exactly as they are.
  have kept : ∀ was, ctx.op member = .ok was → was.parentBlock = some other →
      ∃ operands, ((ctx.withConstant sum).place block ⟨ctx.ops.size⟩
        (front ++ ⟨ctx.ops.size⟩ :: op :: back)).op member = .ok { was with operands } := by
    intro was foundOp _
    have older := Context.op_ne_next foundOp
    have before : (ctx.withConstant sum).op member = .ok was :=
      (Context.op_eq_ok_of_push rfl).mpr (.inl foundOp)
    refine ⟨was.operands, ?_⟩
    rw [Context.op_place, before]
    simp [Except.map, older]
  have sameBlock : (ctx.withConstant sum).block other = .ok old := found
  rw [Context.block_place, sameBlock] at found'
  cases Except.ok.inj found'
  by_cases here : other = block
  · cases here
    cases known.symm.trans found
    simp only [if_true] at suffix
    rcases suffix_of_suffix_insert (by simp) suffix with same | ⟨after, inOld, ends⟩
    · -- The constant itself records the block and has no successors.
      cases same
      refine .inl ⟨{ ctx.newOp (Context.foldedSpec sum) with parentBlock := some block }, ?_, rfl,
        rfl⟩
      rw [Context.op_place, Context.op_withConstant_new]
      simp [Except.map]
    · exact .inr ⟨after, split ▸ inOld, ends, kept⟩
  · simp only [here, if_false] at suffix
    exact .inr ⟨rest, suffix, id, kept⟩

/-- Redirecting a value moves nothing. -/
theorem redirectUses (ctx : Context) (old new : ValueId) :
    KeepsPlaces ctx (ctx.redirectUses old new) := by
  by_cases differ : old = new
  · rw [Context.redirectUses, if_pos differ]
    exact refl ctx
  · intro block before data op rest found found' suffix
    -- The lists of blocks stay, and operations change in their operands alone.
    have blocks := (ctx.redirectUses_frame old new).2.1
    rw [Context.block_congr blocks] at found'
    cases found.symm.trans found'
    refine .inr ⟨rest, suffix, id, fun was foundOp _ => ?_⟩
    refine ⟨Context.refill (ctx.usesOf old) new op was.operands, ?_⟩
    rw [Context.op_redirectUses differ, foundOp]
    rfl

/-- An erased operation leaves one list, and everything else in a list stays where it is. -/
theorem withErased (ctx : Context) (block : BlockId) (op : OpId) (operands : List ValueId) :
    KeepsPlaces ctx (ctx.withErased block op operands) := by
  intro other old data member rest found found' suffix
  have kept (apart : ¬ (member = op ∧ other = block)) :
      ∀ was, ctx.op member = .ok was → was.parentBlock = some other →
        ∃ read,
          (ctx.withErased block op operands).op member = .ok { was with operands := read } := by
    intro was foundOp owner
    -- Only the operation itself is freed, and only of the block that it is erased from.
    have stays : ¬ (member = op ∧ was.parentBlock = some block) := by
      intro freed
      rw [owner] at freed
      exact apart ⟨freed.1, Option.some.inj freed.2⟩
    refine ⟨was.operands, ?_⟩
    rw [Context.op_withErased, foundOp]
    simp only [Except.map, if_neg stays]
  have after := @Context.block_displace ctx block other op
  rw [found] at after
  cases Except.ok.inj (found'.symm.trans after)
  by_cases here : other = block
  · simp only [here, if_true] at suffix
    obtain ⟨remains, later, inOld, ends⟩ := suffix_of_suffix_filter suffix
    refine .inr ⟨later, inOld, ends, kept fun both => ?_⟩
    simp [both.1] at remains
  · simp only [here, if_false] at suffix
    exact .inr ⟨rest, suffix, id, kept fun both => here both.2⟩

end KeepsPlaces

/-- A rewrite keeps what stands in blocks in its place. -/
theorem Rewrite.keepsPlaces {op : OpId} {ctx ctx' : Context} (rewrite : Rewrite op ctx ctx') :
    KeepsPlaces ctx ctx' := by
  have erased {ctx : Context} {block : BlockId}
      (performed : ctx.performAll (Context.eraseRequests block op) = .ok ctx') :
      KeepsPlaces ctx ctx' := by
    obtain ⟨data, target, -, -, -, -, rfl⟩ := Context.eraseRequests_eq_ok.mp performed
    exact .withErased ctx block op data.operands
  cases rewrite with
  | erase block data found dead performed => exact erased performed
  | fold block data sum found computed performed =>
    -- The constant comes in first, then takes over the uses, and the addition goes last.
    obtain ⟨target, front, back, known, -, split, last⟩ :=
      Context.foldRequests_eq_ok.mp performed
    have constant := KeepsPlaces.withConstant known split sum
    have placed := Evolves.withConstant (fun _ => False) known split sum
    have redirected := constant.trans placed (.redirectUses _ sum.result ⟨ctx.values.size⟩)
    have folded := Evolves.withFolded (fun _ => False) known split sum
    exact redirected.trans folded (erased last)

/-- Rewrites keep what stands in blocks in its place. -/
theorem Rewrites.keepsPlaces {touched : OpId → Prop} {ctx ctx' : Context}
    (rewrites : Rewrites touched ctx ctx') : KeepsPlaces ctx ctx' := by
  induction rewrites with
  | refl => exact .refl ctx
  | tail before step ih =>
    obtain ⟨op, -, rewrite⟩ := step
    exact ih.trans (Rewrites.evolves before) rewrite.keepsPlaces

namespace Context

/-- What is in a block somewhere inside an operation records that block. -/
def OwnedBelow (ctx : Context) (root : OpId) : Prop :=
  ∀ block data op, TransGen ctx.Contains (.op root) (.block block) → ctx.block block = .ok data →
    op ∈ data.ops → ∃ owned, ctx.op op = .ok owned ∧ owned.parentBlock = some block

variable {ctx ctx' : Context}

/-- Where all operations of blocks are owned, those below any operation are. -/
theorem OpsOwned.ownedBelow (owned : ctx.OpsOwned) (root : OpId) : ctx.OwnedBelow root :=
  fun _ _ _ _ known listed => owned.recorded known listed

/-- What is owned below an operation is owned below the operations inside it. -/
theorem OwnedBelow.inside {outer inner : OpId} (owned : ctx.OwnedBelow outer)
    (path : TransGen ctx.Contains (.op outer) (.op inner)) : ctx.OwnedBelow inner :=
  fun block data op down => owned block data op (path.trans down)

/-- What is in a block below an operation still records it after rewrites. -/
theorem OwnedBelow.rewrites {touched : OpId → Prop} {root : OpId} (owned : ctx.OwnedBelow root)
    (rewrites : Rewrites touched ctx ctx') : ctx'.OwnedBelow root := by
  intro block data op down found listed
  -- The block was there before, and what it lists was there as well or is new.
  have wasDown : TransGen ctx.Contains (.op root) (.block block) :=
    (rewrites.evolves.transGen_contains down).resolve_right (by simp)
  have inside := index_lt_of_block found
  rw [rewrites.evolves.blocks_size] at inside
  obtain ⟨old, foundOld⟩ := exists_block_of_lt inside
  obtain ⟨front, rest, split⟩ := List.append_of_mem listed
  have place := rewrites.keepsPlaces block old data op rest foundOld found ⟨front, split.symm⟩
  rcases place with ⟨new, foundNew, owner, -⟩ | ⟨after, inOld, -, kept⟩
  · exact ⟨new, foundNew, owner⟩
  · obtain ⟨was, foundOp, owner⟩ :=
      owned block old op wasDown foundOld (inOld.subset (List.mem_cons_self ..))
    obtain ⟨operands, foundLast⟩ := kept was foundOp owner
    exact ⟨_, foundLast, owner⟩

end Context

end NestedIR
