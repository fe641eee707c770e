import NestedIR.Proofs.Pass.Sweep

/-! Canonicalization rewrites only what is below its root, and ends if containment has no cycle. -/

namespace NestedIR

open Relation

variable {allowed : Fault → Prop} {touched : OpId → Prop} {ctx : Context}

/-- The built-in patterns rewrite an operation of its own block, unless a value is not known. -/
theorem Meets.applyFirst (consistent : Consistent ctx) {block : BlockId} {op : OpId}
    {data : Operation} (found : ctx.op op = .ok data) (reads : ctx.ReadsAt allowed op)
    (touch : touched op)
    (ready : (∀ fault, allowed fault) ∨ data.parentBlock = some block ∧
      ∃ target, ctx.block block = .ok target ∧ op ∈ target.ops) :
    Meets allowed touched ctx
      (Pattern.applyFirst block op Canonicalization.builtinPatterns ctx) := by
  -- A sum decides first, and an operation without one may still be dead.
  rw [applyFirst_builtinPatterns found]
  refine Meets.lookup (fun fault failed => ?_) fun sum? computed => ?_
  · obtain ⟨value, listed, rfl, unknown⟩ := Context.sum?_eq_error consistent.results found failed
    rcases reads data value found listed with ⟨known, foundValue⟩ | allows
    · exact absurd foundValue (unknown known)
    · exact allows
  · cases sum? with
    | some sum =>
      refine Meets.of_performAll touch (fun _ => .fold block data sum found computed) ?_
      rcases ready with any | ⟨owned, target, known, listed⟩
      · exact .inl any
      · exact .inr (exists_folded found owned known listed computed)
    | none =>
      dsimp only
      split
      · rename_i dead
        refine Meets.of_performAll touch (fun _ => .erase block data found dead) ?_
        rcases ready with any | ⟨owned, target, known, -⟩
        · exact .inl any
        · exact .inr (exists_erased found known (.inl owned) dead)
      · exact ReflTransGen.refl

/-- A visit rewrites only what is within its root, and fails only where a value is not known. -/
theorem Meets.visitBelow (consistent : Consistent ctx) {depth : Nat} {op : OpId}
    (reads : ctx.ReadsBelow allowed op)
    (fits : (∀ fault, allowed fault) ∨ ctx.Fits depth (.op op)) :
    Meets allowed (ctx.Within op) ctx
      (Canonicalization.visitBelow Canonicalization.builtinPatterns depth op ctx) := by
  -- Each operation is visited with less depth left than the one that contains it.
  induction depth generalizing op ctx with
  | zero =>
    rcases fits with any | fits
    · exact any _
    · cases fits
  | succ depth ih =>
    -- The blocks come one after the other, and in each one its operations do.
    refine Meets.eachBlock fits fun block start toStart encloses fits => ?_
    refine Meets.eachListed id (fun _ _ => id) fits fun data inner known listed fits mid
      toMid => ?_
    have total := toStart.trans toMid
    have fitsMid := fits.imp_right toMid.evolves.fits
    refine Meets.lookup (fun fault => Meets.allowed_of_fits fitsMid Context.Fits.exists_op)
      fun before found => ?_
    split
    · rename_i attached
      -- What is within an operation of the block is within the one that is visited.
      have inStart : TransGen start.Contains (.op op) (.op inner) :=
        encloses.transGen.tail (Context.contains_block.mpr ⟨data, inner, known, listed, rfl⟩)
      have inside {deeper : OpId} (deep : mid.Within inner deeper) : ctx.Within op deeper :=
        toStart.evolves.within ((toMid.evolves.within deep).trans inStart)
      have readsInside : mid.ReadsBelow allowed inner := fun deeper deep =>
        total.evolves.readsAt (reads deeper (inside deep))
      refine Meets.andThen (ih (total.consistent consistent) readsInside fitsMid)
        (fun _ => inside) fun last toLast => Meets.counted ?_
      -- The visit below the operation touches what is within it, and so not the operation itself.
      obtain ⟨operands, owner, foundLast, owned, -⟩ := toLast.evolves.op_known found
      have all := total.trans (toLast.mono fun _ => inside)
      have below := toStart.evolves.within (.inl inStart)
      refine Meets.applyFirst (all.consistent consistent) foundLast
        (all.evolves.readsAt (reads inner below)) below ?_
      rcases fitsMid with any | fits
      · exact .inl any
      · refine .inr ⟨(owned.resolve_right fun freed => fits.not_within freed.1).trans attached, ?_⟩
        -- An operation that is still attached is still in the list that was read at the start.
        obtain ⟨ops, knownMid, -, stays⟩ := toMid.evolves.block_known known
        obtain ⟨ops', knownLast, -, remains⟩ := toLast.evolves.block_known knownMid
        have inMid : inner ∈ ops := by
          refine (stays inner listed).resolve_right fun lost => ?_
          obtain ⟨-, freed, foundFreed, free⟩ := lost
          rw [found] at foundFreed
          cases foundFreed
          rw [attached] at free
          cases free
        exact ⟨_, knownLast, (remains inner inMid).resolve_right fun lost => fits.not_within lost.1⟩
    · exact ReflTransGen.refl

/-- Visits one after the other rewrite only what is within their root. -/
theorem Meets.iterateBelow (consistent : Consistent ctx) {root : OpId}
    (reads : ctx.ReadsBelow allowed root)
    (fits : (∀ fault, allowed fault) ∨ ctx.Fits ctx.depthBound (.op root)) (remaining : Nat) :
    Meets allowed (ctx.Within root) ctx
      (Canonicalization.iterate Canonicalization.builtinPatterns root remaining ctx) := by
  -- Every visit starts from a program that the earlier visits kept consistent.
  induction remaining generalizing ctx with
  | zero => exact ReflTransGen.refl
  | succ remaining ih =>
    have room : ctx.depthBound ≤ ctx.depthBound * (Canonicalization.builtinPatterns.length + 1) :=
      Nat.le_mul_of_pos_right _ (by simp)
    have visited : Meets allowed (ctx.Within root) ctx
        (Canonicalization.visit Canonicalization.builtinPatterns root ctx) :=
      Meets.visitBelow consistent reads (fits.imp_right fun fits => fits.mono room)
    refine visited.bind (fun _ => id) fun count mid _ before => ?_
    dsimp only
    split
    · exact ReflTransGen.refl
    · have again := ih (before.consistent consistent)
        (fun op inside => before.evolves.readsAt (reads op (before.evolves.within inside)))
        (fits.imp_right fun fits => (before.evolves.fits fits).mono before.evolves.depthBound_le)
      exact again.bind (fun _ inside => before.evolves.within inside) fun _ _ _ _ =>
        ReflTransGen.refl

/-- Visits meet the same where every operation of the program reads known values only. -/
theorem Meets.iterate (consistent : Consistent ctx) (reads : ctx.ReadsKnown allowed) {root : OpId}
    (fits : (∀ fault, allowed fault) ∨ ctx.Fits ctx.depthBound (.op root)) (remaining : Nat) :
    Meets allowed (ctx.Within root) ctx
      (Canonicalization.iterate Canonicalization.builtinPatterns root remaining ctx) :=
  Meets.iterateBelow consistent (fun op _ => reads op) fits remaining

end NestedIR
