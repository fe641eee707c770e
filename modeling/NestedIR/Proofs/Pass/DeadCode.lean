import NestedIR.Proofs.Pass.Places
import NestedIR.Proofs.Pass.Sweep

/-! Dead code elimination erases only what is below its root, and ends without a cycle. -/

namespace NestedIR

open Relation

variable {allowed : Fault → Prop} {touched : OpId → Prop} {ctx : Context}

/-- An operation is erased from a known block unless another block owns it. -/
theorem Meets.eraseIfDead {block : BlockId} {op : OpId} (touch : touched op)
    (ready : (∀ fault, allowed fault) ∨ ∃ data target, ctx.op op = .ok data ∧
      (data.parentBlock = some block ∨ data.parentBlock = none) ∧
      ctx.block block = .ok target) :
    Meets allowed touched ctx (DeadCode.eraseIfDead block op ctx) := by
  -- An operation that is not known fails before anything is erased.
  cases found : ctx.op op with
  | error fault =>
    rcases ready with any | ⟨data, target, known, -⟩
    · have failed : DeadCode.eraseIfDead block op ctx = .error fault := by
        show (ctx.op op >>= _) = _
        rw [found]
        rfl
      rw [failed]
      exact any fault
    · rw [found] at known
      cases known
  | ok data =>
    rw [eraseIfDead_eq found]
    split
    · rename_i dead
      refine Meets.of_performAll touch (fun _ => .erase block data found dead) ?_
      rcases ready with any | ⟨same, target, foundSame, owned, known⟩
      · exact .inl any
      · rw [found] at foundSame
        cases foundSame
        exact .inr (exists_erased found known owned dead)
    · exact ReflTransGen.refl

/-- A sweep erases only what is within its root. -/
theorem Meets.sweepBelow {recursive : Bool} {depth : Nat} {op : OpId}
    (fits : (∀ fault, allowed fault) ∨ ctx.Fits depth (.op op) ∧ ctx.OwnedBelow op) :
    Meets allowed (ctx.Within op) ctx (DeadCode.sweepBelow recursive depth op ctx) := by
  -- Each operation is swept with less depth left than the one that contains it.
  induction depth generalizing op ctx with
  | zero =>
    rcases fits with any | fits
    · exact any _
    · cases fits.1
  | succ depth ih =>
    -- What stands in a block below keeps its owner as long as nothing but the sweep rewrites.
    have ownedIn {mid : Context} (before : Rewrites (ctx.Within op) ctx mid) :
        (∀ fault, allowed fault) ∨ mid.OwnedBelow op :=
      fits.imp_right fun fits => fits.2.rewrites before
    refine Meets.eachBlock (fits.imp_right And.left)
      fun block start toStart encloses fitsStart => ?_
    have insideStart {inner : OpId} {data : Block} (known : start.block block = .ok data)
        (listed : inner ∈ data.ops) : TransGen start.Contains (.op op) (.op inner) :=
      encloses.transGen.tail (Context.contains_block.mpr ⟨data, inner, known, listed, rfl⟩)
    -- The sweeps of what is nested come first, if there are to be any.
    have nested : Meets allowed (ctx.Within op) start ((if recursive then
        Sweep.eachOp (DeadCode.sweepBelow recursive depth) block else Sweep.idle) start) := by
      split
      · refine Meets.eachListed id (fun _ _ => id) fitsStart
          fun data inner known listed fitsInner mid toMid => ?_
        refine Meets.mono (ih ?_) fun deeper deep =>
          toStart.evolves.within ((toMid.evolves.within deep).trans (insideStart known listed))
        rcases ownedIn toStart with any | owned
        · exact .inl any
        · have ownedInner := (owned.inside (insideStart known listed)).rewrites toMid
          exact fitsInner.imp_right fun fits => ⟨toMid.evolves.fits fits, ownedInner⟩
      · exact ReflTransGen.refl
    -- After them, the operations of the block are tried from the last one on.
    refine nested.andThen (fun _ => id) fun middle toMiddle => ?_
    refine Meets.eachListed List.reverse (fun _ _ => List.mem_reverse.mp)
      (fitsStart.imp_right toMiddle.evolves.fits)
      fun data inner known listed fitsInner mid toMid => Meets.counted (Meets.eraseIfDead ?_ ?_)
    -- An operation of the block is below the root, or was made on the way.
    · have contains : middle.Contains (.block block) (.op inner) :=
        Context.contains_block.mpr ⟨data, inner, known, listed, rfl⟩
      rcases toMiddle.evolves.contains contains with old | ⟨fresh, same, new⟩
      · exact toStart.evolves.within (.inl (encloses.transGen.tail old))
      · cases same
        exact toStart.evolves.within (.inr new)
    · -- The block owned the operation when the sweep reached it, and only a rewrite frees it.
      refine (ownedIn (toStart.trans toMiddle)).imp_right fun owned => ?_
      have down := (toMiddle.evolves.encloses encloses).transGen
      obtain ⟨before, found, records⟩ := owned block data inner down known listed
      obtain ⟨operands, owner, foundMid, same, -⟩ := toMid.evolves.op_known found
      obtain ⟨ops, knownMid, -⟩ := toMid.evolves.block_known known
      refine ⟨_, _, foundMid, ?_, knownMid⟩
      exact same.imp (fun same => same.trans records) And.right

/-- Sweeps one after the other erase only what is within their root. -/
theorem Meets.eliminateFrom {config : DeadCode.Config} {root : OpId}
    (fits : (∀ fault, allowed fault) ∨ ctx.Fits ctx.depthBound (.op root) ∧ ctx.OwnedBelow root)
    (removed iterations remaining : Nat) :
    Meets allowed (ctx.Within root) ctx
      (DeadCode.eliminateFrom config root removed iterations remaining ctx) := by
  -- Every sweep starts with as much depth as the first, or with more.
  induction remaining generalizing ctx removed iterations with
  | zero => exact ReflTransGen.refl
  | succ remaining ih =>
    have swept : Meets allowed (ctx.Within root) ctx (DeadCode.sweep config root ctx) :=
      Meets.sweepBelow fits
    refine swept.bind (fun _ => id) fun count mid _ before => ?_
    dsimp only
    split
    · exact ReflTransGen.refl
    · refine Meets.mono (ih ?_ _ _) fun _ inside => before.evolves.within inside
      refine fits.imp_right fun fits => ⟨?_, fits.2.rewrites before⟩
      exact (before.evolves.fits fits.1).mono before.evolves.depthBound_le

/-- Dead code elimination comes to an answer by rewrites where the depth is enough. -/
theorem DeadCode.exists_eliminated (config : DeadCode.Config) {root : OpId}
    (fits : ctx.Fits ctx.depthBound (.op root)) (owned : ctx.OwnedBelow root) :
    ∃ result ctx', DeadCode.eliminate config root ctx = .ok (result, ctx') ∧
      Rewrites (ctx.Within root) ctx ctx' := by
  -- No fault at all is allowed.
  have meets : Meets (fun _ => False) (ctx.Within root) ctx (DeadCode.eliminate config root ctx) :=
    Meets.eliminateFrom (.inr ⟨fits, owned⟩) 0 0 (max config.maxIterations 1)
  exact meets.exists_ok

end NestedIR
