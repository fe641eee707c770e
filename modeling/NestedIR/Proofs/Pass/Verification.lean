import NestedIR.Pass.Verification
import NestedIR.Proofs.Context.Lookup

/-! Every violation that verification reports comes from one rule at one place below the root. -/

namespace NestedIR.Verification

variable {ctx : Context}

/-- A rule that is broken gives its own violation and no other. -/
theorem mem_require {rule : Bool} {violation found : Violation} :
    found ∈ require rule violation ↔ rule = false ∧ found = violation := by
  cases rule <;> simp [require]

/-- What the rules at places and below hold is held by all violations in a list of operations. -/
theorem forall_of_checkOps (holds : Violation → Prop)
    {below : OpId → Except Fault (List Violation)} {region : RegionId} {blocks : List BlockId}
    {block : BlockId}
    (inner : ∀ op found, below op = .ok found → ∀ violation ∈ found, holds violation)
    (atPlace : ∀ isLast op data, ctx.op op = .ok data →
      ∀ violation ∈ checkPlace region blocks block isLast op data, holds violation)
    {ops : List OpId} {found : List Violation}
    (checked : checkOps ctx below region blocks block ops = .ok found) :
    ∀ violation ∈ found, holds violation := by
  -- The list is checked in order, and each operation together with what it contains.
  induction ops generalizing found with
  | nil =>
    cases checked
    simp
  | cons op rest ih =>
    obtain ⟨data, known, checked⟩ := bind_eq_ok.mp checked
    obtain ⟨contents, checkedBelow, checked⟩ := bind_eq_ok.mp checked
    obtain ⟨others, checkedRest, made⟩ := bind_eq_ok.mp checked
    cases made
    intro violation member
    simp only [List.mem_append] at member
    rcases member with (place | content) | other
    · exact atPlace _ op data known violation place
    · exact inner op contents checkedBelow violation content
    · exact ih checkedRest violation other

/-- What every rule holds of the violations it finds is held by all that are reported. -/
theorem forall_of_checkBelow (holds : Violation → Prop)
    (regionRule : ∀ op region data, ctx.region region = .ok data →
      holds (.regionParent op region data.parentOp))
    (blockRule : ∀ region data block owned, ctx.region region = .ok data → block ∈ data.blocks →
      ctx.block block = .ok owned → owned.parentRegion ≠ some region →
      holds (.blockParent region block owned.parentRegion))
    (placeRule : ∀ region blocks block isLast op data, ctx.op op = .ok data →
      ∀ violation ∈ checkPlace region blocks block isLast op data, holds violation)
    {depth : Nat} {op : OpId} {found : List Violation}
    (checked : checkBelow ctx depth op = .ok found) : ∀ violation ∈ found, holds violation := by
  -- Each level of nesting is one level of depth.
  induction depth generalizing op found with
  | zero => cases checked
  | succ depth ih =>
    obtain ⟨data, -, checked⟩ := bind_eq_ok.mp checked
    obtain ⟨contents, checkedRegions, made⟩ := bind_eq_ok.mp checked
    cases made
    intro violation member
    obtain ⟨part, inContents, inPart⟩ := List.mem_flatten.mp member
    obtain ⟨region, -, checkedRegion⟩ := exists_of_mem_mapM checkedRegions inContents
    obtain ⟨listed, known, checkedRegion⟩ := bind_eq_ok.mp checkedRegion
    obtain ⟨parts, checkedBlocks, made⟩ := bind_eq_ok.mp checkedRegion
    cases made
    rcases List.mem_append.mp inPart with broken | inBlocks
    · obtain ⟨-, rfl⟩ := mem_require.mp broken
      exact regionRule op region listed known
    · obtain ⟨part, inParts, inPart⟩ := List.mem_flatten.mp inBlocks
      obtain ⟨block, isListed, checkedBlock⟩ := exists_of_mem_mapM checkedBlocks inParts
      obtain ⟨owned, knownBlock, checkedBlock⟩ := bind_eq_ok.mp checkedBlock
      obtain ⟨rest, checkedRest, made⟩ := bind_eq_ok.mp checkedBlock
      cases made
      rcases List.mem_append.mp inPart with broken | inOps
      · obtain ⟨differs, rfl⟩ := mem_require.mp broken
        exact blockRule region listed block owned known isListed knownBlock (by simpa using differs)
      · exact forall_of_checkOps holds (fun _ _ below => ih below)
          (fun isLast op data => placeRule region listed.blocks block isLast op data) checkedRest
          violation inOps

end NestedIR.Verification
