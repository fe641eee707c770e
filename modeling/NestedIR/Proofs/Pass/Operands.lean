import NestedIR.Proofs.Context.Attachment
import NestedIR.Proofs.Pass.Order
import NestedIR.Proofs.Pass.Safety

/-! Passes leave no operand without a definition, and no use in front of what it uses. -/

namespace NestedIR

open Relation

namespace Context

variable {ctx : Context}

/-- A value is an argument of a block, or a result of an operation that is in a block. -/
def Supplied (ctx : Context) (value : ValueId) : Prop :=
  ∃ data, ctx.value value = .ok data ∧
    ((∃ block index, data.definition = .argument block index) ∨
      ∃ op index, data.definition = .result op index ∧ ctx.Attached op)

/-- Whatever is in a block reads supplied values only. -/
def OperandsSupplied (ctx : Context) : Prop :=
  ∀ op data value, ctx.Attached op → ctx.op op = .ok data → value ∈ data.operands →
    ctx.Supplied value

/-- What is below an operation stands behind the operations whose results it reads. -/
def ReadsInOrder (ctx : Context) (root : OpId) : Prop :=
  ∀ op data value known definer index, TransGen ctx.Contains (.op root) (.op op) →
    ctx.op op = .ok data → value ∈ data.operands → ctx.value value = .ok known →
      known.definition = .result definer index → ctx.Precedes definer op

end Context

/-- Only a known operation is rewritten. -/
theorem Rewrite.exists_op {op : OpId} {ctx ctx' : Context} (rewrite : Rewrite op ctx ctx') :
    ∃ data, ctx.op op = .ok data := by
  cases rewrite with
  | fold block data sum found => exact ⟨data, found⟩
  | erase block data found => exact ⟨data, found⟩

namespace Replaces

variable {op : OpId} {heir : Option OpId} {moved : ValueId → ValueId} {ctx ctx' : Context}

/-- What is in a block afterwards is the heir, or was in a block and is not the operation. -/
theorem attached_before (replaces : Replaces op heir moved ctx ctx') {other : OpId}
    (attached : ctx'.Attached other) : heir = some other ∨ ctx.Attached other ∧ other ≠ op := by
  obtain ⟨data, block, found, owner⟩ := attached
  rcases replaces.op_new found with ⟨old, foundOld⟩ | ⟨isHeir, -⟩
  · cases found.symm.trans (replaces.op_known foundOld)
    -- The operation itself is freed.
    have differs : other ≠ op := fun same => by simp [same] at owner
    exact .inr ⟨⟨old, block, foundOld, by simpa [differs] using owner⟩, differs⟩
  · exact .inl isHeir

/-- What is in a block stays there unless it is the operation itself. -/
theorem attached (replaces : Replaces op heir moved ctx ctx') {other : OpId}
    (attached : ctx.Attached other) (differs : other ≠ op) : ctx'.Attached other := by
  obtain ⟨data, block, found, owner⟩ := attached
  exact ⟨_, block, replaces.op_known found, by simpa [differs] using owner⟩

end Replaces

/--
A sound program in which whatever is in a block shows its operands in the chains, and reads
supplied values only.
-/
structure Covered (discarded : OpId → Prop) (ctx : Context) : Prop extends
    Sound discarded ctx where
  /-- What is in a block is not discarded. -/
  shown : ∀ op, ctx.Attached op → ¬ discarded op
  /-- Whatever is in a block reads supplied values only. -/
  supplied : ctx.OperandsSupplied

namespace Covered

variable {discarded : OpId → Prop} {ctx ctx' : Context} {op root : OpId}

/-- An operand of an operation in a block is listed in the chain of its value. -/
theorem mem_usesOf (covered : Covered discarded ctx) {user : OpId} {data : Operation} {index : Nat}
    {value : ValueId} (attached : ctx.Attached user) (found : ctx.op user = .ok data)
    (held : data.operands[index]? = some value) : ⟨user, index⟩ ∈ ctx.usesOf value :=
  (covered.uses.mem_iff value ⟨user, index⟩).mpr
    ⟨Context.operand?_eq_some_iff.mpr ⟨data, found, held⟩, covered.shown user attached⟩

/-- Below an operation, the uses are in order exactly where what is read is in order. -/
theorem usesInOrder_iff (covered : Covered discarded ctx) :
    ctx.UsesInOrder root ↔ ctx.ReadsInOrder root := by
  constructor
  · intro ordered op data value known definer index below found read foundValue defines
    obtain ⟨place, held⟩ := List.mem_iff_getElem?.mp read
    have listed := covered.mem_usesOf (covered.attached_below below) found held
    obtain ⟨again, foundAgain, inFront⟩ := ordered value ⟨op, place⟩ listed below
    cases foundValue.symm.trans foundAgain
    exact inFront definer index defines
  · intro ordered value use listed below
    -- A chain lists what its user reads, and the user is in a block.
    obtain ⟨data, found, held⟩ :=
      Context.operand?_eq_some_iff.mp ((covered.uses.mem_iff value use).mp listed).1
    have read := List.mem_of_getElem? held
    obtain ⟨known, foundValue, -⟩ :=
      covered.supplied use.user data value (covered.attached_below below) found read
    exact ⟨known, foundValue, fun definer index defines =>
      ordered use.user data value known definer index below found read foundValue defines⟩

/-- A rewrite leaves all operands supplied. -/
theorem rewrite (covered : Covered discarded ctx) (rewrite : Rewrite op ctx ctx') :
    Covered (fun other => discarded other ∨ other = op) ctx' := by
  obtain ⟨heir, moved, replaces⟩ := rewrite.exists_replaces covered.toSound
  refine ⟨covered.toSound.rewrite rewrite, fun other attached => ?_, ?_⟩
  · -- The heir was not known before, so that it was not discarded.
    rcases replaces.attached_before attached with isHeir | ⟨before, differs⟩
    · rintro (gone | same)
      · obtain ⟨data, found⟩ := covered.uses.known other gone
        exact Context.op_ne_next found (replaces.heir_eq isHeir).1
      · obtain ⟨data, found⟩ := rewrite.exists_op
        exact Context.op_ne_next found (same ▸ (replaces.heir_eq isHeir).1)
    · exact not_or.mpr ⟨covered.shown other before, differs⟩
  · intro other data value attached found read
    rcases replaces.op_new found with ⟨old, foundOld⟩ | ⟨-, -, empty⟩
    · cases found.symm.trans (replaces.op_known foundOld)
      obtain ⟨index, held⟩ := List.mem_iff_getElem?.mp read
      rw [Context.getElem?_moveOperands, Option.map_eq_some_iff] at held
      obtain ⟨before, heldBefore, rfl⟩ := held
      have notHeir : heir ≠ some other := fun isHeir =>
        Context.op_ne_next foundOld (replaces.heir_eq isHeir).1
      obtain ⟨attachedOld, -⟩ := (replaces.attached_before attached).resolve_left notHeir
      have listed := covered.mem_usesOf attachedOld foundOld heldBefore
      rw [if_pos listed]
      -- The operand is listed, so that it moves along when its definition is replaced.
      obtain ⟨known, foundValue, source⟩ :=
        covered.supplied other old before attachedOld foundOld (List.mem_of_getElem? heldBefore)
      by_cases own : ∃ place, known.definition = .result op place
      · obtain ⟨place, defines⟩ := own
        obtain ⟨-, same, new, isHeir⟩ := replaces.moved_used listed foundValue defines
        obtain ⟨-, attachedHeir, -, result, -, -, -, -, -, foundResult, definesResult⟩ :=
          replaces.heir_eq isHeir
        exact ⟨result, by rw [same, foundResult], .inr ⟨new, 0, definesResult, attachedHeir⟩⟩
      · have other := not_exists.mp own
        have stays : ctx'.value (moved before) = .ok known := by
          rw [replaces.moved_other foundValue other, replaces.value_known foundValue]
        refine ⟨known, stays, source.imp_right fun result => ?_⟩
        obtain ⟨definer, place, defines, attachedDefiner⟩ := result
        have differs : definer ≠ op := fun same => other place (same ▸ defines)
        exact ⟨definer, place, defines, replaces.attached attachedDefiner differs⟩
    · rw [empty] at read
      cases read

/-- Rewrites leave all operands supplied. -/
theorem rewrites {touched : OpId → Prop} (covered : Covered discarded ctx)
    (rewrites : Rewrites touched ctx ctx') : ∃ discarded, Covered discarded ctx' := by
  induction rewrites with
  | refl => exact ⟨_, covered⟩
  | tail _ step ih =>
    obtain ⟨gone, coveredMid⟩ := ih
    obtain ⟨op, -, rewrite⟩ := step
    exact ⟨_, coveredMid.rewrite rewrite⟩

/-- What plain requests build is covered if they revive nothing and all operands are supplied. -/
theorem of_build {requests : List Request} (plain : ∀ request ∈ requests, request.isEdit = false)
    (built : Context.build requests = .ok ctx)
    (unrevived : ∀ op, ctx.Attached op → ¬ Revived requests op)
    (supplied : ctx.OperandsSupplied) : Covered (fun op => .discardOp op ∈ requests) ctx := by
  refine ⟨.of_build plain built, fun op attached discarded => unrevived op attached ?_, supplied⟩
  obtain ⟨data, block, found, owner⟩ := attached
  exact Context.revived_of_build plain built found owner discarded

end Covered

namespace Context

/-- One program becomes another, and its operands stay supplied and in order below an operation. -/
structure KeepsOperands (root : OpId) (ctx ctx' : Context) : Prop where
  /-- Whatever is in a block reads supplied values only. -/
  supplied : ctx'.OperandsSupplied
  /-- What was behind the definitions of what it reads still is. -/
  inOrder : ctx.ReadsInOrder root → ctx'.ReadsInOrder root

/-- Rewrites within an operation keep operands supplied and in order. -/
theorem KeepsOperands.of_rewrites {discarded : OpId → Prop} {ctx ctx' : Context} {root : OpId}
    {depth : Nat} (covered : Covered discarded ctx) (fits : ctx.Fits depth (.op root))
    (rewrites : Rewrites (ctx.Within root) ctx ctx') : ctx.KeepsOperands root ctx' := by
  obtain ⟨gone, covered'⟩ := covered.rewrites rewrites
  refine ⟨covered'.supplied, fun inOrder => covered'.usesInOrder_iff.mp ?_⟩
  exact (rewrites.usesInOrder covered.toSound fits (covered.usesInOrder_iff.mpr inOrder)).2

/--
Where no discarded operation came back and whatever is in a block reads block arguments and results
of operations in blocks only, both passes come to an answer below which this still holds. What was
behind the definitions of what it reads, or inside something that was, still is afterwards.
-/
theorem keepsOperands_of_build {requests : List Request} {ctx : Context}
    (plain : ∀ request ∈ requests, request.isEdit = false) (built : build requests = .ok ctx)
    (unrevived : ∀ op, ctx.Attached op → ¬ Revived requests op) (supplied : ctx.OperandsSupplied)
    {root : OpId} {data : Operation} (found : ctx.op root = .ok data)
    (acyclic : ctx.AcyclicBelow (.op root)) :
    (∀ config, ∃ result ctx', DeadCode.eliminate config root ctx = .ok (result, ctx') ∧
      ctx.KeepsOperands root ctx') ∧
      ∀ {σ : Type} (config : Canonicalization.Config) (notes : σ), ∃ outcome ctx',
        (Canonicalization.pass config).run root (ctx, notes) = .ok (outcome, ctx', notes) ∧
          ctx.KeepsOperands root ctx' := by
  have covered := Covered.of_build plain built unrevived supplied
  have fits := fits_of_build plain built found acyclic
  have reads : ctx.ReadsBelow (fun _ => False) root := by
    -- What is below the root is in a block, and an operation that is not known reads nothing.
    intro op inside data value foundOp read
    have below := inside.resolve_right (Nat.not_le.mpr (index_lt_of_op foundOp))
    obtain ⟨known, foundValue, -⟩ :=
      supplied op data value (covered.attached_below below) foundOp read
    exact .inl ⟨known, foundValue⟩
  constructor
  · intro config
    obtain ⟨result, ctx', done, rewrites⟩ :=
      DeadCode.exists_eliminated config fits (covered.ops.ownedBelow root)
    exact ⟨result, ctx', done, .of_rewrites covered fits rewrites⟩
  · intro σ config notes
    -- No fault at all is allowed, so that there is an answer.
    have meets : Meets (fun _ => False) (ctx.Within root) ctx
        (Canonicalization.iterate Canonicalization.builtinPatterns root config.maxIterations ctx) :=
      Meets.iterateBelow covered.consistent reads (.inr fits) config.maxIterations
    obtain ⟨result, ctx', done, rewrites⟩ := meets.exists_ok
    rw [Canonicalization.run_pass, done]
    exact ⟨_, ctx', rfl, .of_rewrites covered fits rewrites⟩

/-- Requests for a function with a sum of constants that an operation in a nested block reads. -/
def nestedUse : List Request :=
  [.internType (.integer 8),
    .addOp { name := OpKind.constant.opName, resultTypes := [⟨0⟩]
             attributes := .ofList [(valueKey, .int 100)] },
    .addOp { name := OpKind.addi.opName, operands := [⟨0⟩, ⟨0⟩], resultTypes := [⟨0⟩] },
    .addOp { name := OpKind.testOp.opName, operands := [⟨1⟩] }, .addBlock { ops := [⟨2⟩] },
    .addRegion { blocks := [⟨0⟩] }, .addOp { name := .bare "loop", regions := [⟨0⟩] },
    .addBlock { ops := [⟨0⟩, ⟨1⟩, ⟨3⟩] }, .addRegion { blocks := [⟨1⟩] },
    .addOp { name := OpKind.func.opName, regions := [⟨1⟩] }]

/-- The nested operation reads the constant that the sum is folded into, and still stands behind. -/
theorem keepsOperands_of_build_nestedUse :
    (∀ request ∈ nestedUse, request.isEdit = false) ∧ ∃ ctx, build nestedUse = .ok ctx ∧
      (∀ op, ctx.Attached op → ¬ Revived nestedUse op) ∧ ctx.OperandsSupplied ∧
      ctx.AcyclicBelow (.op ⟨4⟩) ∧ ctx.ReadsInOrder ⟨4⟩ ∧
      (∃ result ctx', DeadCode.eliminate {} ⟨4⟩ ctx = .ok (result, ctx') ∧
        ctx'.OperandsSupplied ∧ ctx'.ReadsInOrder ⟨4⟩) ∧
      ∃ outcome ctx', (Canonicalization.pass {}).run ⟨4⟩ (ctx, ()) = .ok (outcome, ctx', ()) ∧
        ctx'.OperandsSupplied ∧ ctx'.ReadsInOrder ⟨4⟩ := by
  have plain : ∀ request ∈ nestedUse, request.isEdit = false := by decide
  obtain ⟨ctx, built, operands, ⟨first, isFirst, ofFirst⟩, ⟨second, isSecond, ofSecond⟩,
      ⟨block, known, list⟩, ⟨constant, isConstant, owned⟩, ⟨addition, isAddition, ownedToo⟩,
      ⟨func, isFunc⟩, ⟨listing, listed⟩, inLoop⟩ : ∃ ctx, build nestedUse = .ok ctx ∧
        (∀ entry ∈ ctx.ops.toList.zipIdx, ∀ value ∈ entry.1.operands,
          entry.2 = 1 ∧ value = ⟨0⟩ ∨ entry.2 = 2 ∧ value = ⟨1⟩) ∧
        (∃ value, ctx.value ⟨0⟩ = .ok value ∧ value.definition = .result ⟨0⟩ 0) ∧
        (∃ value, ctx.value ⟨1⟩ = .ok value ∧ value.definition = .result ⟨1⟩ 0) ∧
        (∃ block, ctx.block ⟨1⟩ = .ok block ∧ block.ops = [⟨0⟩, ⟨1⟩, ⟨3⟩]) ∧
        (∃ data, ctx.op ⟨0⟩ = .ok data ∧ data.parentBlock = some ⟨1⟩) ∧
        (∃ data, ctx.op ⟨1⟩ = .ok data ∧ data.parentBlock = some ⟨1⟩) ∧
        (∃ data, ctx.op ⟨4⟩ = .ok data) ∧ (∃ listing, ctx.preorder (.op ⟨4⟩) = .ok listing) ∧
        ctx.preorder (.op ⟨3⟩) = .ok [.op ⟨3⟩, .region ⟨0⟩, .block ⟨0⟩, .op ⟨2⟩] :=
    ⟨_, rfl, by decide +kernel, ⟨_, rfl, rfl⟩, ⟨_, rfl, rfl⟩, ⟨_, rfl, rfl⟩, ⟨_, rfl, rfl⟩,
      ⟨_, rfl, rfl⟩, ⟨_, rfl⟩, ⟨_, rfl⟩, rfl⟩
  -- The addition reads the first value, and the nested operation reads the second one.
  have reads (op : OpId) (data : Operation) (value : ValueId) (found : ctx.op op = .ok data)
      (read : value ∈ data.operands) : op = ⟨1⟩ ∧ value = ⟨0⟩ ∨ op = ⟨2⟩ ∧ value = ⟨1⟩ := by
    exact (operands _ (mem_zipIdx_of_op found) value read).imp (And.imp_left (congrArg OpId.mk))
      (And.imp_left (congrArg OpId.mk))
  have supplied : ctx.OperandsSupplied := by
    intro op data value attached found read
    rcases reads op data value found read with ⟨-, rfl⟩ | ⟨-, rfl⟩
    · exact ⟨first, isFirst, .inr ⟨_, _, ofFirst, constant, _, isConstant, owned⟩⟩
    · exact ⟨second, isSecond, .inr ⟨_, _, ofSecond, addition, _, isAddition, ownedToo⟩⟩
  have inOrder : ctx.ReadsInOrder ⟨4⟩ := by
    intro op data value defining definer index below found read foundValue defines
    rcases reads op data value found read with ⟨rfl, rfl⟩ | ⟨rfl, rfl⟩
    · cases isFirst.symm.trans foundValue
      cases ofFirst.symm.trans defines
      exact ⟨⟨1⟩, block, ⟨1⟩, known, by rw [list]; decide, .refl⟩
    · cases isSecond.symm.trans foundValue
      cases ofSecond.symm.trans defines
      exact ⟨⟨1⟩, block, ⟨3⟩, known, by rw [list]; decide,
        (mem_preorderWithin_iff inLoop).mp (by simp)⟩
  -- Nothing was ever discarded, so nothing has come back.
  have unrevived : ∀ op, ctx.Attached op → ¬ Revived nestedUse op := by
    intro op _ revived
    simpa [nestedUse] using revived.discarded
  have acyclic := (preorder_ok_iff.mp ⟨listing, listed⟩).2
  obtain ⟨eliminates, canonicalizes⟩ :=
    keepsOperands_of_build plain built unrevived supplied isFunc acyclic
  obtain ⟨result, left, eliminated, keeps⟩ := eliminates {}
  obtain ⟨outcome, last, ran, keepsToo⟩ := canonicalizes {} ()
  exact ⟨plain, ctx, built, unrevived, supplied, acyclic, inOrder,
    ⟨result, left, eliminated, keeps.supplied, keeps.inOrder inOrder⟩,
    outcome, last, ran, keepsToo.supplied, keepsToo.inOrder inOrder⟩

end Context

end NestedIR
