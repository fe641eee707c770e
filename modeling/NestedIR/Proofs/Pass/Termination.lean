import NestedIR.Proofs.Pass.Canonicalization
import NestedIR.Proofs.Pass.Checklist
import NestedIR.Proofs.Pass.DeadCode
import NestedIR.Proofs.Traversal

/-! Traversals and passes end exactly where no operation is inside itself. -/

namespace NestedIR

open Relation

namespace Context

variable {ctx ctx' : Context}

/-- Every traversal from an operation ends, and so does every built-in pass on it. -/
structure TraversalsEnd (ctx : Context) (root : OpId) : Prop where
  /-- The listing of everything below the operation is finite. -/
  preorder : ∃ listing, ctx.preorder (.op root) = .ok listing
  /-- A walk fails only where its visitor does, on an operation that it can reach. -/
  walk : ∀ {σ β : Type} (visit : Visitor σ β) state fault,
    ctx.walk visit (.op root) state = .error fault →
      ∃ op, ReflTransGen ctx.Contains (.op root) (.op op) ∧ ∃ state, visit op state = .error fault
  /-- The targets of a nested pass are found. -/
  outermost : ∀ kind, ∃ found, ctx.outermost kind root = .ok found
  /-- The dump has finitely many lines. -/
  dump : ∀ indent, ∃ lines, ∀ limit, lines.length ≤ limit →
    ctx.firstLines limit root indent = .ok lines
  /-- Verification comes to an answer. -/
  verify : ∃ found, Verification.violations ctx root = .ok found
  /-- Dead code elimination comes to an answer. -/
  eliminate : ∀ config, ∃ answer, DeadCode.eliminate config root ctx = .ok answer
  /-- Canonicalization fails at most on a value that is not known. -/
  canonicalize : ∀ remaining fault,
    Canonicalization.iterate Canonicalization.builtinPatterns root remaining ctx = .error fault →
      ∃ value, fault = .unknownValue value

/-- Traversals and passes end on an operation exactly where nothing below it is inside itself. -/
theorem traversalsEnd_iff (consistent : Consistent ctx) (ops : ctx.OpsOwned)
    (regions : ctx.RegionsOwned) (blocks : ctx.BlocksOwned) {root : OpId} {data : Operation}
    (found : ctx.op root = .ok data) : ctx.TraversalsEnd root ↔ ctx.AcyclicBelow (.op root) := by
  -- The listing already shows that there is no cycle, and without one all else ends.
  refine ⟨fun ends => (preorder_ok_iff.mp ends.preorder).2, fun acyclic => ?_⟩
  have members : ∃ listed, ctx.members (.op root) = .ok listed :=
    ⟨_, bind_eq_ok.mpr ⟨data, found, rfl⟩⟩
  have known := knownBelow_of_owned ops regions blocks members
  have fits := fits_depthBound known acyclic
  refine ⟨preorder_ok_iff.mpr ⟨known, acyclic⟩, fun visit state fault => walk_eq_error fits,
    fun kind => exists_outermost fits, fun indent => exists_firstLines fits indent,
    Verification.exists_checkBelow fits, fun config => ?_, fun remaining fault failed => ?_⟩
  · obtain ⟨result, ctx', done, -⟩ := DeadCode.exists_eliminated config fits (ops.ownedBelow root)
    exact ⟨(result, ctx'), done⟩
  · have meets : Meets (fun fault => ∃ value, fault = .unknownValue value) (ctx.Within root) ctx
        (Canonicalization.iterate Canonicalization.builtinPatterns root remaining ctx) :=
      Meets.iterate consistent (fun op data value _ _ => .inr ⟨value, rfl⟩) (.inr fits) remaining
    rw [failed] at meets
    exact meets

/-- Every program that requests pass through is acyclic. -/
def StaysAcyclic (requests : List Request) : Prop :=
  ∀ earlier later ctx, requests = earlier ++ later → build earlier = .ok ctx → ctx.Acyclic

/-- No request closes a cycle in the program in which it is made. -/
def NeverCloses (requests : List Request) : Prop :=
  ∀ earlier request later ctx, requests = earlier ++ request :: later →
    build earlier = .ok ctx → ¬ request.Closes ctx

/-- In an acyclic program that requests build, exactly a request that closes a cycle leaves one. -/
theorem acyclic_iff_not_closes_of_build {requests : List Request} {request : Request}
    (plain : ∀ earlier ∈ requests, earlier.isEdit = false) (built : build requests = .ok ctx)
    (acyclic : ctx.Acyclic) (plainToo : request.isEdit = false)
    (done : ctx.perform request = .ok ctx') : ctx'.Acyclic ↔ ¬ request.Closes ctx := by
  -- Owners agree after the earlier requests, so that what is new cannot be listed yet.
  obtain ⟨ops, regions⟩ := owned_of_build plain built
  exact acyclic.iff_not_closes ops regions (.of_build built) plainToo (change_of_perform done)

/-- Programs stay acyclic exactly while no request closes a cycle. -/
theorem staysAcyclic_iff {requests : List Request}
    (plain : ∀ request ∈ requests, request.isEdit = false) (built : build requests = .ok ctx) :
    StaysAcyclic requests ↔ NeverCloses requests := by
  -- One more request decides between a program that is acyclic and the next one.
  have step {earlier later : List Request} {request : Request} {mid next : Context}
      (split : requests = earlier ++ request :: later) (builtMid : build earlier = .ok mid)
      (done : mid.perform request = .ok next) (acyclic : mid.Acyclic) :
      next.Acyclic ↔ ¬ request.Closes mid := by
    have plainEarlier : ∀ request ∈ earlier, request.isEdit = false := by
      intro request member
      exact plain request (by simp [split, member])
    have plainRequest : request.isEdit = false := plain request (by simp [split])
    exact acyclic_iff_not_closes_of_build plainEarlier builtMid acyclic plainRequest done
  constructor
  · intro stays earlier request later mid split builtMid
    obtain ⟨same, builtSame, rest⟩ := performAll_append.mp (split ▸ built)
    cases builtMid.symm.trans builtSame
    obtain ⟨next, done, -⟩ := bind_eq_ok.mp rest
    have builtNext : build (earlier ++ [request]) = .ok next :=
      performAll_concat.mpr ⟨mid, builtMid, done⟩
    exact (step split builtMid done (stays earlier (request :: later) mid split builtMid)).mp
      (stays (earlier ++ [request]) later next (by simp [split]) builtNext)
  · intro never earlier
    -- The empty program is acyclic, and each request keeps it so.
    induction earlier using List.reverseRecOn with
    | nil =>
      intro later mid split builtMid op around
      cases builtMid
      obtain ⟨next, contains, -⟩ := TransGen.head'_iff.mp around
      simp [contains_op, Context.op] at contains
    | append_singleton earlier request ih =>
      intro later next split builtNext
      obtain ⟨mid, builtMid, done⟩ := performAll_concat.mp builtNext
      have splitMid : requests = earlier ++ request :: later := by simpa using split
      exact (step splitMid builtMid done (ih (request :: later) mid splitMid builtMid)).mpr
        (never earlier request later mid splitMid builtMid)

/-- In an acyclic program, nothing below any entity is inside itself. -/
theorem Acyclic.below (acyclic : ctx.Acyclic) (entity : Entity) : ctx.AcyclicBelow entity :=
  fun inner _ => acyclic.not_transGen inner

/--
Requests without direct edits keep containment acyclic exactly while none of them puts an operation
into a block inside it. Every traversal and every built-in pass ends on every operation exactly if
containment is acyclic, and ends on one operation exactly if nothing below that is inside itself.
-/
theorem containment_of_build {requests : List Request} {ctx : Context}
    (plain : ∀ request ∈ requests, request.isEdit = false) (built : build requests = .ok ctx) :
    (StaysAcyclic requests ↔ NeverCloses requests) ∧
      (ctx.Acyclic ↔ ∀ root data, ctx.op root = .ok data → ctx.TraversalsEnd root) ∧
      ∀ root data, ctx.op root = .ok data →
        (ctx.TraversalsEnd root ↔ ctx.AcyclicBelow (.op root)) := by
  -- Owners agree after such requests, so that what is listed is known.
  obtain ⟨ops, regions⟩ := owned_of_build plain built
  have keep : ∀ request ∈ requests, request.keepsUses :=
    fun request member => Request.keepsUses_of_plain (plain request member)
  have atRoot (root : OpId) (data : Operation) (found : ctx.op root = .ok data) :
      ctx.TraversalsEnd root ↔ ctx.AcyclicBelow (.op root) :=
    traversalsEnd_iff (.of_build keep built) ops regions (.of_build built) found
  refine ⟨staysAcyclic_iff plain built,
    ⟨fun acyclic root data found => ?_, fun ends op around => ?_⟩, atRoot⟩
  · exact (atRoot root data found).mpr (acyclic.below (.op root))
  · -- An operation that contains anything is known, so that it may be taken as the root.
    obtain ⟨next, contains, -⟩ := TransGen.head'_iff.mp around
    obtain ⟨data, region, found, -, -⟩ := contains_op.mp contains
    exact (atRoot op data found).mp (ends op data found) (.op op) .refl around

/-- Where the requests of a move lead, everything ends on the loop if its contents are acyclic. -/
theorem containment_of_build_movedIntoLoop :
    (∀ request ∈ movedIntoLoop, request.isEdit = false) ∧
      ∃ ctx, build movedIntoLoop = .ok ctx ∧
        (StaysAcyclic movedIntoLoop ↔ NeverCloses movedIntoLoop) ∧
        (ctx.Acyclic ↔ ∀ root data, ctx.op root = .ok data → ctx.TraversalsEnd root) ∧
        (ctx.TraversalsEnd ⟨0⟩ ↔ ctx.AcyclicBelow (.op ⟨0⟩)) := by
  -- The loop is known, because the fourth request made it.
  obtain ⟨ctx, built, data, found⟩ : ∃ ctx, build movedIntoLoop = .ok ctx ∧
      ∃ data, ctx.op ⟨0⟩ = .ok data := ⟨_, rfl, _, rfl⟩
  have plain : ∀ request ∈ movedIntoLoop, request.isEdit = false := by decide
  obtain ⟨stays, acyclic, atRoot⟩ := containment_of_build plain built
  exact ⟨plain, ctx, built, stays, acyclic, atRoot ⟨0⟩ data found⟩

/-- Requests that put an operation into its own block, which nothing refuses. -/
def ownLoop : List Request :=
  [.addBlock {}, .addRegion { blocks := [⟨0⟩] },
    .addOp { name := .bare "loop", regions := [⟨0⟩] }, .appendOp ⟨0⟩ ⟨0⟩]

/-- An operation can be put inside itself, and then walks from it do not end. -/
theorem not_acyclic_ownLoop :
    (∀ request ∈ ownLoop, request.isEdit = false) ∧
      ∃ ctx, build ownLoop = .ok ctx ∧ ¬ ctx.Acyclic ∧
        ctx.preorder (.op ⟨0⟩) = .error (.containmentCycle (.region ⟨0⟩)) := by
  refine ⟨by decide, _, rfl, fun acyclic => acyclic ⟨0⟩ ?_, rfl⟩
  exact .head ⟨_, rfl, .head _⟩ (.head ⟨_, rfl, .head _⟩ (.single ⟨_, rfl, .head _⟩))

/-- Two requests bring a block and an operation together. -/
theorem attachment?_eq_some_iff {request : Request} {block : BlockId} {op : OpId} :
    request.attachment? = some (block, op) ↔
      request = .appendOp block op ∨ ∃ before, request = .insertOp block before op := by
  cases request <;> simp [Request.attachment?]

/-- A program is cyclic as soon as any entity is inside itself. -/
theorem not_acyclic_iff : ¬ ctx.Acyclic ↔ ∃ entity, TransGen ctx.Contains entity entity := by
  -- A cycle through any entity passes through an operation as well.
  constructor
  · intro cyclic
    obtain ⟨op, around⟩ := not_forall_not.mp cyclic
    exact ⟨.op op, around⟩
  · exact fun ⟨entity, around⟩ acyclic => acyclic.not_transGen entity around

/--
Where requests without direct edits have built an acyclic program, one more of them leaves a cycle
exactly when it puts an operation into a block that is contained below the operation.
-/
theorem cyclic_iff_of_build {requests : List Request} {request : Request}
    (plain : ∀ earlier ∈ requests, earlier.isEdit = false) (built : build requests = .ok ctx)
    (acyclic : ctx.Acyclic) (plainToo : request.isEdit = false)
    (done : ctx.perform request = .ok ctx') :
    (∃ entity, TransGen ctx'.Contains entity entity) ↔
      ∃ block op, (request = .appendOp block op ∨ ∃ before, request = .insertOp block before op) ∧
        TransGen ctx.Contains (.op op) (.block block) := by
  -- A program without cycles stays so exactly unless the request closes one.
  have kept := acyclic_iff_not_closes_of_build plain built acyclic plainToo done
  rw [← not_acyclic_iff, kept, not_not, Request.Closes]
  simp only [attachment?_eq_some_iff]

/-- Requests that build a loop around an operation. -/
def filledLoop : List Request :=
  [.addBlock {}, .addRegion { blocks := [⟨0⟩] }, .addOp { name := .bare "body" },
    .addOp { name := .bare "loop", regions := [⟨0⟩] }, .appendOp ⟨0⟩ ⟨0⟩]

/-- The loop around an operation becomes cyclic when it is put in front of that operation. -/
theorem cyclic_iff_of_build_filledLoop :
    (∀ request ∈ filledLoop, request.isEdit = false) ∧
      ∃ ctx, build filledLoop = .ok ctx ∧ ctx.Acyclic ∧
        ∃ ctx', ctx.perform (.insertOp ⟨0⟩ ⟨0⟩ ⟨1⟩) = .ok ctx' ∧
          ∃ entity, TransGen ctx'.Contains entity entity := by
  have plain : ∀ request ∈ filledLoop, request.isEdit = false := by decide
  obtain ⟨ctx, built, size, listing, down, inside, ctx', done⟩ : ∃ ctx,
      build filledLoop = .ok ctx ∧ ctx.ops.size = 2 ∧
        (∃ listing, ctx.preorder (.op ⟨1⟩) = .ok listing) ∧
        TransGen ctx.Contains (.op ⟨1⟩) (.block ⟨0⟩) ∧ ctx.Contains (.block ⟨0⟩) (.op ⟨0⟩) ∧
        ∃ ctx', ctx.perform (.insertOp ⟨0⟩ ⟨0⟩ ⟨1⟩) = .ok ctx' :=
    ⟨_, rfl, rfl, ⟨_, rfl⟩, .head ⟨_, rfl, .head _⟩ (.single ⟨_, rfl, .head _⟩),
      ⟨_, rfl, .head _⟩, _, rfl⟩
  -- Both operations are listed below the loop, and the listing is finite.
  have below : ctx.AcyclicBelow (.op ⟨1⟩) := (preorder_ok_iff.mp listing).2
  have acyclic : ctx.Acyclic := by
    intro op around
    obtain ⟨next, contains, -⟩ := TransGen.head'_iff.mp around
    obtain ⟨data, region, found, -, -⟩ := contains_op.mp contains
    have known := size ▸ index_lt_of_op found
    obtain ⟨_ | _ | index⟩ := op
    · exact below _ (down.tail inside).to_reflTransGen around
    · exact below _ .refl around
    · exact absurd known (by simp)
  have cyclic := cyclic_iff_of_build plain built acyclic rfl done
  exact ⟨plain, ctx, built, acyclic, ctx', done, cyclic.mpr ⟨⟨0⟩, ⟨1⟩, .inr ⟨⟨0⟩, rfl⟩, down⟩⟩

end Context

end NestedIR
