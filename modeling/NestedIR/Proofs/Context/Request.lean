import Mathlib.Data.List.Induction
import NestedIR.Proofs.Context.Lookup

/-! Requests are the ways in which a program is built and changed, one after the other. -/

namespace NestedIR

/-- A request to change a program. -/
inductive Request where
  /-- Makes an operation. -/
  | addOp (spec : OpSpec)
  /-- Makes a block. -/
  | addBlock (spec : BlockSpec)
  /-- Makes a region. -/
  | addRegion (data : Region)
  /-- Appends a free operation to a block. -/
  | appendOp (block : BlockId) (op : OpId)
  /-- Puts a free operation in front of another one in a block. -/
  | insertOp (block : BlockId) (before op : OpId)
  /-- Takes an operation out of a block. -/
  | detachOp (block : BlockId) (op : OpId)
  /-- Takes a free operation out of the program. -/
  | discardOp (op : OpId)
  /-- Puts one value into every operand slot that holds another. -/
  | redirectUses (old new : ValueId)
  /-- Changes the data of an operation directly, but for its operands and results. -/
  | editOp (op : OpId) (edit : OpEdit)
  /-- Puts other data in the place of an operation, operands and results included. -/
  | replaceOp (op : OpId) (data : Operation)
  /-- Finds a type, or records it when it is new. -/
  | internType (data : TypeData)
  /-- Changes the registered dialects. -/
  | setDialects (dialects : DialectTable)

/-- Whether a request changes the data of an operation behind the back of the program. -/
def Request.isEdit : Request → Bool
  | .editOp .. => true
  | .replaceOp .. => true
  | _ => false

/-- Whether a request changes operands by way of the use chains, if it changes them. -/
def Request.keepsUses : Request → Bool
  | .replaceOp .. => false
  | _ => true

/-- A request that is no direct edit keeps the use chains. -/
theorem Request.keepsUses_of_plain {request : Request} (plain : request.isEdit = false) :
    request.keepsUses := by
  cases request <;> simp_all [isEdit, keepsUses]

/-- The block and the operation that a request brings together, if it does so. -/
def Request.attachment? : Request → Option (BlockId × OpId)
  | .appendOp block op => some (block, op)
  | .insertOp block _ op => some (block, op)
  | _ => none

namespace Context

/-- The program after one request, unless the request is refused. -/
def perform (ctx : Context) : Request → Except Fault Context
  | .addOp spec => return (← ctx.addOp spec).2
  | .addBlock spec => return (← ctx.addBlock spec).2
  | .addRegion data => return (← ctx.addRegion data).2
  | .appendOp block op => ctx.appendOp block op
  | .insertOp block before op => ctx.insertOp block before op
  | .detachOp block op => ctx.detachOp block op
  | .discardOp op => ctx.discardOp op
  | .redirectUses old new => return ctx.redirectUses old new
  | .editOp op edit => ctx.editOp op edit
  | .replaceOp op data => do
    let _ ← ctx.op op
    return ctx.modifyOp op fun _ => data
  | .internType data => return (ctx.internType data).2
  | .setDialects dialects => return { ctx with dialects }

/-- The program after some requests in order, unless one of them is refused. -/
def performAll (ctx : Context) (requests : List Request) : Except Fault Context :=
  requests.foldlM perform ctx

/-- The program that some requests build from nothing, unless one of them is refused. -/
def build (requests : List Request) : Except Fault Context := ({} : Context).performAll requests

/-- A request for an operation is carried out exactly when the operation is made. -/
theorem perform_addOp {ctx ctx' : Context} {spec : OpSpec} :
    ctx.perform (.addOp spec) = .ok ctx' ↔ ∃ op, ctx.addOp spec = .ok (op, ctx') := by
  show (ctx.addOp spec >>= fun made => pure made.2) = _ ↔ _
  simp [bind_eq_ok, Pure.pure, Except.pure]

/-- A request for a block is carried out exactly when the block is made. -/
theorem perform_addBlock {ctx ctx' : Context} {spec : BlockSpec} :
    ctx.perform (.addBlock spec) = .ok ctx' ↔ ∃ block, ctx.addBlock spec = .ok (block, ctx') := by
  show (ctx.addBlock spec >>= fun made => pure made.2) = _ ↔ _
  simp [bind_eq_ok, Pure.pure, Except.pure]

/-- A request for a region is carried out exactly when the region is made. -/
theorem perform_addRegion {ctx ctx' : Context} {data : Region} :
    ctx.perform (.addRegion data) = .ok ctx' ↔
      ∃ region, ctx.addRegion data = .ok (region, ctx') := by
  show (ctx.addRegion data >>= fun made => pure made.2) = _ ↔ _
  simp [bind_eq_ok, Pure.pure, Except.pure]

/-- Only a known operation can be given other data. -/
theorem perform_replaceOp {ctx ctx' : Context} {op : OpId} {data : Operation} :
    ctx.perform (.replaceOp op data) = .ok ctx' ↔
      ∃ old, ctx.op op = .ok old ∧ ctx' = ctx.modifyOp op fun _ => data := by
  show (ctx.op op >>= fun _ => pure (ctx.modifyOp op fun _ => data)) = _ ↔ _
  rw [bind_eq_ok]
  simp [Pure.pure, Except.pure, eq_comm (a := ctx')]

/-- Requests in two parts are carried out exactly when both parts are. -/
theorem performAll_append {ctx ctx' : Context} {first second : List Request} :
    ctx.performAll (first ++ second) = .ok ctx' ↔
      ∃ mid, ctx.performAll first = .ok mid ∧ mid.performAll second = .ok ctx' := by
  rw [performAll, List.foldlM_append, bind_eq_ok]
  rfl

/-- One more request is carried out exactly when the earlier ones are and it is. -/
theorem performAll_concat {ctx ctx' : Context} {requests : List Request} {request : Request} :
    ctx.performAll (requests ++ [request]) = .ok ctx' ↔
      ∃ mid, ctx.performAll requests = .ok mid ∧ mid.perform request = .ok ctx' := by
  rw [performAll_append]
  simp [performAll]

/-- What holds at the start and is kept by every request holds after any requests. -/
theorem performAll_induction {motive : List Request → Context → Prop} {ctx : Context}
    (start : motive [] ctx)
    (step : ∀ requests mid request ctx', motive requests mid → mid.perform request = .ok ctx' →
      motive (requests ++ [request]) ctx') {requests : List Request} {ctx' : Context}
    (performed : ctx.performAll requests = .ok ctx') : motive requests ctx' := by
  -- The last request comes last, so the list is taken apart from its end.
  induction requests using List.reverseRecOn generalizing ctx' with
  | nil =>
    cases performed
    exact start
  | append_singleton requests request ih =>
    obtain ⟨mid, earlier, last⟩ := performAll_concat.mp performed
    exact step requests mid request ctx' (ih earlier) last

section Claims

variable {κ δ : Type} [DecidableEq κ]

/--
Entities that are claimed in turn were free and distinct, and belong to the claimant afterwards.

A view of the program that no single claim changes is not changed by all of them either.
-/
theorem foldlM_claim (find : Context → κ → Except Fault δ) (own : Context → κ → Context)
    (free : δ → Prop) {claimed : δ → δ} {claim : Context → κ → Except Fault Context}
    (seen : ∀ ctx target key,
      find (own ctx target) key =
        (find ctx key).map fun data => if key = target then claimed data else data)
    (taken : ∀ data, ¬ free (claimed data))
    (claims : ∀ ctx key ctx', claim ctx key = .ok ctx' →
      ctx' = own ctx key ∧ ∃ data, find ctx key = .ok data ∧ free data)
    {keys : List κ} {ctx ctx' : Context} (done : keys.foldlM claim ctx = .ok ctx') :
    keys.Nodup ∧ (∀ key ∈ keys, ∃ data, find ctx key = .ok data ∧ free data) ∧
      (∀ key, find ctx' key =
        (find ctx key).map fun data => if key ∈ keys then claimed data else data) ∧
      ∀ {β : Type} (view : Context → β), (∀ ctx key, view (own ctx key) = view ctx) →
        view ctx' = view ctx := by
  -- A claim that goes through leaves its entity taken, so no later one can name it again.
  induction keys generalizing ctx with
  | nil =>
    cases done
    exact ⟨List.nodup_nil, by simp, by simp, fun _ _ => rfl⟩
  | cons first rest ih =>
    obtain ⟨mid, head, tail⟩ := bind_eq_ok.mp done
    obtain ⟨rfl, data, found, isFree⟩ := claims ctx first mid head
    obtain ⟨distinct, wereFree, after, frame⟩ := ih tail
    have absent : first ∉ rest := by
      intro again
      obtain ⟨later, foundLater, freeLater⟩ := wereFree first again
      rw [seen, found] at foundLater
      simp only [Except.map, if_true, Except.ok.injEq] at foundLater
      exact taken data (foundLater ▸ freeLater)
    refine ⟨List.nodup_cons.mpr ⟨absent, distinct⟩, ?_, ?_, ?_⟩
    · intro key member
      rcases List.mem_cons.mp member with rfl | member
      · exact ⟨data, found, isFree⟩
      · have differs : key ≠ first := fun same => absent (same ▸ member)
        obtain ⟨later, foundLater, freeLater⟩ := wereFree key member
        rw [seen, map_eq_ok] at foundLater
        obtain ⟨old, foundOld, rfl⟩ := foundLater
        exact ⟨old, foundOld, by simpa [differs] using freeLater⟩
    · intro key
      rw [after, seen]
      cases find ctx key <;> by_cases same : key = first <;> simp [same, absent, Except.map]
    · intro β view kept
      rw [frame view kept, kept]

end Claims

end Context

end NestedIR
