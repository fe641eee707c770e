import NestedIR.Proofs.Context.Values
import NestedIR.Proofs.Pass.Rewriting

/-! However a program came about, by requests and runs of passes, its values are defined once. -/

namespace NestedIR

section Reach

/-- Requests that put no other data in place of an operation turn one program into another. -/
def Context.Reaches (ctx ctx' : Context) : Prop :=
  ∃ requests : List Request, (∀ request ∈ requests, request.keepsUses) ∧
    ctx.performAll requests = .ok ctx'

variable {ctx mid ctx' : Context}

/-- A program reaches itself without any request. -/
theorem Context.Reaches.refl (ctx : Context) : ctx.Reaches ctx := ⟨[], by simp, rfl⟩

/-- Requests may come one after another. -/
theorem Context.Reaches.trans (first : ctx.Reaches mid) (second : mid.Reaches ctx') :
    ctx.Reaches ctx' := by
  obtain ⟨requests, keep, performed⟩ := first
  obtain ⟨more, keepToo, performedToo⟩ := second
  refine ⟨requests ++ more, fun request member => ?_,
    performAll_append.mpr ⟨mid, performed, performedToo⟩⟩
  exact (List.mem_append.mp member).elim (keep request) (keepToo request)

/-- One request reaches what it leads to. -/
theorem Context.Reaches.of_perform {request : Request} (keeps : request.keepsUses)
    (done : ctx.perform request = .ok ctx') : ctx.Reaches ctx' :=
  ⟨[request], by simpa using keeps, by simpa [performAll] using done⟩

/-- A built-in rewrite reaches what it leads to. -/
theorem Rewrite.reaches {op : OpId} (rewrite : Rewrite op ctx ctx') : ctx.Reaches ctx' := by
  obtain ⟨requests, plain, performed⟩ := rewrite.exists_performAll
  exact ⟨requests, fun request member => Request.keepsUses_of_plain (plain request member),
    performed⟩

end Reach

section Runs

variable {α : Type}

/-- A sweep that changes a program by such requests only, whatever it answers. -/
def Sweep.ByRequests (sweep : Sweep) : Prop :=
  ∀ ctx count ctx', sweep ctx = .ok (count, ctx') → ctx.Reaches ctx'

/-- An attempt that changes a program by such requests only, whether or not it applies. -/
def Attempt.ByRequests (attempt : Attempt) : Prop :=
  ∀ ctx applied ctx', attempt ctx = .ok (applied, ctx') → ctx.Reaches ctx'

/-- Counting an attempt changes nothing. -/
theorem Attempt.ByRequests.counted {attempt : Attempt} (requests : attempt.ByRequests) :
    attempt.counted.ByRequests := by
  intro ctx count ctx' done
  obtain ⟨⟨applied, mid⟩, tried, made⟩ := bind_eq_ok.mp done
  cases made
  exact requests ctx applied ctx' tried

namespace Sweep.ByRequests

/-- Doing nothing takes no request. -/
theorem idle : Sweep.idle.ByRequests := by
  intro ctx count ctx' done
  cases done
  exact .refl _

/-- The requests of two sweeps come one after the other. -/
theorem andThen {first second : Sweep} (requests : first.ByRequests)
    (requestsToo : second.ByRequests) : (first.andThen second).ByRequests := by
  intro ctx count ctx' done
  obtain ⟨⟨few, mid⟩, ran, rest⟩ := bind_eq_ok.mp done
  obtain ⟨⟨others, last⟩, ranToo, made⟩ := bind_eq_ok.mp rest
  cases made
  exact (requests ctx few mid ran).trans (requestsToo mid others ctx' ranToo)

/-- A lookup before a sweep takes no request. -/
theorem lookup {δ : Type} {find : Context → Except Fault δ} {next : δ → Sweep}
    (requests : ∀ data, (next data).ByRequests) :
    Sweep.ByRequests fun ctx => find ctx >>= (next · ctx) := by
  intro ctx count ctx' done
  obtain ⟨data, -, ran⟩ := bind_eq_ok.mp done
  exact requests data ctx count ctx' ran

/-- The requests for the items of a list come one after the other. -/
theorem each {step : α → Sweep} (requests : ∀ item, (step item).ByRequests) (items : List α) :
    (Sweep.each step items).ByRequests := by
  induction items with
  | nil => exact idle
  | cons first rest ih => exact (requests first).andThen ih

/-- The requests for the blocks of an operation come one after the other. -/
theorem eachBlock {step : BlockId → Sweep} (requests : ∀ block, (step block).ByRequests)
    (op : OpId) : (Sweep.eachBlock step op).ByRequests :=
  lookup fun data =>
    each (fun _ => lookup fun (listed : Region) => each requests listed.blocks) data.regions

/-- The requests for what a block lists, in any order, come one after the other. -/
theorem eachListed (order : List OpId → List OpId) {step : OpId → Sweep}
    (requests : ∀ op, (step op).ByRequests) (block : BlockId) :
    Sweep.ByRequests fun ctx =>
      ctx.block block >>= fun data => Sweep.each step (order data.ops) ctx :=
  lookup fun data => each requests (order data.ops)

end Sweep.ByRequests

end Runs

/-- Erasing what is dead takes two requests. -/
theorem DeadCode.byRequests_eraseIfDead (block : BlockId) (op : OpId) :
    (eraseIfDead block op).ByRequests := by
  intro ctx applied ctx' done
  obtain ⟨data, found, -⟩ := bind_eq_ok.mp done
  rw [eraseIfDead_eq found] at done
  split at done
  · -- What is dead is erased by a rewrite, and nothing else is touched.
    rename_i dead
    obtain ⟨last, performed, same⟩ := map_eq_ok.mp done
    cases same
    exact (Rewrite.erase block data found dead performed).reaches
  · cases done
    exact .refl _

/-- Folding an addition takes five requests. -/
theorem byRequests_foldAddition (block : BlockId) (op : OpId) :
    (foldAddition.rewrite block op).ByRequests := by
  intro ctx applied ctx' done
  obtain ⟨data, found, -⟩ := bind_eq_ok.mp done
  rw [foldAddition_eq found] at done
  obtain ⟨sum?, computed, rest⟩ := bind_eq_ok.mp done
  cases sum? with
  | none =>
    -- Without constants on both sides there is no sum to put in place.
    cases rest
    exact .refl _
  | some sum =>
    obtain ⟨last, performed, same⟩ := map_eq_ok.mp rest
    cases same
    exact (Rewrite.fold block data sum found computed performed).reaches

/-- Sweeping below an operation takes requests only, down to any depth. -/
theorem DeadCode.byRequests_sweepBelow (recursive : Bool) (depth : Nat) (op : OpId) :
    (sweepBelow recursive depth op).ByRequests := by
  -- The sweep goes down as far as its depth says, and erases on the way back.
  induction depth generalizing op with
  | zero => exact fun ctx count ctx' done => by cases done
  | succ depth ih =>
    refine .eachBlock (fun block => .andThen ?_ ?_) op
    · cases recursive with
      | false => exact .idle
      | true => exact .eachListed (·) ih block
    · exact .eachListed List.reverse (fun op => (byRequests_eraseIfDead block op).counted) block

/-- Eliminating dead code takes requests only, however many sweeps are made. -/
theorem DeadCode.reaches_of_eliminateFrom {config : Config} {root : OpId}
    {removed iterations remaining : Nat} {ctx ctx' : Context} {result : Result}
    (done : eliminateFrom config root removed iterations remaining ctx = .ok (result, ctx')) :
    ctx.Reaches ctx' := by
  -- Each sweep starts from what the one before it has left.
  induction remaining generalizing removed iterations ctx with
  | zero =>
    cases done
    exact .refl _
  | succ remaining ih =>
    obtain ⟨⟨count, mid⟩, swept, rest⟩ := bind_eq_ok.mp done
    have first := byRequests_sweepBelow config.recursive ctx.depthBound root ctx count mid swept
    dsimp only at rest
    split at rest
    · cases rest
      exact first
    · exact first.trans (ih rest)

namespace Canonicalization

variable {patterns : List Pattern}

/-- Patterns that are tried in turn take requests only if each of them does. -/
theorem byRequests_applyFirst {block : BlockId} {op : OpId}
    (requests : ∀ pattern ∈ patterns, (pattern.rewrite block op).ByRequests) :
    (Pattern.applyFirst block op patterns).ByRequests := by
  -- A pattern may have made requests even where it does not apply in the end.
  induction patterns with
  | nil =>
    intro ctx applied ctx' done
    cases done
    exact .refl _
  | cons pattern rest ih =>
    intro ctx applied ctx' done
    obtain ⟨⟨here, mid⟩, tried, others⟩ := bind_eq_ok.mp done
    have first := requests pattern (by simp) ctx here mid tried
    dsimp only at others
    split at others
    · cases others
      exact first
    · have later := ih fun pattern member => requests pattern (by simp [member])
      exact first.trans (later mid applied ctx' others)

variable (requests : ∀ pattern ∈ patterns, ∀ block op, (pattern.rewrite block op).ByRequests)
include requests

/-- Visiting what is below an operation takes requests only, down to any depth. -/
theorem byRequests_visitBelow (depth : Nat) (op : OpId) :
    (visitBelow patterns depth op).ByRequests := by
  -- What is inside an operation is visited before the operation is rewritten.
  induction depth generalizing op with
  | zero => exact fun ctx count ctx' done => by cases done
  | succ depth ih =>
    refine .eachBlock (fun block => .eachListed (·) (fun inner => .lookup fun data => ?_) block) op
    split
    · refine (ih inner).andThen (Attempt.ByRequests.counted ?_)
      exact byRequests_applyFirst fun pattern member => requests pattern member block inner
    · exact .idle

/-- Visiting again and again takes requests only. -/
theorem reaches_of_iterate {root : OpId} {remaining : Nat} {ctx ctx' : Context} {result : Result}
    (done : iterate patterns root remaining ctx = .ok (result, ctx')) : ctx.Reaches ctx' := by
  -- The last visit is the one that changes nothing, or the last that is allowed.
  induction remaining generalizing ctx result with
  | zero =>
    cases done
    exact .refl _
  | succ remaining ih =>
    obtain ⟨⟨count, mid⟩, visited, rest⟩ := bind_eq_ok.mp done
    have first := byRequests_visitBelow requests _ root ctx count mid visited
    dsimp only at rest
    split at rest
    · cases rest
      exact first
    · obtain ⟨⟨further, last⟩, again, made⟩ := bind_eq_ok.mp rest
      cases made
      exact first.trans (ih again)

end Canonicalization

/-- What may be done to a program: one request, or one run of a pass. -/
inductive Call where
  /-- A request is performed. -/
  | request (asked : Request)
  /-- Dead code below an operation is eliminated. -/
  | eliminate (config : DeadCode.Config) (root : OpId)
  /-- What is below an operation is canonicalized, with further rewrites. -/
  | canonicalize (config : Canonicalization.Config) (patterns : List Pattern) (root : OpId)

/--
A call that never puts other data in place of an operation.

Rewrites that others add to a canonicalization must themselves be made of such requests.
-/
def Call.Permitted : Call → Prop
  | .request asked => asked.keepsUses
  | .eliminate .. => True
  | .canonicalize _ patterns _ =>
    ∀ pattern ∈ patterns, ∀ block op, (pattern.rewrite block op).ByRequests

namespace Context

/-- The program after one call, unless the call is refused. -/
def call (ctx : Context) : Call → Except Fault Context
  | .request asked => ctx.perform asked
  | .eliminate config root =>
    ((DeadCode.pass config).run root (ctx, ())).map fun ended => ended.2.1
  | .canonicalize config patterns root =>
    ((Canonicalization.passWith config patterns).run root (ctx, ())).map fun ended => ended.2.1

/-- The program after some calls in order, unless one of them is refused. -/
def callAll (ctx : Context) (calls : List Call) : Except Fault Context := calls.foldlM call ctx

/-- A permitted call comes down to requests. -/
theorem reaches_of_call {ctx ctx' : Context} {call : Call} (permitted : call.Permitted)
    (done : ctx.call call = .ok ctx') : ctx.Reaches ctx' := by
  -- A pass is a recorder around the function that changes the program.
  cases call with
  | request asked => exact .of_perform permitted done
  | eliminate config root =>
    obtain ⟨ended, ran, rfl⟩ := map_eq_ok.mp done
    obtain ⟨⟨outcome, last⟩, changed, made⟩ := bind_eq_ok.mp ran
    cases made
    obtain ⟨⟨result, erased⟩, eliminated, made⟩ := bind_eq_ok.mp changed
    cases made
    exact DeadCode.reaches_of_eliminateFrom eliminated
  | canonicalize config patterns root =>
    obtain ⟨ended, ran, rfl⟩ := map_eq_ok.mp done
    obtain ⟨⟨outcome, last⟩, changed, made⟩ := bind_eq_ok.mp ran
    cases made
    obtain ⟨⟨result, rewritten⟩, iterated, made⟩ := bind_eq_ok.mp changed
    cases made
    refine Canonicalization.reaches_of_iterate (fun pattern member block op => ?_) iterated
    -- The built-in rewrites come first, and need no assumption.
    simp only [Canonicalization.builtinPatterns, List.cons_append, List.nil_append,
      List.mem_cons] at member
    rcases member with rfl | rfl | member
    · exact byRequests_foldAddition block op
    · exact DeadCode.byRequests_eraseIfDead block op
    · exact permitted pattern member block op

/-- Permitted calls come down to requests together. -/
theorem reaches_of_callAll {ctx ctx' : Context} {calls : List Call}
    (permitted : ∀ call ∈ calls, call.Permitted) (done : ctx.callAll calls = .ok ctx') :
    ctx.Reaches ctx' := by
  induction calls generalizing ctx with
  | nil =>
    cases done
    exact .refl _
  | cons call rest ih =>
    -- Each call comes down to requests on what the calls before it have left.
    obtain ⟨mid, called, later⟩ := bind_eq_ok.mp done
    have first := reaches_of_call (permitted call (by simp)) called
    exact first.trans (ih (fun call member => permitted call (by simp [member])) later)

/--
Whatever calls have led to a program, its values are in bijection with the places that define one.

The lists of results and arguments agree with that, and later calls change no known value.
-/
theorem definedOnce_of_callAll {before after : List Call} {ctx ctx' : Context}
    (permitted : ∀ call ∈ before ++ after, call.Permitted)
    (reached : ({} : Context).callAll before = .ok ctx) (later : ctx.callAll after = .ok ctx') :
    DefinedOnce ctx ∧
      ∀ value data, ctx.value value = .ok data → ctx'.value value = .ok data := by
  -- What holds after requests from the start is kept by the requests that follow.
  obtain ⟨requests, keep, performed⟩ :=
    reaches_of_callAll (fun call member => permitted call (by simp [member])) reached
  obtain ⟨more, keepToo, performedToo⟩ :=
    reaches_of_callAll (fun call member => permitted call (by simp [member])) later
  have defined := (ValuesDefined.start.performAll keep performed).1
  exact ⟨defined.definedOnce, (defined.performAll keepToo performedToo).2⟩

/-- Requests that build a function with a sum of constants, use the sum, and rename the function. -/
def usedSum : List Request :=
  [.internType (.integer 32), .addBlock { argumentTypes := [⟨0⟩] },
    .addRegion { blocks := [⟨0⟩] },
    .addOp { name := OpKind.func.opName, regions := [⟨0⟩], symbol := some "f" },
    .addOp { name := OpKind.constant.opName, resultTypes := [⟨0⟩]
             attributes := .ofList [(valueKey, .int 1)] },
    .addOp { name := OpKind.addi.opName, operands := [⟨1⟩, ⟨1⟩], resultTypes := [⟨0⟩] },
    .addOp { name := .bare "use", operands := [⟨2⟩, ⟨0⟩] },
    .appendOp ⟨0⟩ ⟨1⟩, .appendOp ⟨0⟩ ⟨2⟩, .appendOp ⟨0⟩ ⟨3⟩, .editOp ⟨0⟩ (.setSymbol (some "g"))]

/-- Calls that build the function and fold the sum. -/
def foldedSum : List Call :=
  usedSum.map .request ++ [.canonicalize {} [Canonicalization.eraseDead] ⟨0⟩]

/-- Calls that take the use of the folded sum away, eliminate what is dead, and go on building. -/
def cleanedUp : List Call :=
  [.request (.detachOp ⟨0⟩ ⟨3⟩), .request (.discardOp ⟨3⟩), .eliminate {} ⟨0⟩,
    .request (.addOp { name := .bare "source", resultTypes := [⟨0⟩, ⟨0⟩] })]

/-- All values of the folded sum are defined once, and none changes while it is cleaned up. -/
theorem definedOnce_of_callAll_foldedSum :
    (∀ call ∈ foldedSum ++ cleanedUp, call.Permitted) ∧
      ∃ ctx ctx', ({} : Context).callAll foldedSum = .ok ctx ∧ ctx.callAll cleanedUp = .ok ctx' ∧
        ctx.values.size = 4 ∧ ctx'.values.size = 6 ∧ DefinedOnce ctx ∧
          ∀ value data, ctx.value value = .ok data → ctx'.value value = .ok data := by
  have keep : ∀ request ∈ usedSum, request.keepsUses := by decide
  have permitted : ∀ call ∈ foldedSum ++ cleanedUp, call.Permitted := by
    intro call member
    simp only [foldedSum, cleanedUp, List.mem_append, List.mem_map, List.mem_cons,
      List.not_mem_nil, or_false] at member
    rcases member with (⟨request, asked, rfl⟩ | rfl) | rfl | rfl | rfl | rfl
    · exact keep request asked
    · intro pattern member
      cases List.mem_singleton.mp member
      exact DeadCode.byRequests_eraseIfDead
    all_goals trivial
  -- Both histories are evaluated, and leave four values and then six.
  have evaluated : (({} : Context).callAll foldedSum >>= fun ctx =>
      (ctx.callAll cleanedUp).map fun ctx' => (ctx.values.size, ctx'.values.size)) =
        .ok (4, 6) := by decide +kernel
  obtain ⟨ctx, reached, evaluated⟩ := bind_eq_ok.mp evaluated
  obtain ⟨ctx', later, sizes⟩ := map_eq_ok.mp evaluated
  obtain ⟨size, size'⟩ := Prod.mk.inj sizes
  exact ⟨permitted, ctx, ctx', reached, later, size, size',
    definedOnce_of_callAll permitted reached later⟩

end Context

end NestedIR
