import NestedIR.Proofs.Context.Unfolding
import NestedIR.Proofs.Pass.Tree

/-! A walk goes through an unfolding in order, leaves out what is skipped, and ends at a stop. -/

namespace NestedIR

open Relation

/-- Whether an advice leaves out what an operation contains. -/
def Advice.isSkip {β : Type} : Advice β → Bool
  | .skip => true
  | _ => false

/-- Whether an advice lets the walk go on. -/
def Advice.goesOn {β : Type} : Advice β → Bool
  | .stop _ => false
  | _ => true

/-- An occurrence at which a walk arrives, with the advice that it is given there. -/
structure Arrival (β : Type) extends Occurrence where
  /-- How the walk goes on. -/
  advice : Advice β

/-- The operations on which a visitor is called at some arrivals. -/
def calls {β : Type} (arrivals : List (Arrival β)) : List OpId :=
  arrivals.filterMap fun arrival => arrival.entity.op?

/-- What is left of some occurrences without what is inside an arrival that is to be skipped. -/
def unskipped {β : Type} (arrivals : List (Arrival β)) (occurrences : List Occurrence) :
    List Occurrence :=
  occurrences.filter fun occurrence => arrivals.all fun arrival =>
    !(arrival.advice.isSkip && decide (occurrence.Inside arrival.toOccurrence))

/-- A visitor gives the advice of some arrivals, called on them one after the other. -/
inductive Replays {σ β : Type} (visit : Visitor σ β) : σ → List (Arrival β) → σ → Prop where
  /-- Without arrivals the visitor is not called. -/
  | nil (state : σ) : Replays visit state [] state
  /-- The first arrival gets its advice, and the others theirs in the state that this leads to. -/
  | cons {state mid final : σ} {arrival : Arrival β} {rest : List (Arrival β)}
    (advised : visit.advise arrival.entity state = .ok (arrival.advice, mid))
    (later : Replays visit mid rest final) : Replays visit state (arrival :: rest) final

namespace Context

variable {σ β : Type} {ctx : Context} {visit : Visitor σ β}

/--
How a walk ends that has arrived at some of the occurrences ahead of it.

Only at the last arrival may the advice have been to stop.
-/
inductive Ends (ctx : Context) (visit : Visitor σ β) (ahead : List Occurrence)
    (arrivals : List (Arrival β)) (final : σ) : Except Fault (Option β × σ) → Prop where
  /-- The walk has arrived everywhere. -/
  | finished (passed : ∀ arrival ∈ arrivals, arrival.advice.goesOn)
    (everywhere : arrivals.map Arrival.toOccurrence = ahead) :
    Ends ctx visit ahead arrivals final (.ok (none, final))
  /-- The visitor has stopped the walk. -/
  | stopped {front : List (Arrival β)} {last : Arrival β} {answer : β}
    (split : arrivals = front ++ [last]) (passed : ∀ arrival ∈ front, arrival.advice.goesOn)
    (stops : last.advice = .stop answer) :
    Ends ctx visit ahead arrivals final (.ok (some answer, final))
  /-- The walk was to go on into what is not known. -/
  | lost {front : List (Arrival β)} {last : Arrival β} {fault : Fault}
    (split : arrivals = front ++ [last]) (passed : ∀ arrival ∈ arrivals, arrival.advice.goesOn)
    (descends : last.advice = .descend) (unknown : ctx.members last.entity = .error fault) :
    Ends ctx visit ahead arrivals final (.error fault)
  /-- The visitor has failed at the next occurrence. -/
  | refused {next : Occurrence} {rest : List Occurrence} {fault : Fault}
    (passed : ∀ arrival ∈ arrivals, arrival.advice.goesOn)
    (split : ahead = arrivals.map Arrival.toOccurrence ++ next :: rest)
    (fails : visit.advise next.entity final = .error fault) :
    Ends ctx visit ahead arrivals final (.error fault)

/-- A walk that arrives at some occurrences in order, without what it skips, and comes to an end. -/
structure Course (ctx : Context) (visit : Visitor σ β) (occurrences : List Occurrence) (start : σ)
    (arrivals : List (Arrival β)) (final : σ) (result : Except Fault (Option β × σ)) : Prop where
  /-- The visitor has been called at each arrival, and nowhere else. -/
  replays : Replays visit start arrivals final
  /-- The arrivals are the first of the occurrences that are not skipped. -/
  inOrder : arrivals.map Arrival.toOccurrence <+: unskipped arrivals occurrences
  /-- The end comes after the last arrival. -/
  ends : ctx.Ends visit (unskipped arrivals occurrences) arrivals final result

end Context

section Unskipped

variable {β : Type} {arrivals early late : List (Arrival β)} {front back : List Occurrence}

/-- Without arrivals nothing is skipped. -/
theorem unskipped_nil : unskipped ([] : List (Arrival β)) front = front := by
  simp [unskipped]

/-- What is left of two parts is left of each of them. -/
theorem unskipped_append :
    unskipped arrivals (front ++ back) = unskipped arrivals front ++ unskipped arrivals back :=
  List.filter_append ..

/-- Arrivals that occurrences are not inside of skip none of them. -/
theorem unskipped_append_left
    (outside : ∀ arrival ∈ late, ∀ occurrence ∈ front, ¬ occurrence.Inside arrival.toOccurrence) :
    unskipped (early ++ late) front = unskipped early front := by
  refine List.filter_congr fun occurrence listed => ?_
  -- No late arrival leaves the occurrence out.
  have stays : (late.all fun arrival =>
      !(arrival.advice.isSkip && decide (occurrence.Inside arrival.toOccurrence))) = true :=
    List.all_eq_true.mpr fun arrival member => by simp [outside arrival member occurrence listed]
  rw [List.all_append, stays, Bool.and_true]

/-- The same holds of arrivals that come first. -/
theorem unskipped_append_right
    (outside : ∀ arrival ∈ early, ∀ occurrence ∈ back, ¬ occurrence.Inside arrival.toOccurrence) :
    unskipped (early ++ late) back = unskipped late back := by
  refine List.filter_congr fun occurrence listed => ?_
  -- No early arrival leaves the occurrence out.
  have stays : (early.all fun arrival =>
      !(arrival.advice.isSkip && decide (occurrence.Inside arrival.toOccurrence))) = true :=
    List.all_eq_true.mpr fun arrival member => by simp [outside arrival member occurrence listed]
  rw [List.all_append, stays, Bool.true_and]

end Unskipped

/-- Replaying arrivals in two parts is replaying them all. -/
theorem Replays.append {σ β : Type} {visit : Visitor σ β} {start mid final : σ}
    {early late : List (Arrival β)} (first : Replays visit start early mid)
    (second : Replays visit mid late final) : Replays visit start (early ++ late) final := by
  induction first with
  | nil => exact second
  | cons advised _ ih => exact .cons advised (ih second)

namespace Context

section Courses

variable {σ β : Type} {ctx : Context} {visit : Visitor σ β} {start mid final : σ}
  {front back ahead : List Occurrence} {early late arrivals : List (Arrival β)}
  {result : Except Fault (Option β × σ)}

/-- Two sets of occurrences stand side by side when none of one is inside one of the other. -/
def SideBySide (front back : List Occurrence) : Prop :=
  ∀ first ∈ front, ∀ second ∈ back, ¬ first.Inside second ∧ ¬ second.Inside first

/-- A walk arrives at nothing but the occurrences. -/
theorem Course.mem (course : ctx.Course visit front start arrivals final result)
    {arrival : Arrival β} (member : arrival ∈ arrivals) : arrival.toOccurrence ∈ front :=
  List.mem_of_mem_filter (course.inOrder.subset (List.mem_map_of_mem member))

/-- A walk that is over before its end has more ahead of it without coming any further. -/
theorem Ends.append (ends : ctx.Ends visit ahead arrivals final result)
    (isOver : ∀ state, result ≠ .ok (none, state)) (more : List Occurrence) :
    ctx.Ends visit (ahead ++ more) arrivals final result := by
  -- Only a walk that has arrived everywhere would go on to more.
  cases ends with
  | finished => exact absurd rfl (isOver final)
  | stopped split passed stops => exact .stopped split passed stops
  | lost split passed descends unknown => exact .lost split passed descends unknown
  | refused passed split fails =>
    exact .refused passed (by rw [split, List.append_assoc, List.cons_append]) fails

/-- A walk ends in the same way if it has gone on through others before. -/
theorem Ends.after (ends : ctx.Ends visit ahead late final result)
    (passed : ∀ arrival ∈ early, arrival.advice.goesOn) :
    ctx.Ends visit (early.map Arrival.toOccurrence ++ ahead) (early ++ late) final result := by
  -- What was passed early and what is passed late goes on.
  have all (passedLate : ∀ arrival ∈ late, arrival.advice.goesOn) :
      ∀ arrival ∈ early ++ late, arrival.advice.goesOn := fun arrival member =>
    (List.mem_append.mp member).elim (passed arrival) (passedLate arrival)
  -- The end is the same one, with more behind it on the way.
  cases ends with
  | finished passedLate everywhere =>
    exact .finished (all passedLate) (by rw [List.map_append, everywhere])
  | stopped split passedLate stops =>
    refine .stopped (by rw [split, List.append_assoc]) (fun arrival member => ?_) stops
    exact (List.mem_append.mp member).elim (passed arrival) (passedLate arrival)
  | lost split passedLate descends unknown =>
    exact .lost (by rw [split, List.append_assoc]) (all passedLate) descends unknown
  | refused passedLate split fails =>
    exact .refused (all passedLate) (by rw [split, List.map_append, List.append_assoc]) fails

/-- A walk that is over among the first occurrences does not come to the others. -/
theorem Course.append_of_over (course : ctx.Course visit front start arrivals final result)
    (isOver : ∀ state, result ≠ .ok (none, state)) (back : List Occurrence) :
    ctx.Course visit (front ++ back) start arrivals final result where
  -- The arrivals are those among the first occurrences, and there are no others.
  replays := course.replays
  inOrder := by
    rw [unskipped_append]
    exact course.inOrder.trans (List.prefix_append _ _)
  ends := by
    rw [unskipped_append]
    exact course.ends.append isOver _

/-- A walk that has arrived everywhere in front goes on with what stands beside that. -/
theorem Course.append (first : ctx.Course visit front start early mid (.ok (none, mid)))
    (second : ctx.Course visit back mid late final result) (apart : SideBySide front back) :
    ctx.Course visit (front ++ back) start (early ++ late) final result := by
  -- The first part has been gone through to its end.
  obtain ⟨passedEarly, everywhere⟩ : (∀ arrival ∈ early, arrival.advice.goesOn) ∧
      early.map Arrival.toOccurrence = unskipped early front := by
    cases first.ends with
    | finished passed everywhere => exact ⟨passed, everywhere⟩
  -- What is skipped in one part is not around anything in the other part.
  have left : unskipped (early ++ late) (front ++ back) =
      early.map Arrival.toOccurrence ++ unskipped late back := by
    rw [unskipped_append, unskipped_append_left, unskipped_append_right, everywhere]
    · exact fun arrival member other listed => (apart _ (first.mem member) other listed).2
    · exact fun arrival member other listed => (apart other listed _ (second.mem member)).1
  refine ⟨first.replays.append second.replays, ?_, ?_⟩
  · rw [left, List.map_append]
    exact (List.prefix_append_right_inj _).mpr second.inOrder
  · rw [left]
    exact second.ends.after passedEarly

/-- A walk begins with the advice on what it starts from. -/
theorem walkWithin_succ (depth : Nat) (entity : Entity) (state : σ) :
    ctx.walkWithin visit (depth + 1) entity state =
      (visit.advise entity state >>= fun advised => match advised.1 with
        | .stop answer => .ok (some answer, advised.2)
        | .skip => .ok (none, advised.2)
        | .descend => ctx.members entity >>= fun listed =>
          (listed.findSomeM? (ctx.walkWithin visit depth)) advised.2) := by
  -- The advice decides how the walk goes on.
  show (visit.advise entity state >>= _) = _
  congr 1
  funext advised
  obtain ⟨advice, after⟩ := advised
  cases advice with
  | stop answer => rfl
  | skip => rfl
  | descend =>
    show ((ctx.members entity >>= fun listed => pure (listed, after)) >>= _) = _
    cases ctx.members entity <;> rfl

/-- A search goes on after its first item if that one has no answer. -/
theorem findSomeM?_cons {α : Type} (look : α → StateT σ (Except Fault) (Option β)) (first : α)
    (rest : List α) (state : σ) :
    ((first :: rest).findSomeM? look) state =
      (look first state >>= fun looked =>
        looked.1.elim ((rest.findSomeM? look) looked.2)
          fun answer => .ok (some answer, looked.2)) := by
  show (look first state >>= _) = _
  congr 1
  funext looked
  obtain ⟨answer, after⟩ := looked
  cases answer <;> rfl

/-- Members at different positions of a list are unfolded side by side. -/
theorem sideBySide_of_ne {depth : Nat} {way : List (Entity × Nat)} {entity first second : Entity}
    {position other : Nat} (differ : position ≠ other) :
    ∀ early ∈ ctx.unfoldWithin depth ((entity, position) :: way) first,
      ∀ late ∈ ctx.unfoldWithin depth ((entity, other) :: way) second,
        ¬ early.Inside late ∧ ¬ late.Inside early := fun _ inFirst _ inSecond =>
  ⟨Occurrence.not_inside_of_branches differ.symm (suffix_of_mem_unfoldWithin inSecond)
      (suffix_of_mem_unfoldWithin inFirst),
    Occurrence.not_inside_of_branches differ (suffix_of_mem_unfoldWithin inFirst)
      (suffix_of_mem_unfoldWithin inSecond)⟩

/-- A search through members takes its course through what they unfold into, one after the other. -/
theorem exists_course_of_search (way : List (Entity × Nat)) (entity : Entity) {depth : Nat}
    {members : List Entity}
    (each : ∀ member ∈ members, ∀ way state, ∃ arrivals final,
      ctx.Course visit (ctx.unfoldWithin depth way member) state arrivals final
        (ctx.walkWithin visit depth member state)) (first : Nat) (start : σ) :
    ∃ arrivals final, ctx.Course visit (ctx.unfoldMembers depth way entity (members.zipIdx first))
      start arrivals final ((members.findSomeM? (ctx.walkWithin visit depth)) start) := by
  induction members generalizing first start with
  | nil => exact ⟨[], start, .nil start, List.prefix_refl _, .finished (by simp) rfl⟩
  | cons member rest ih =>
    rw [List.zipIdx_cons, unfoldMembers, List.flatMap_cons]
    obtain ⟨early, mid, course⟩ := each member (by simp) ((entity, first) :: way) start
    rw [findSomeM?_cons]
    cases walked : ctx.walkWithin visit depth member start with
    | error fault =>
      rw [walked] at course
      exact ⟨early, mid, course.append_of_over (by simp) _⟩
    | ok walk =>
      obtain ⟨answer, after⟩ := walk
      rw [walked] at course
      cases answer with
      | some answer => exact ⟨early, mid, course.append_of_over (by simp) _⟩
      | none =>
        -- The walk of the first member has gone through, and that of the others goes on from there.
        have same : after = mid := by cases course.ends; rfl
        subst same
        obtain ⟨late, final, courseRest⟩ :=
          ih (fun other listed => each other (by simp [listed])) (first + 1) after
        refine ⟨early ++ late, final, course.append courseRest fun one inFirst two inRest => ?_⟩
        obtain ⟨other, position, isItem, inOther⟩ := mem_unfoldMembers_iff.mp inRest
        have behind := (List.mem_zipIdx isItem).1
        exact sideBySide_of_ne (by omega) one inFirst two inOther

/-- A walk ends at once if it is to stop at what it starts from. -/
theorem Course.stop {head : Occurrence} {answer : β}
    (advised : visit.advise head.entity start = .ok (.stop answer, mid)) :
    ctx.Course visit (head :: back) start [⟨head, .stop answer⟩] mid (.ok (some answer, mid)) where
  replays := .cons advised (.nil mid)
  inOrder := by simp [unskipped, Advice.isSkip]
  ends := .stopped (List.nil_append _).symm (by simp) rfl

/-- A walk that is to skip what it starts from leaves out everything that is inside that. -/
theorem Course.skip {head : Occurrence}
    (advised : visit.advise head.entity start = .ok (.skip, mid))
    (inside : ∀ occurrence ∈ back, occurrence.Inside head) :
    ctx.Course visit (head :: back) start [⟨head, .skip⟩] mid (.ok (none, mid)) := by
  -- Nothing is inside itself, so that the start is left and all the rest is skipped.
  have itself : ¬ head.Inside head := fun inside => inside.2 rfl
  have left : unskipped [(⟨head, .skip⟩ : Arrival β)] (head :: back) = [head] := by
    rw [unskipped, List.filter_cons_of_pos (by simp [itself]), List.filter_eq_nil_iff.mpr]
    intro occurrence member
    simpa [Advice.isSkip] using inside occurrence member
  refine ⟨.cons advised (.nil mid), ?_, ?_⟩
  · rw [left]
    exact List.prefix_refl _
  · rw [left]
    exact .finished (by simp [Advice.goesOn]) rfl

/-- A walk fails if it is to go on into what is not known. -/
theorem Course.lose {head : Occurrence} {fault : Fault}
    (advised : visit.advise head.entity start = .ok (.descend, mid))
    (unknown : ctx.members head.entity = .error fault) :
    ctx.Course visit (head :: back) start [⟨head, .descend⟩] mid (.error fault) where
  replays := .cons advised (.nil mid)
  inOrder := by simp [unskipped, Advice.isSkip]
  ends := .lost (List.nil_append _).symm (by simp [Advice.goesOn]) rfl unknown

/-- A walk that is to go on into what it starts from goes through what is inside that. -/
theorem Course.descend {head : Occurrence}
    (advised : visit.advise head.entity start = .ok (.descend, mid))
    (inside : ∀ occurrence ∈ back, occurrence.Inside head)
    (below : ctx.Course visit back mid late final result) :
    ctx.Course visit (head :: back) start (⟨head, .descend⟩ :: late) final result := by
  have left : unskipped (⟨head, .descend⟩ :: late) (head :: back) =
      head :: unskipped late back := by
    have onlyLate (occurrences : List Occurrence) :
        unskipped (⟨head, .descend⟩ :: late) occurrences = unskipped late occurrences := by
      simp [unskipped, Advice.isSkip]
    rw [onlyLate, ← List.singleton_append, unskipped_append, ← List.nil_append late,
      unskipped_append_left, unskipped_nil, List.nil_append, List.singleton_append]
    -- What is inside the head does not have the head inside of it.
    intro arrival member occurrence listed
    cases List.mem_singleton.mp listed
    exact (inside _ (below.mem member)).asymm
  refine ⟨.cons advised below.replays, ?_, ?_⟩
  · rw [left, List.map_cons]
    exact (List.prefix_cons_inj _).mpr below.inOrder
  · have passed : ∀ arrival ∈ [(⟨head, .descend⟩ : Arrival β)], arrival.advice.goesOn := by
      simp [Advice.goesOn]
    rw [left]
    exact below.ends.after passed

/-- A walk that nothing leads back takes its course through all that its start unfolds into. -/
theorem exists_course (visit : Visitor σ β) {depth : Nat} {entity : Entity}
    (shallow : Shallow ctx.Contains depth entity) (way : List (Entity × Nat)) (start : σ) :
    ∃ arrivals final, ctx.Course visit (ctx.unfoldWithin depth way entity) start arrivals final
      (ctx.walkWithin visit depth entity start) := by
  induction depth generalizing entity way start with
  | zero => cases shallow
  | succ depth ih =>
    -- All that follows the start in its unfolding is inside of it.
    have inside : ∀ occurrence ∈ ctx.unfoldMembers depth way entity (ctx.listed entity).zipIdx,
        occurrence.Inside ⟨way, entity⟩ := fun _ member => inside_of_mem_members member
    rw [walkWithin_succ, unfoldWithin_succ]
    cases advised : visit.advise entity start with
    | error fault =>
      exact ⟨[], start, .nil start, List.nil_prefix, .refused (by simp) rfl advised⟩
    | ok advising =>
      obtain ⟨advice, mid⟩ := advising
      have advisedHead : visit.advise (Occurrence.mk way entity).entity start =
          .ok (advice, mid) := advised
      -- The walk stops, skips what is inside, or goes through the members in order.
      cases advice with
      | stop answer => exact ⟨_, mid, .stop advisedHead⟩
      | skip => exact ⟨_, mid, .skip advisedHead inside⟩
      | descend =>
        cases members : ctx.members entity with
        | error fault => exact ⟨_, mid, .lose advisedHead members⟩
        | ok found =>
          -- The walk of each member has its course, and these courses follow on one another.
          obtain ⟨arrivals, final, course⟩ := exists_course_of_search way entity
            (fun member (isListed : member ∈ found) deeper state =>
              ih (shallow member ⟨found, members, isListed⟩) deeper state) 0 mid
          rw [listed_eq members] at inside ⊢
          exact ⟨_, final, course.descend advisedHead inside⟩

/-- A course gives a result unless something is not known or the visitor fails. -/
theorem Course.exists_ok (course : ctx.Course visit front start arrivals final result)
    (known : ∀ occurrence ∈ front, ∃ members, ctx.members occurrence.entity = .ok members)
    (advises : ∀ occurrence ∈ front, ∀ state, ∃ advised,
      visit.advise occurrence.entity state = .ok advised) :
    ∃ answer, result = .ok (answer, final) := by
  -- Only two ends have no result, one at what is not known and one at a visitor that fails.
  cases course.ends with
  | finished => exact ⟨none, rfl⟩
  | stopped => exact ⟨_, rfl⟩
  | @lost front' last fault split _ _ unknown =>
    -- The walk has arrived there, so that the members are known.
    have arrived : last ∈ arrivals := by simp [split]
    obtain ⟨members, found⟩ := known _ (course.mem arrived)
    rw [found] at unknown
    cases unknown
  | @refused next rest fault _ split fails =>
    -- The walk was about to arrive there, so that the visitor has advice.
    have ahead : next ∈ unskipped arrivals front := by simp [split]
    obtain ⟨advised, given⟩ := advises next (List.mem_of_mem_filter ahead) final
    rw [given] at fails
    cases fails

/-- The visitor is called on operations in the order of the occurrences. -/
theorem Course.calls_sublist (course : ctx.Course visit front start arrivals final result) :
    (calls arrivals).Sublist ((front.map Occurrence.entity).filterMap Entity.op?) := by
  have inOrder := course.inOrder.sublist.trans List.filter_sublist
  have shown := (inOrder.map Occurrence.entity).filterMap Entity.op?
  rwa [List.map_map, List.filterMap_map] at shown

end Courses

/-- Without direct edits, what is below an operation is listed once. -/
theorem nodup_preorder_of_build {ctx : Context} {requests : List Request}
    (plain : ∀ request ∈ requests, request.isEdit = false) (built : build requests = .ok ctx)
    {root : Entity} {listing : List Entity} (listed : ctx.preorder root = .ok listing) :
    listing.Nodup := by
  -- In the lists of a program without edits, each operation and region comes up once.
  obtain ⟨ops, regions⟩ := owned_of_build plain built
  have blocks := BlocksOwned.of_build built
  have single : ctx.SingleOwners root :=
    .of_owner? fun _ _ _ contains => owner?_eq_of_owned ops regions blocks contains
  exact (nodup_preorder_iff blocks single listed).mpr
    ⟨fun _ _ _ found => regions.nodup found, fun _ _ _ found => ops.nodup found⟩

/--
A walk calls its visitor, which keeps a state of its own, on the operations below its start in
their order, without those inside a skipped one, until the visitor stops it. It then has the
visitor's answer, and otherwise none. Direct edits apart, no operation is visited twice.
-/
theorem walk_of_acyclic {ctx : Context} {root : OpId} (acyclic : ctx.AcyclicBelow (.op root))
    {σ β : Type} (visit : Visitor σ β) (start : σ) :
    ∃ arrivals final,
      ctx.Course visit (ctx.unfolding (.op root)) start arrivals final
        (ctx.walk visit (.op root) start) ∧
      calls arrivals <+:
        (unskipped arrivals (ctx.unfolding (.op root))).filterMap (·.entity.op?) ∧
      (ctx.KnownBelow (.op root) →
        ctx.preorder (.op root) = .ok ((ctx.unfolding (.op root)).map Occurrence.entity) ∧
        ((∀ op state, ∃ advised, visit op state = .ok advised) →
          ∃ answer, ctx.walk visit (.op root) start = .ok (answer, final))) ∧
      ∀ requests, (∀ request ∈ requests, request.isEdit = false) → build requests = .ok ctx →
        (calls arrivals).Nodup := by
  obtain ⟨arrivals, final, course⟩ :=
    exists_course visit (shallow_depthBound acyclic) [] start
  refine ⟨arrivals, final, course, ?_, fun known => ?_, fun requests plain built => ?_⟩
  · have inOrder := course.inOrder.filterMap fun occurrence => occurrence.entity.op?
    rwa [List.filterMap_map] at inOrder
  · have listed := preorder_eq_unfolding known acyclic
    refine ⟨listed, fun total => course.exists_ok (fun occurrence member => ?_) ?_⟩
    · have inListing := List.mem_map_of_mem (f := Occurrence.entity) member
      exact known _ ((mem_preorderWithin_iff listed).mp inListing)
    · intro occurrence _ state
      cases occurrence.entity with
      | op op => exact total op state
      | region region => exact ⟨_, rfl⟩
      | block block => exact ⟨_, rfl⟩
  · refine List.Nodup.sublist course.calls_sublist
      (List.Nodup.filterMap (fun _ _ _ isOp isOpToo => Entity.eq_of_op? isOp isOpToo) ?_)
    cases members : ctx.members (.op root) with
    | error fault =>
      -- An unknown operation contains nothing, so that it is all there is.
      rw [depthBound_eq, unfoldWithin, listed_eq_nil members]
      simp
    | ok found =>
      obtain ⟨ops, regions⟩ := owned_of_build plain built
      have known := knownBelow_of_owned ops regions (BlocksOwned.of_build built) ⟨found, members⟩
      exact nodup_preorder_of_build plain built (preorder_eq_unfolding known acyclic)

/-- Requests that make a loop around an operation, with two more behind it, and a body of these. -/
def loopInFront : List Request :=
  [.addBlock {}, .addOp { name := .bare "inner" }, .appendOp ⟨0⟩ ⟨0⟩,
    .addRegion { blocks := [⟨0⟩] }, .addOp { name := .bare "loop", regions := [⟨0⟩] },
    .addOp { name := .bare "middle" }, .addOp { name := .bare "last" }, .addBlock {},
    .appendOp ⟨1⟩ ⟨1⟩, .appendOp ⟨1⟩ ⟨2⟩, .appendOp ⟨1⟩ ⟨3⟩, .addRegion { blocks := [⟨1⟩] },
    .addOp { name := .bare "body", regions := [⟨1⟩] }]

/-- A visitor that remembers its visits, skips the loop, and stops at the operation behind it. -/
def lookout : Visitor (List OpId) OpId := fun op => do
  modify (· ++ [op])
  return if op = ⟨1⟩ then .skip else if op = ⟨2⟩ then .stop op else .descend

/-- The lookout comes to the body, the loop and what is behind it, neither inside nor further. -/
theorem walk_of_acyclic_loopInFront :
    ∃ ctx, build loopInFront = .ok ctx ∧ ctx.AcyclicBelow (.op ⟨4⟩) ∧
      ctx.walk lookout (.op ⟨4⟩) [] = .ok (some ⟨2⟩, [⟨4⟩, ⟨1⟩, ⟨2⟩]) ∧
      ∃ (arrivals : List (Arrival OpId)) (final : List OpId),
        ctx.Course lookout (ctx.unfolding (.op ⟨4⟩)) [] arrivals final
          (.ok (some ⟨2⟩, [⟨4⟩, ⟨1⟩, ⟨2⟩])) ∧ (calls arrivals).Nodup := by
  -- The walk is run on the whole program.
  obtain ⟨ctx, built, listed, walked⟩ : ∃ ctx, build loopInFront = .ok ctx ∧
      (∃ listing, ctx.preorder (.op ⟨4⟩) = .ok listing) ∧
        ctx.walk lookout (.op ⟨4⟩) [] = .ok (some ⟨2⟩, [⟨4⟩, ⟨1⟩, ⟨2⟩]) :=
    ⟨_, rfl, ⟨_, rfl⟩, rfl⟩
  have acyclic := (preorder_ok_iff.mp listed).2
  -- The course of the walk is the one that the theorem gives, and what it calls on comes once.
  obtain ⟨arrivals, final, course, -, -, once⟩ := walk_of_acyclic acyclic lookout []
  rw [walked] at course
  exact ⟨ctx, built, acyclic, walked, arrivals, final, course, once loopInFront (by decide) built⟩

end Context

end NestedIR
