import Mathlib.Data.List.Pairwise
import NestedIR.Proofs.Pass.Targets
import NestedIR.Proofs.Traversal
import NestedIR.Proofs.Walk

/-! A search for a kind finds the outermost operations of that kind, each of them once. -/

namespace NestedIR

open Relation

/-- The operations among some arrivals that are skipped. -/
def skipped {β : Type} (arrivals : List (Arrival β)) : List OpId :=
  calls (arrivals.filter fun arrival => arrival.advice.isSkip)

/-- An operation is skipped at an arrival with that advice. -/
theorem mem_skipped_iff {β : Type} {arrivals : List (Arrival β)} {op : OpId} :
    op ∈ skipped arrivals ↔
      ∃ arrival ∈ arrivals, arrival.advice.isSkip ∧ arrival.entity = .op op := by
  simp [skipped, calls, List.mem_filterMap, and_assoc, ← Option.mem_toList, Context.mem_op?_iff]

namespace Context

variable {ctx : Context} {kind : OpKind}

/-- The collector keeps the operations of its kind and skips exactly these. -/
theorem advise_collector {entity : Entity} {found after : List OpId} {advice : Advice Empty}
    (advised : (ctx.collector kind).advise entity found = .ok (advice, after)) :
    (∃ op data, entity = .op op ∧ ctx.op op = .ok data ∧ data.isKind kind ∧ advice = .skip ∧
      after = found ++ [op]) ∨
    (advice = .descend ∧ after = found ∧
      ∀ op data, entity = .op op → ctx.op op = .ok data → ¬ data.isKind kind) := by
  -- The collector looks only at operations, and passes by everything else.
  cases entity with
  | region region =>
    cases advised
    exact .inr ⟨rfl, rfl, by simp⟩
  | block block =>
    cases advised
    exact .inr ⟨rfl, rfl, by simp⟩
  | op op =>
    obtain ⟨⟨data, state⟩, looked, chosen⟩ := bind_eq_ok.mp advised
    obtain ⟨again, foundOp, made⟩ := bind_eq_ok.mp looked
    cases made
    -- The kind of the operation decides between the two outcomes.
    by_cases isKind : data.isKind kind
    · simp only [isKind, if_true] at chosen
      cases chosen
      exact .inl ⟨op, data, rfl, foundOp, isKind, rfl, rfl⟩
    · simp only [isKind] at chosen
      cases chosen
      refine .inr ⟨rfl, rfl, fun other known same foundToo => ?_⟩
      cases same
      cases foundOp.symm.trans foundToo
      exact isKind

/-- The collector has advice on everything that is known. -/
theorem exists_advise_collector {entity : Entity} {members : List Entity}
    (known : ctx.members entity = .ok members) (found : List OpId) :
    ∃ advised, (ctx.collector kind).advise entity found = .ok advised := by
  -- Only the search for an operation can fail, and an entity with members is known.
  cases entity with
  | region region => exact ⟨_, rfl⟩
  | block block => exact ⟨_, rfl⟩
  | op op =>
    obtain ⟨data, foundOp, -⟩ := bind_eq_ok.mp known
    show ∃ advised, ((ctx.op op >>= fun data => pure (data, found)) >>= _) = .ok advised
    rw [foundOp]
    show ∃ advised, (if data.isKind kind then _ else _ : StateT (List OpId) (Except Fault)
      (Advice Empty)) found = .ok advised
    split <;> exact ⟨_, rfl⟩

/-- What the collector keeps are the operations that it skips, which are those of its kind. -/
theorem kept_of_replays {found final : List OpId} {arrivals : List (Arrival Empty)}
    (replays : Replays (ctx.collector kind) found arrivals final) :
    final = found ++ skipped arrivals ∧ ∀ arrival ∈ arrivals,
      (arrival.advice.isSkip ↔
        ∃ op data, arrival.entity = .op op ∧ ctx.op op = .ok data ∧ data.isKind kind) := by
  -- On each arrival the collector keeps and skips an operation, or does neither.
  induction replays with
  | nil state => simp [skipped, calls]
  | @cons state mid final arrival rest advised _ ih =>
    obtain ⟨kept, each⟩ := ih
    rcases advise_collector advised with
      ⟨op, data, same, foundOp, isKind, skips, after⟩ | ⟨descends, after, other⟩
    · refine ⟨?_, List.forall_mem_cons.mpr ⟨?_, each⟩⟩
      · rw [kept, after]
        simp [skipped, calls, skips, same, Advice.isSkip, Entity.op?]
      · exact iff_of_true (by rw [skips]; rfl) ⟨op, data, same, foundOp, isKind⟩
    · refine ⟨?_, List.forall_mem_cons.mpr ⟨?_, each⟩⟩
      · rw [kept, after]
        simp [skipped, descends, Advice.isSkip]
      · refine iff_of_false (by simp [descends, Advice.isSkip]) ?_
        rintro ⟨op, data, same, foundOp, isKind⟩
        exact other op data same foundOp isKind

/--
Where the regions of a known root are searched for a kind, what is found are the operations that the
search skips on its course, and the course comes to everything that is not inside one of these.
-/
theorem exists_search (kind : OpKind) {root : OpId} (known : ctx.KnownBelow (.op root))
    (acyclic : ctx.AcyclicBelow (.op root)) :
    ∃ (arrivals : List (Arrival Empty)) (rest : List Occurrence),
      ctx.unfolding (.op root) = ⟨[], .op root⟩ :: rest ∧
      ctx.outermost kind root = .ok (skipped arrivals) ∧
      arrivals.map Arrival.toOccurrence = unskipped arrivals rest ∧
      ∀ arrival ∈ arrivals, (arrival.advice.isSkip ↔
        ∃ op data, arrival.entity = .op op ∧ ctx.op op = .ok data ∧ data.isKind kind) := by
  -- The root is known, and no search from one of its regions comes back to itself.
  obtain ⟨regions, members⟩ := known _ .refl
  have shallow (region : Entity) (isListed : region ∈ regions) :
      Shallow ctx.Contains ctx.depthBound region := by
    have contains : ctx.Contains (.op root) region := ⟨regions, members, isListed⟩
    exact shallow_depthBound fun inner down => acyclic inner (down.head contains)
  -- The search for each region has a course, and these courses follow on one another.
  obtain ⟨arrivals, final, course⟩ := exists_course_of_search [] (.op root)
    (fun region isListed way found =>
      exists_course (ctx.collector kind) (shallow region isListed) way found) 0 []
  -- What the courses come to is unfolded from the root, and so everything on them is known.
  have unfolds : ctx.unfolding (.op root) =
      ⟨[], .op root⟩ :: ctx.unfoldMembers ctx.depthBound [] (.op root) regions.zipIdx :=
    listed_eq members ▸ unfolding_eq_cons (fits_depthBound known acyclic) (Nat.le_refl _)
  have reached (occurrence : Occurrence)
      (member : occurrence ∈ ctx.unfoldMembers ctx.depthBound [] (.op root) regions.zipIdx) :
      ∃ listed, ctx.members occurrence.entity = .ok listed :=
    known _ (reaches_of_mem_unfoldWithin (unfolds ▸ List.mem_cons_of_mem _ member))
  obtain ⟨answer, ended⟩ := course.exists_ok reached fun occurrence member found => by
    obtain ⟨listed, found'⟩ := reached occurrence member
    exact exists_advise_collector found' found
  -- The collector is never at a loss and never stops, so that the search comes to its end.
  obtain ⟨kept, each⟩ := kept_of_replays course.replays
  rw [List.nil_append] at kept
  cases answer with
  | some impossible => cases impossible
  | none =>
    refine ⟨arrivals, _, unfolds, ?_, ?_, each⟩
    · rw [outermost, members]
      show ((regions.findSomeM? (ctx.walk (ctx.collector kind))) [] >>= _) = _
      have searched : (regions.findSomeM? (ctx.walk (ctx.collector kind))) [] = .ok (none, final) :=
        ended
      rw [searched, ← kept]
      rfl
    · rw [ended] at course
      cases course.ends with
      | finished _ everywhere => exact everywhere

/-- What has been found is found in the order of the listing. -/
theorem sublist_of_outermost {root : OpId} {found : List OpId} {listing : List Entity}
    (outermost : ctx.outermost kind root = .ok found)
    (listed : ctx.preorder (.op root) = .ok listing) :
    found.Sublist (listing.filterMap Entity.op?) := by
  -- The search has a course, which comes to what is listed in the order of the listing.
  obtain ⟨known, acyclic⟩ := preorder_ok_iff.mp ⟨listing, listed⟩
  obtain ⟨arrivals, rest, unfolds, again, everywhere, -⟩ := exists_search kind known acyclic
  cases outermost.symm.trans again
  cases listed.symm.trans (preorder_eq_unfolding known acyclic)
  -- What is found is skipped on the course, so that it is in the same order.
  have few : (arrivals.filter fun arrival => arrival.advice.isSkip).Sublist arrivals :=
    List.filter_sublist
  have inOrder : (arrivals.map Arrival.toOccurrence).Sublist (ctx.unfolding (.op root)) := by
    rw [everywhere, unfolds]
    exact List.filter_sublist.trans (List.sublist_cons_self ..)
  have shown := (((few.map _).trans inOrder).map Occurrence.entity).filterMap Entity.op?
  rwa [List.map_map, List.filterMap_map] at shown

/-- A live target has been found, or is inside one that has been found. -/
theorem mem_or_inside_of_live {root op : OpId} {found : List OpId}
    (outermost : ctx.outermost kind root = .ok found) (known : ctx.KnownBelow (.op root))
    (acyclic : ctx.AcyclicBelow (.op root)) (live : ctx.Live kind root op) :
    op ∈ found ∨ ∃ target ∈ found, TransGen ctx.Contains (.op target) (.op op) := by
  obtain ⟨arrivals, rest, unfolds, again, everywhere, skips⟩ :=
    exists_search kind known acyclic
  cases outermost.symm.trans again
  obtain ⟨below, data, foundOp, isKind⟩ := live
  -- The search has something to do with the operation, as the unfolding shows it below the root.
  obtain ⟨occurrence, member, same⟩ : ∃ occurrence ∈ rest, occurrence.entity = .op op := by
    have listed := preorder_eq_unfolding known acyclic
    have inListing := (mem_preorderWithin_iff listed).mpr below.to_reflTransGen
    obtain ⟨occurrence, member, same⟩ := List.mem_map.mp inListing
    rw [unfolds, List.mem_cons] at member
    refine ⟨occurrence, member.resolve_left ?_, same⟩
    rintro rfl
    cases same
    exact acyclic _ .refl below
  by_cases left : occurrence ∈ unskipped arrivals rest
  -- The search has come to the operation, and then it has skipped it.
  · rw [← everywhere] at left
    obtain ⟨arrival, arrived, rfl⟩ := List.mem_map.mp left
    have skip := (skips arrival arrived).mpr ⟨op, data, same, foundOp, isKind⟩
    exact .inl (mem_skipped_iff.mpr ⟨arrival, arrived, skip, same⟩)
  -- The search has left the operation out, which only something around it can be the reason for.
  · obtain ⟨arrival, arrived, skip, inside⟩ : ∃ arrival ∈ arrivals, arrival.advice.isSkip ∧
        occurrence.Inside arrival.toOccurrence := by
      simpa [unskipped, member] using left
    obtain ⟨target, -, isTarget, -⟩ := (skips arrival arrived).mp skip
    have ahead : arrival.toOccurrence ∈ rest := by
      have shown := List.mem_map_of_mem (f := Arrival.toOccurrence) arrived
      rw [everywhere] at shown
      exact List.mem_of_mem_filter shown
    have shows {one : Occurrence} (member : one ∈ rest) : one ∈ ctx.unfolding (.op root) :=
      unfolds ▸ List.mem_cons_of_mem _ member
    have path := transGen_of_inside (shows member) (shows ahead) inside
    rw [isTarget, same] at path
    exact .inr ⟨target, mem_skipped_iff.mpr ⟨arrival, arrived, skip, isTarget⟩, path⟩

/--
What the search for a kind finds are, in the order of the listing and without repetition, the
operations of the kind strictly below the root that have none of the kind above them there. None
of them is inside another, and every other operation of the kind is inside exactly one of them.
-/
theorem mem_outermost_iff_of_build {requests : List Request} {ctx : Context} {root : OpId}
    {data : Operation} (plain : ∀ request ∈ requests, request.isEdit = false)
    (built : build requests = .ok ctx) (knownRoot : ctx.op root = .ok data)
    (acyclic : ctx.AcyclicBelow (.op root)) (kind : OpKind) :
    ∃ found listing, ctx.outermost kind root = .ok found ∧
      ctx.preorder (.op root) = .ok listing ∧
      found.Sublist (listing.filterMap Entity.op?) ∧ found.Nodup ∧
      (∀ op, op ∈ found ↔ ctx.Live kind root op ∧
        ∀ mid, ctx.Live kind root mid → ¬ TransGen ctx.Contains (.op mid) (.op op)) ∧
      (∀ op ∈ found, ∀ other ∈ found, ¬ TransGen ctx.Contains (.op op) (.op other)) ∧
      ∀ op, ctx.Live kind root op → op ∉ found →
        ∃! target, target ∈ found ∧ TransGen ctx.Contains (.op target) (.op op) := by
  -- The search comes to its end, as nothing that it asks for is missing.
  have fits := fits_of_build plain built knownRoot acyclic
  have known := fits.below.1
  obtain ⟨found, outermost⟩ : ∃ found, ctx.outermost kind root = .ok found := exists_outermost fits
  have live := live_of_outermost outermost
  have complete (op : OpId) (isLive : ctx.Live kind root op) :=
    mem_or_inside_of_live outermost known acyclic isLive
  have apart := (targetsBelow_of_outermost (Sound.of_build plain built) fits outermost).2
  -- What two found operations have in common makes them the same one.
  have same {first second : OpId} (inFirst : first ∈ found) (inSecond : second ∈ found)
      {inner : Entity} (down : ReflTransGen ctx.Contains (.op first) inner)
      (path : ReflTransGen ctx.Contains (.op second) inner) : first = second := by
    have symm : Std.Symm fun first second : OpId => ctx.Apart (.op first) (.op second) :=
      ⟨fun _ _ apart inner down path => apart inner path down⟩
    by_contra differ
    exact apart.forall inFirst inSecond differ inner down path
  -- In particular, none of what was found is inside another one.
  have antichain : ∀ op ∈ found, ∀ other ∈ found, ¬ TransGen ctx.Contains (.op op) (.op other) := by
    intro op inFound other inFoundToo inside
    cases same inFound inFoundToo inside.to_reflTransGen .refl
    exact acyclic _ (live op inFound).1.to_reflTransGen inside
  have listed := preorder_eq_unfolding known acyclic
  have inOrder := sublist_of_outermost outermost listed
  have distinct := nodup_preorder_of_build plain built listed
  refine ⟨found, _, outermost, listed, inOrder, ?_, fun op => ⟨fun inFound => ?_, fun outer => ?_⟩,
    antichain, fun op isLive absent => ?_⟩
  · exact (distinct.filterMap fun _ _ _ isOp isOpToo => Entity.eq_of_op? isOp isOpToo).sublist
      inOrder
  · refine ⟨live op inFound, fun mid liveMid inside => ?_⟩
    -- What is above the operation would be found, or be inside something that is found.
    rcases complete mid liveMid with inFoundMid | ⟨target, inFoundTarget, path⟩
    · exact antichain mid inFoundMid op inFound inside
    · exact antichain target inFoundTarget op inFound (path.trans inside)
  -- An operation with none of its kind above it cannot be inside one that was found.
  · obtain ⟨isLive, none⟩ := outer
    rcases complete op isLive with inFound | ⟨target, inFound, path⟩
    · exact inFound
    · exact absurd path (none target (live target inFound))
  · obtain ⟨target, inFound, path⟩ := (complete op isLive).resolve_left absent
    refine ⟨target, ⟨inFound, path⟩, fun other found => ?_⟩
    exact same found.1 inFound found.2.to_reflTransGen path.to_reflTransGen

/-- Requests that put a module with one inside it, and another one in a wrapper, into a module. -/
def nestedModules : List Request :=
  [.addOp { name := OpKind.module.opName }, .addBlock {}, .appendOp ⟨0⟩ ⟨0⟩,
    .addRegion { blocks := [⟨0⟩] }, .addOp { name := OpKind.module.opName, regions := [⟨0⟩] },
    .addOp { name := OpKind.module.opName }, .addBlock {}, .appendOp ⟨1⟩ ⟨2⟩,
    .addRegion { blocks := [⟨1⟩] }, .addOp { name := .bare "wrapper", regions := [⟨1⟩] },
    .addBlock {}, .appendOp ⟨2⟩ ⟨1⟩, .appendOp ⟨2⟩ ⟨3⟩, .addRegion { blocks := [⟨2⟩] },
    .addOp { name := OpKind.module.opName, regions := [⟨2⟩] }]

/-- The module in front and the one in the wrapper are found, and the innermost one is not. -/
theorem mem_outermost_iff_of_build_nestedModules :
    (∀ request ∈ nestedModules, request.isEdit = false) ∧
      ∃ ctx, build nestedModules = .ok ctx ∧ ctx.AcyclicBelow (.op ⟨4⟩) ∧
        ctx.outermost .module ⟨4⟩ = .ok [⟨1⟩, ⟨2⟩] ∧
        ∃ found, ctx.outermost .module ⟨4⟩ = .ok found ∧ found.Nodup ∧
          ∀ op, ctx.Live .module ⟨4⟩ op → op ∉ found →
            ∃! target, target ∈ found ∧ TransGen ctx.Contains (.op target) (.op op) := by
  -- The search is run from the outermost operation of the program.
  obtain ⟨ctx, built, ⟨data, known⟩, listed, found⟩ : ∃ ctx, build nestedModules = .ok ctx ∧
      (∃ data, ctx.op ⟨4⟩ = .ok data) ∧ (∃ listing, ctx.preorder (.op ⟨4⟩) = .ok listing) ∧
        ctx.outermost .module ⟨4⟩ = .ok [⟨1⟩, ⟨2⟩] :=
    ⟨_, rfl, ⟨_, rfl⟩, ⟨_, rfl⟩, rfl⟩
  have plain : ∀ request ∈ nestedModules, request.isEdit = false := by decide
  have acyclic := (preorder_ok_iff.mp listed).2
  -- Each module that was not found is inside of exactly one that was.
  obtain ⟨outer, -, again, -, -, distinct, -, -, inside⟩ :=
    mem_outermost_iff_of_build plain built known acyclic .module
  exact ⟨plain, ctx, built, acyclic, found, outer, again, distinct, inside⟩

end Context

end NestedIR
