import NestedIR.Proofs.Structure.Dump

/-! Traversals of an entity end when everything below it fits into the bound on depth. -/

namespace NestedIR

open Relation

namespace Context

variable {ctx : Context}

/-- A search fails only where looking at one of its items does. -/
theorem findSomeM?_eq_error {α β σ : Type} {look : α → StateT σ (Except Fault) (Option β)}
    {items : List α} {state : σ} {fault : Fault}
    (failed : (items.findSomeM? look) state = .error fault) :
    ∃ item ∈ items, ∃ state, look item state = .error fault := by
  -- The items in front of the failure gave no answer, but may have changed the state.
  induction items generalizing state with
  | nil => cases failed
  | cons first rest ih =>
    rcases bind_eq_error.mp failed with here | ⟨⟨answer, after⟩, -, later⟩
    · exact ⟨first, by simp, state, here⟩
    · cases answer with
      | some answer => cases later
      | none =>
        obtain ⟨item, listed, state, here⟩ := ih later
        exact ⟨item, by simp [listed], state, here⟩

/-- A walk of what fits fails only where its visitor does, on an operation that it can reach. -/
theorem walkWithin_eq_error {σ β : Type} {visit : Visitor σ β} {depth : Nat} {entity : Entity}
    (fits : ctx.Fits depth entity) {state : σ} {fault : Fault}
    (failed : ctx.walkWithin visit depth entity state = .error fault) :
    ∃ op, ReflTransGen ctx.Contains entity (.op op) ∧ ∃ state, visit op state = .error fault := by
  -- What is walked at one depth less is one step further down.
  induction depth generalizing entity state with
  | zero => cases fits
  | succ depth ih =>
    obtain ⟨listed, members, below⟩ := fits
    rcases bind_eq_error.mp failed with here | ⟨⟨advice, after⟩, -, later⟩
    · cases entity with
      | op op => exact ⟨op, .refl, state, here⟩
      | region region => cases here
      | block block => cases here
    · cases advice with
      | stop answer => cases later
      | skip => cases later
      | descend =>
        have search : (listed.findSomeM? (ctx.walkWithin visit depth)) after = .error fault := by
          change ((ctx.members entity >>= fun listed => pure (listed, after)) >>= fun found =>
            (found.1.findSomeM? (ctx.walkWithin visit depth)) found.2) = .error fault at later
          rw [members] at later
          exact later
        obtain ⟨member, isListed, state, here⟩ := findSomeM?_eq_error search
        obtain ⟨op, down, visited⟩ := ih (below member isListed) here
        exact ⟨op, down.head ⟨listed, members, isListed⟩, visited⟩

/-- A walk of an entity without a cycle below it fails only where its visitor does. -/
theorem walk_eq_error {σ β : Type} {visit : Visitor σ β} {entity : Entity}
    (fits : ctx.Fits ctx.depthBound entity) {state : σ} {fault : Fault}
    (failed : ctx.walk visit entity state = .error fault) :
    ∃ op, ReflTransGen ctx.Contains entity (.op op) ∧ ∃ state, visit op state = .error fault :=
  walkWithin_eq_error fits failed

/-- The outermost operations of a kind are found wherever everything is known and fits. -/
theorem exists_outermost {kind : OpKind} {root : OpId}
    (fits : ctx.Fits ctx.depthBound (.op root)) :
    ∃ found, ctx.outermost kind root = .ok found := by
  obtain ⟨known, acyclic⟩ := fits.below
  obtain ⟨regions, members⟩ := known _ .refl
  have searched : ∀ fault,
      (regions.findSomeM? (ctx.walk (ctx.collector kind))) [] ≠ .error fault := by
    -- Only an unknown operation could stop the collector, and none can be reached.
    intro fault failed
    obtain ⟨region, listed, state, here⟩ := findSomeM?_eq_error failed
    have contains : ctx.Contains (.op root) region := ⟨regions, members, listed⟩
    have fitsRegion : ctx.Fits ctx.depthBound region :=
      fits_depthBound (fun inner down => known inner (down.head contains))
        fun inner down => acyclic inner (down.head contains)
    obtain ⟨op, down, state, stopped⟩ := walk_eq_error fitsRegion here
    obtain ⟨listed, membersOp⟩ := known _ (down.head contains)
    obtain ⟨data, found, -⟩ := bind_eq_ok.mp membersOp
    change ((ctx.op op >>= fun data => pure (data, state)) >>= _) = .error fault at stopped
    rw [found] at stopped
    change (if data.isKind kind then _ else _ : StateT (List OpId) (Except Fault) (Advice Empty))
      state = .error fault at stopped
    split at stopped <;> cases stopped
  cases result : (regions.findSomeM? (ctx.walk (ctx.collector kind))) [] with
  | error fault => exact absurd result (searched fault)
  | ok found =>
    refine ⟨found.2, ?_⟩
    rw [outermost, members]
    change ((regions.findSomeM? (ctx.walk (ctx.collector kind))) [] >>= _) = _
    rw [result]
    rfl

/-- A search keeps what looking at each of its items keeps. -/
theorem findSomeM?_keeps {α β σ : Type} (keeps : σ → Prop)
    {look : α → StateT σ (Except Fault) (Option β)} {items : List α}
    (each : ∀ item ∈ items, ∀ state answer, keeps state → look item state = .ok answer →
      keeps answer.2)
    {state : σ} {answer : Option β × σ} (before : keeps state)
    (searched : (items.findSomeM? look) state = .ok answer) : keeps answer.2 := by
  induction items generalizing state with
  | nil =>
    cases searched
    exact before
  | cons first rest ih =>
    obtain ⟨⟨found, mid⟩, looked, later⟩ := bind_eq_ok.mp searched
    have kept : keeps mid := each first (by simp) state _ before looked
    -- The first answer ends the search, and without one the rest goes on.
    cases found with
    | some found =>
      cases later
      exact kept
    | none => exact ih (fun item listed => each item (by simp [listed])) kept later

/-- A walk keeps what visits of the operations that it can reach keep. -/
theorem walkWithin_keeps {σ β : Type} (keeps : σ → Prop) {visit : Visitor σ β} {depth : Nat}
    {entity : Entity}
    (each : ∀ op, ReflTransGen ctx.Contains entity (.op op) → ∀ state answer, keeps state →
      visit op state = .ok answer → keeps answer.2)
    {state : σ} {answer : Option β × σ} (before : keeps state)
    (walked : ctx.walkWithin visit depth entity state = .ok answer) : keeps answer.2 := by
  -- What is walked at one depth less is one step further down.
  induction depth generalizing entity state answer with
  | zero => cases walked
  | succ depth ih =>
    obtain ⟨⟨advice, mid⟩, advised, rest⟩ := bind_eq_ok.mp walked
    have kept : keeps mid := by
      cases entity with
      | op op => exact each op .refl state _ before advised
      | region region =>
        cases advised
        exact before
      | block block =>
        cases advised
        exact before
    cases advice with
    | stop found =>
      cases rest
      exact kept
    | skip =>
      cases rest
      exact kept
    | descend =>
      obtain ⟨⟨members, same⟩, looked, searched⟩ := bind_eq_ok.mp rest
      obtain ⟨again, known, made⟩ := bind_eq_ok.mp looked
      cases made
      refine findSomeM?_keeps keeps (fun member listed before after => ?_) kept searched
      exact ih fun op down => each op (down.head ⟨members, known, listed⟩)

/-- An operation is a live target below another one while it is strictly below it and of a kind. -/
def Live (ctx : Context) (kind : OpKind) (root target : OpId) : Prop :=
  TransGen ctx.Contains (.op root) (.op target) ∧
    ∃ data, ctx.op target = .ok data ∧ data.isKind kind

/-- The outermost operations of a kind are live targets. -/
theorem live_of_outermost {kind : OpKind} {root : OpId} {targets : List OpId}
    (outermost : ctx.outermost kind root = .ok targets) :
    ∀ target ∈ targets, ctx.Live kind root target := by
  obtain ⟨regions, known, rest⟩ := bind_eq_ok.mp outermost
  obtain ⟨⟨stop, found⟩, searched, made⟩ := bind_eq_ok.mp rest
  cases made
  -- Whatever has been collected stays, and the next operation is collected only if it is live.
  refine findSomeM?_keeps (fun found => ∀ target ∈ found, ctx.Live kind root target)
    (fun region inRegions before after => walkWithin_keeps
      (fun found => ∀ target ∈ found, ctx.Live kind root target) ?_) (by simp) searched
  intro op down before after collected visited
  obtain ⟨⟨data, state⟩, looked, chosen⟩ := bind_eq_ok.mp visited
  obtain ⟨again, foundOp, made⟩ := bind_eq_ok.mp looked
  cases made
  by_cases isKind : data.isKind kind
  · simp only [isKind, if_true] at chosen
    cases chosen
    intro target listed
    rcases List.mem_append.mp listed with old | new
    · exact collected target old
    · cases List.mem_singleton.mp new
      exact ⟨TransGen.head' ⟨regions, known, inRegions⟩ down, data, foundOp, isKind⟩
  · simp only [isKind] at chosen
    cases chosen
    exact collected

/-- The dump of an operation that fits comes to an end. -/
theorem exists_firstLines {depth : Nat} {root : OpId} (fits : ctx.Fits depth (.op root))
    (indent : UInt64) :
    ∃ lines, ∀ limit, lines.length ≤ limit → ctx.firstLines limit root indent = .ok lines := by
  -- The stack produces what the recursion gives, which takes no more depth than there is.
  obtain ⟨known, acyclic⟩ := fits.below
  obtain ⟨lines, made⟩ :=
    (recursiveDump_ok_iff acyclic .wraps indent).mpr ⟨known, hasRoom_wraps _ indent⟩
  refine ⟨lines, fun limit enough => ?_⟩
  rw [firstLines, (produces_recursiveDump acyclic .wraps indent).begins lines made,
    List.take_of_length_le enough]

end Context

end NestedIR
