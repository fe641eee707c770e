import NestedIR.Proofs.Context.Effect

/-! A value is defined by an operation exactly when it is among the results of that operation. -/

namespace NestedIR.Context

variable {ctx ctx' : Context} {request : Request}

/-- The results of operations are the values that they define. -/
def ResultsDefined (ctx : Context) : Prop :=
  ∀ value op index,
    (∃ data, ctx.value value = .ok data ∧ data.definition = .result op index) ↔
      ∃ data, ctx.op op = .ok data ∧ data.results[index]? = some value

namespace ResultsDefined

/-- Nothing is lost while values stay and no operation gets other results. -/
theorem of_map (defined : ResultsDefined ctx) {change : OpId → Operation → Operation}
    (values : ctx'.values = ctx.values) (after : ∀ op, ctx'.op op = (ctx.op op).map (change op))
    (kept : ∀ op data, (change op data).results = data.results) : ResultsDefined ctx' := by
  -- Both sides of the equivalence are carried over to the old program.
  intro value op index
  rw [value_congr values, defined]
  constructor
  · intro listed
    obtain ⟨data, found, here⟩ := listed
    exact ⟨change op data, by rw [after, found]; rfl, by rw [kept, here]⟩
  · intro listed
    obtain ⟨data, found, here⟩ := listed
    obtain ⟨old, foundOld, same⟩ := known_before_map Operation.results after kept op data found
    exact ⟨old, foundOld, same ▸ here⟩

/-- A new operation defines its results. -/
theorem addOp (defined : ResultsDefined ctx) {spec : OpSpec} {op : OpId}
    (added : ctx.addOp spec = .ok (op, ctx')) : ResultsDefined ctx' := by
  obtain ⟨rfl, -, -, -, -, tables⟩ := addOp_eq_ok added
  have ops : ctx'.ops = ctx.ops.push (ctx.newOp spec) := by rw [tables]
  have values : ctx'.values =
      (ctx.defineValues (.result ⟨ctx.ops.size⟩) spec.resultTypes).values := by rw [tables]
  -- The results are numbered on from the last value, one for each type.
  have fresh {value : ValueId} {index : Nat} :
      (ctx.newOp spec).results[index]? = some value ↔
        ∃ type, value = ⟨ctx.values.size + index⟩ ∧ spec.resultTypes[index]? = some type := by
    simp only [newOp, freshValues, List.getElem?_map, Option.map_eq_some_iff,
      List.getElem?_eq_some_iff, List.getElem_range', List.length_range']
    constructor
    · intro listed
      obtain ⟨number, ⟨inside, rfl⟩, rfl⟩ := listed
      exact ⟨spec.resultTypes[index], by simp, inside, rfl⟩
    · intro listed
      obtain ⟨type, rfl, inside, -⟩ := listed
      exact ⟨ctx.values.size + index, ⟨inside, by omega⟩, rfl⟩
  intro value op index
  simp only [value_eq_ok_of_define values, op_eq_ok_of_push ops]
  constructor
  · intro definition
    -- A value that is known was known before or is one of the new results.
    obtain ⟨data, found | ⟨place, type, rfl, here, rfl⟩, defines⟩ := definition
    · obtain ⟨old, foundOld, listed⟩ := (defined value op index).mp ⟨data, found, defines⟩
      exact ⟨old, .inl foundOld, listed⟩
    · cases defines
      exact ⟨ctx.newOp spec, .inr ⟨rfl, rfl⟩, fresh.mpr ⟨type, rfl, here⟩⟩
  · intro listing
    -- A listed result belongs to a known operation or to the new one.
    obtain ⟨data, found | ⟨rfl, rfl⟩, listed⟩ := listing
    · obtain ⟨old, foundOld, defines⟩ := (defined value op index).mpr ⟨data, found, listed⟩
      exact ⟨old, .inl foundOld, defines⟩
    · obtain ⟨type, rfl, here⟩ := fresh.mp listed
      exact ⟨_, .inr ⟨index, type, rfl, here, rfl⟩, rfl⟩

/-- A new block defines its arguments, which are no results. -/
theorem addBlock (defined : ResultsDefined ctx) {spec : BlockSpec} {block : BlockId}
    (added : ctx.addBlock spec = .ok (block, ctx')) : ResultsDefined ctx' := by
  -- Neither a new argument nor a claimed operation touches any result.
  obtain ⟨rfl, -, -, after, tables⟩ := addBlock_eq_ok added
  have values : ctx'.values =
      (ctx.defineValues (.argument ⟨ctx.blocks.size⟩) spec.argumentTypes).values := by rw [tables]
  intro value op index
  -- The values that define results are the old ones.
  have onlyOld : (∃ data, ctx'.value value = .ok data ∧ data.definition = .result op index) ↔
      ∃ data, ctx.value value = .ok data ∧ data.definition = .result op index := by
    simp only [value_eq_ok_of_define values]
    constructor
    · intro definition
      obtain ⟨data, found | ⟨place, type, rfl, here, rfl⟩, defines⟩ := definition
      · exact ⟨data, found, defines⟩
      · cases defines
    · intro definition
      obtain ⟨data, found, defines⟩ := definition
      exact ⟨data, .inl found, defines⟩
  -- Claiming an operation leaves its results alone.
  have kept : ∀ op data, (if op ∈ spec.ops then
      { data with parentBlock := some ⟨ctx.blocks.size⟩ } else data : Operation).results =
        data.results := by
    intro op data
    split <;> rfl
  rw [onlyOld, defined]
  constructor
  · intro listing
    obtain ⟨data, found, listed⟩ := listing
    obtain ⟨new, foundNew, same⟩ := known_after_map Operation.results after kept op data found
    exact ⟨new, foundNew, same ▸ listed⟩
  · intro listing
    obtain ⟨data, found, listed⟩ := listing
    obtain ⟨old, foundOld, same⟩ := known_before_map Operation.results after kept op data found
    exact ⟨old, foundOld, same ▸ listed⟩

/-- Results stay defined through every request that keeps them. -/
theorem step (defined : ResultsDefined ctx) (keeps : request.keepsUses)
    (change : Change ctx request ctx') : ResultsDefined ctx' := by
  -- Only new operations and blocks define values, and only a replacement changes results.
  cases change with
  | madeOp spec op asked added => exact defined.addOp added
  | madeBlock spec block asked added => exact defined.addBlock added
  | madeRegion data region asked added =>
    obtain ⟨-, -, -, -, tables⟩ := addRegion_eq_ok added
    have ops : ctx'.ops = ctx.ops := by rw [tables]
    have values : ctx'.values = ctx.values := by rw [tables]
    exact defined.of_map values (fun op => by rw [op_congr ops, map_self]) fun _ _ => rfl
  | attached block op data target front back asked found free known split placed =>
    subst placed
    refine defined.of_map rfl (fun other => op_place block op other _) fun other data => ?_
    split <;> rfl
  | detached block op data target asked found known displaced =>
    subst displaced
    exact defined.of_map rfl (fun other => op_displace block op other) fun _ _ => rfl
  | rewritten change asked ops kept results values blocks regions =>
    exact defined.of_map values ops (results keeps)

/-- What requests build from nothing has its results defined. -/
theorem of_build {requests : List Request} (keep : ∀ request ∈ requests, request.keepsUses)
    (built : build requests = .ok ctx) : ResultsDefined ctx := by
  -- Nothing is defined at the start, and every request keeps what is.
  refine performAll_induction (motive := fun requests ctx =>
    (∀ request ∈ requests, request.keepsUses) → ResultsDefined ctx) ?_ ?_ built keep
  · intro _ value op index
    simp [Context.value, Context.op]
  · intro requests mid request ctx' defined done keep
    have earlier := defined fun request member => keep request (by simp [member])
    exact earlier.step (keep request (by simp)) (change_of_perform done)

end ResultsDefined

end NestedIR.Context
