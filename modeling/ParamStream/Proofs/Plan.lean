import ParamStream.Proofs.LastUse
import ParamStream.Streaming.Form

/-!
# What the analyses have established

`Func.Planned f plan tracked` gathers what is known of a function whose analyses have succeeded:
it follows the convention, the interface describes its output tuple, and the last uses are those
of the tracked variables.  The lowering is given the plan alone, so everything that is proved
about its result rests on these facts.
-/

namespace ParamStream

namespace Func

/-- What is known of a function and a plan made for it, when `tracked` are to be released. -/
structure Planned (f : Func) (plan : Plan) (tracked : List VarId) : Prop where
  follows : f.Follows plan.convention
  interface : f.interface plan.convention.param plan.convention.output = .ok plan.interface
  lastUses : plan.lastUses = f.lastUses plan.convention.output tracked
  param_untracked : plan.convention.param ∉ tracked
  /-- what is tracked is bound, and not as the output -/
  tracked_bound : ∀ v ∈ tracked, ∃ b ∈ f.bindings, b.var = v ∧ b.var ≠ plan.convention.output

theorem mem_tracked {f : Func} {c : Convention} {i : Interface} {intermediates : Bool}
    {v : VarId} :
    v ∈ f.tracked c i intermediates ↔
      v ∈ i.projections ∨ intermediates = true ∧ v ∈ f.storageVars c.output := by
  unfold tracked
  cases intermediates <;> simp

theorem mem_projections {f : Func} {param output v : VarId} :
    v ∈ f.projections param output ↔
      v ≠ output ∧ ∃ b ∈ f.bindings, b.var = v ∧ (b.value.inputIndex? param).isSome := by
  simp only [projections, List.mem_map, List.mem_filter, decide_eq_true_eq]
  constructor
  · rintro ⟨b, ⟨mem, ordinary, is_input⟩, rfl⟩
    exact ⟨ordinary, b, mem, rfl, is_input⟩
  · rintro ⟨ordinary, b, mem, rfl, is_input⟩
    exact ⟨b, ⟨mem, ordinary, is_input⟩, rfl⟩

theorem projections_interface {f : Func} {param output : VarId} {i : Interface}
    (answered : f.interface param output = .ok i) : i.projections = f.projections param output := by
  obtain ⟨bound, -, chosen⟩ := Except.bind_eq_ok_iff.mp answered
  split at chosen
  · obtain rfl := Except.pure_eq_ok_iff.mp chosen
    rfl
  · simp at chosen

/-- A tracked variable is bound, and not as the output: it is one of the projections or of the
variables with storage. -/
theorem bound_of_mem_tracked {f : Func} {c : Convention} {i : Interface} {intermediates : Bool}
    (answered : f.interface c.param c.output = .ok i) {v : VarId}
    (mem : v ∈ f.tracked c i intermediates) :
    ∃ b ∈ f.bindings, b.var = v ∧ b.var ≠ c.output := by
  rcases mem_tracked.mp mem with projection | ⟨-, storage⟩
  · rw [projections_interface answered] at projection
    obtain ⟨ordinary, b, b_mem, rfl, -⟩ := mem_projections.mp projection
    exact ⟨b, b_mem, rfl, ordinary⟩
  · simp only [storageVars, List.mem_filter, List.mem_map, decide_eq_true_eq] at storage
    obtain ⟨⟨b, b_mem, rfl⟩, ordinary, -⟩ := storage
    exact ⟨b, b_mem, rfl, ordinary⟩

/-- Bound variables are not the parameter. -/
theorem Follows.var_ne_param {f : Func} {c : Convention} (follows : f.Follows c) :
    ∀ b ∈ f.bindings, b.var ≠ c.param := by
  intro b mem same
  have fresh := follows.ordered.var_notMem b.var (List.mem_map_of_mem mem)
  exact fresh (by simp [same])

/-- The result is a variable, so it fetches nothing. -/
theorem Follows.inputReads_result {f : Func} {c : Convention} (follows : f.Follows c) :
    f.result.inputReads c.param = [] := by
  rw [follows.result]
  rfl

theorem Planned.exists_binding {f : Func} {plan : Plan} {tracked : List VarId}
    (planned : f.Planned plan tracked) {v : VarId} (mem : v ∈ tracked) :
    ∃ b ∈ f.bindings, b.var = v := by
  obtain ⟨b, b_mem, is_v, -⟩ := planned.tracked_bound v mem
  exact ⟨b, b_mem, is_v⟩

/-- A plan that the analyses have come up with is a plan for the function. -/
theorem Planned.of_plan {f : Func} {intermediates : Bool} {plan : Plan}
    (planned : f.plan intermediates = .ok plan) :
    f.Planned plan (f.tracked plan.convention plan.interface intermediates) := by
  simp only [Func.plan, Except.bind_eq_ok_iff, Except.pure_eq_ok_iff] at planned
  obtain ⟨convention, answered, interface, has_interface, rfl⟩ := planned
  have follows := Follows.of_convention answered
  refine
    { follows
      interface := has_interface
      lastUses := rfl
      param_untracked := fun mem => ?_
      tracked_bound := fun v mem => bound_of_mem_tracked has_interface mem }
  obtain ⟨b, b_mem, is_param, -⟩ := bound_of_mem_tracked has_interface mem
  exact follows.var_ne_param b b_mem is_param

/-- A function has a streaming form when it has a plan under which it can be lowered. -/
theorem stream_eq_ok_iff {f : Func} {table : SymbolTable} {intermediates : Bool} {g : Func} :
    (f.stream table intermediates).1 = .ok g ↔
      ∃ plan, f.plan intermediates = .ok plan ∧
        f.lower (StoreCalls.intern table).1 plan = .ok g := by
  unfold stream
  cases f.plan intermediates with
  | error e => simp
  | ok plan => simp

/-- The names of the services are in the table when there is a streaming form. -/
theorem stream_snd {f : Func} {table : SymbolTable} {intermediates : Bool} {g : Func}
    (streamed : (f.stream table intermediates).1 = .ok g) :
    (f.stream table intermediates).2 = (StoreCalls.intern table).2 := by
  obtain ⟨plan, planned, -⟩ := stream_eq_ok_iff.mp streamed
  simp only [stream, planned]

/-- The streaming form together with the table that names the services. -/
theorem stream_eq_iff {f : Func} {table names : SymbolTable} {intermediates : Bool} {g : Func} :
    f.stream table intermediates = (.ok g, names) ↔
      ∃ plan, f.plan intermediates = .ok plan ∧
        f.lower (StoreCalls.intern table).1 plan = .ok g ∧ names = (StoreCalls.intern table).2 := by
  constructor
  · intro streamed
    have answered : (f.stream table intermediates).1 = .ok g := by rw [streamed]
    obtain ⟨plan, has_plan, lowered⟩ := stream_eq_ok_iff.mp answered
    exact ⟨plan, has_plan, lowered, by rw [← stream_snd answered, streamed]⟩
  · rintro ⟨plan, has_plan, lowered, rfl⟩
    have answered := stream_eq_ok_iff.mpr ⟨plan, has_plan, lowered⟩
    exact Prod.ext answered (stream_snd answered)

end Func

end ParamStream
