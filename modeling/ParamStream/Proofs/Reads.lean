import ParamStream.Proofs.Layout

/-!
# What a streaming form reads

The code of a segment reads new names of what its binding reads, the inputs it has just fetched,
results of commits, and the variables that it commits and releases.  All of them are bound by then:
`Layout.reads_lt` says so through the numbering, since the code binds its variables in order.

The last section looks at the variables that are released.  They hold values of tracked variables
or inputs fetched for a single binding, and never the result of a commit.

## Main statements

* `Layout.mem_reads_value`, `Layout.mem_reads_output` — what the value of a segment reads;
* `Layout.reads_lt` — every variable is bound before it is read.
-/

namespace ParamStream

namespace Layout

variable {f : Func} {calls : StoreCalls} {plan : Plan} {tracked : List VarId}
  (l : Layout f calls plan) {done later : List Segment} {g h : Segment} {t : VarId}

/-! ### Values -/

/-- The value of an ordinary segment reads the new names of what its binding reads, and the inputs
fetched before it. -/
theorem mem_reads_value (planned : f.Planned plan tracked) (mem : g ∈ l.segments)
    (ordinary : g.source.var ≠ plan.convention.output) :
    t ∈ g.value.reads ↔
      (∃ v ∈ g.source.value.reads, v ≠ plan.convention.param ∧ l.rename v = t) ∨
        t ∈ g.fetched := by
  have stays := planned.follows.confined g.source (l.source_mem mem)
  have shape := l.isValue g mem ordinary
  rw [shape.value, Expr.streamed, Segment.fetched, mem_varsFrom, shape.fetches, Lowering.hoisted]
  cases is_input : g.source.value.inputIndex? plan.convention.param with
  | some i =>
    -- A direct input reads the parameter and nothing else.
    have none_fresh : ¬ Expr.InRange g.start 0 t := by simp only [Expr.InRange]; omega
    rw [Expr.eq_proj_of_inputIndex? is_input]
    simp [Expr.reads, none_fresh]
  | none => simpa using Expr.mem_reads_redirect l.rename g.start g.source.value stays t

/-- The value of the output's segment reads the results of the commits. -/
theorem mem_reads_output (mem : g ∈ l.segments)
    (is_output : g.source.var = plan.convention.output) :
    t ∈ g.value.reads ↔ ∃ slot < plan.interface.outputs.arity, l.commitVar slot = t := by
  rw [(l.isOutput g mem is_output).value, Expr.reads, Expr.readsAll_eq_flatMap]
  simp [Expr.reads, eq_comm]

/-- The result of every commit is bound before the output. -/
theorem exists_ack (planned : f.Planned plan tracked)
    (o : OutputTuple f plan.convention plan.interface) (split : l.segments = done ++ g :: later)
    (is_output : g.source.var = plan.convention.output) {slot : Nat}
    (inside : slot < o.fields.length) : ∃ h ∈ done, l.commitVar slot ∈ h.acks := by
  obtain ⟨v, at_slot⟩ : ∃ v, o.fields[slot]? = some v := ⟨_, List.getElem?_eq_getElem inside⟩
  have v_mem := List.mem_of_getElem? at_slot
  have source_mem : g.source ∈ f.bindings := l.source_mem (split ▸ by simp)
  obtain ⟨b, b_mem, is_v⟩ := List.mem_map.mp (o.fields_bound planned.follows v v_mem)
  have ordinary : v ≠ plan.convention.output :=
    is_v ▸ o.var_ne_output planned.follows b (List.mem_append_left _ b_mem)
  have not_param : v ≠ plan.convention.param :=
    is_v ▸ planned.follows.var_ne_param b (o.split ▸ List.mem_append_left _ b_mem)
  have read : v ∈ g.source.value.reads := by
    rw [o.eq_of_var_eq planned.follows source_mem is_output, Expr.reads_tuple_vars]
    exact v_mem
  obtain ⟨h, h_mem, rfl⟩ := l.exists_done_of_read planned split read not_param
  have h_segment : h ∈ l.segments := split ▸ List.mem_append_left _ h_mem
  refine ⟨h, h_mem, ?_⟩
  rw [← l.map_commitVar h h_segment, (l.isValue h h_segment ordinary).slots]
  exact List.mem_map_of_mem (o.mem_slots.mpr at_slot)

/-! ### Definition before use -/

/-- The new name of a variable that a binding reads is bound by an earlier segment. -/
theorem rename_lt_start (planned : f.Planned plan tracked)
    (split : l.segments = done ++ g :: later) {v : VarId} (read : v ∈ g.source.value.reads)
    (not_param : v ≠ plan.convention.param) : (l.rename v).index < g.start := by
  obtain ⟨h, h_mem, rfl⟩ := l.exists_done_of_read planned split read not_param
  rw [l.rename_var h (split ▸ List.mem_append_left _ h_mem)]
  exact l.lt_start split h_mem h.owns_target

/-- A segment releases what is bound by the time its value is. -/
theorem released_le_target (planned : f.Planned plan tracked)
    (split : l.segments = done ++ g :: later) (mem : t ∈ g.released) :
    t.index ≤ g.target.index := by
  rcases List.mem_append.mp mem with dying | fetch
  · obtain ⟨-, v, v_tracked, rfl, touched, -⟩ := (l.mem_dying_iff planned split).mp dying
    rcases Binding.mem_touches.mp touched with read | rfl
    · have not_param : v ≠ plan.convention.param :=
        fun same => planned.param_untracked (same ▸ v_tracked)
      have before := l.rename_lt_start planned split read not_param
      simp only [Segment.target]
      omega
    · exact Nat.le_of_eq (by rw [l.rename_var g (split ▸ by simp)])
  · exact Nat.le_of_lt (Segment.lt_target_of_mem_fetched fetch)

/-- What the value of a segment reads is bound before it. -/
theorem reads_value_lt (planned : f.Planned plan tracked)
    (split : l.segments = done ++ g :: later) (read : t ∈ g.value.reads) :
    t.index < g.target.index := by
  have g_mem : g ∈ l.segments := split ▸ by simp
  have start_le : g.start ≤ g.target.index := Nat.le_add_right _ _
  by_cases is_output : g.source.var = plan.convention.output
  · obtain ⟨o⟩ := planned.follows.exists_outputTuple planned.interface
    obtain ⟨slot, inside, rfl⟩ := (l.mem_reads_output g_mem is_output).mp read
    obtain ⟨h, h_mem, ack⟩ := l.exists_ack planned o split is_output (o.arity ▸ inside)
    have before := l.lt_start split h_mem (Segment.owns_of_mem_acks ack)
    omega
  · rcases (l.mem_reads_value planned g_mem is_output).mp read with
      ⟨v, v_read, not_param, rfl⟩ | fetch
    · have before := l.rename_lt_start planned split v_read not_param
      omega
    · exact Segment.lt_target_of_mem_fetched fetch

/-- **Definition before use.**  The code binds its variables in order, and reads each of them only
after it is bound. -/
theorem reads_lt (planned : f.Planned plan tracked) {b : Binding} (mem : b ∈ l.code)
    (read : t ∈ b.value.reads) : t.index < b.var.index := by
  obtain ⟨g, g_mem, b_mem⟩ := List.mem_flatMap.mp mem
  obtain ⟨done, later, split⟩ := List.append_of_mem g_mem
  refine Segment.reads_lt_of_mem_code (fun t => l.reads_value_lt planned split) (fun t dies => ?_)
    b_mem read
  exact l.released_le_target planned split (List.mem_append_left _ dies)

/-! ### What is released -/

/-- What a segment releases besides its own fetches holds the value of a tracked variable. -/
theorem exists_target_of_dying (planned : f.Planned plan tracked) (mem : g ∈ l.segments)
    (dying : t ∈ g.dying) :
    ∃ h ∈ l.segments, h.source.var ∈ tracked ∧ h.source.var ≠ plan.convention.output ∧
      h.target = t := by
  obtain ⟨done, later, split⟩ := List.append_of_mem mem
  obtain ⟨-, v, v_tracked, rfl, -⟩ := (l.mem_dying_iff planned split).mp dying
  obtain ⟨b, b_mem, rfl, ordinary⟩ := planned.tracked_bound v v_tracked
  obtain ⟨h, h_mem, rfl⟩ := l.exists_segment b_mem
  exact ⟨h, h_mem, v_tracked, ordinary, (l.rename_var h h_mem).symm⟩

/-- No value is held by a variable that an input was fetched into for a single binding. -/
theorem target_notMem_fetched (g_mem : g ∈ l.segments) (h_mem : h ∈ l.segments) :
    g.target ∉ h.fetched := by
  intro fetch
  obtain rfl := l.contiguous.eq_of_owns g_mem h_mem g.owns_target
    (Segment.owns_of_mem_fetched fetch)
  exact g.target_notMem_fetched fetch

/-- The result of a commit is never released. -/
theorem notMem_acks_of_released (planned : f.Planned plan tracked) (g_mem : g ∈ l.segments)
    (h_mem : h ∈ l.segments) (released : t ∈ g.released) : t ∉ h.acks := by
  intro ack
  have owned := Segment.owns_of_mem_acks ack
  rcases List.mem_append.mp released with dying | fetch
  · obtain ⟨k, k_mem, -, -, rfl⟩ := l.exists_target_of_dying planned g_mem dying
    obtain rfl := l.contiguous.eq_of_owns k_mem h_mem k.owns_target owned
    exact k.target_notMem_acks ack
  · obtain rfl := l.contiguous.eq_of_owns g_mem h_mem (Segment.owns_of_mem_fetched fetch) owned
    exact Segment.notMem_fetched_of_mem_acks ack fetch

end Layout

end ParamStream
