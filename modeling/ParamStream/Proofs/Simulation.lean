import ParamStream.Proofs.Reads
import ParamStream.Proofs.Serving

/-!
# A streaming form runs like its function

A streaming form does not compute the output tuple: where the function collects its outputs, the
streaming form collects what the commits have returned.  `Func.acknowledged` is the function
changed in this one respect, and a streaming form runs in lockstep with it.  Segment by segment,
the two succeed together or fail together; while they succeed, every variable has the value of the
variable it was renamed from, and the store has received the outputs bound so far.

## Main definitions

* `Binding.acknowledged`, `Func.acknowledged` — the output tuple replaced by acknowledgements;
* `Layout.Agrees` — the two frames and the store agree on the segments run so far.

## Main statements

* `Layout.lockstep_segment` — what one segment preserves;
* `Layout.lockstep_segments` — what a run of segments preserves.
-/

namespace ParamStream

/-! ### Acknowledged outputs -/

/-- A tuple with the unit value for each field. -/
def Expr.acknowledged : Expr → Expr
  | .tuple fields => .tuple (fields.map fun _ => .lit .unit)
  | e => e

/-- The binding, with acknowledgements for its fields if it is that of the output. -/
def Binding.acknowledged (output : VarId) (b : Binding) : Binding :=
  if b.var = output then ⟨b.var, b.value.acknowledged⟩ else b

@[simp] theorem Binding.var_acknowledged (output : VarId) (b : Binding) :
    (b.acknowledged output).var = b.var := by
  unfold acknowledged
  split <;> rfl

/-- The function with acknowledgements in place of the outputs. -/
def Func.acknowledged (f : Func) (output : VarId) : Func :=
  { f with
    blocks := f.blocks.map fun block =>
      { block with bindings := block.bindings.map (Binding.acknowledged output) } }

theorem Func.bindings_acknowledged (f : Func) (output : VarId) :
    (f.acknowledged output).bindings = f.bindings.map (Binding.acknowledged output) := by
  simp only [bindings, acknowledged, List.flatMap_map, List.map_flatMap]

/-- The value of the output, acknowledged. -/
theorem Evaluator.eval_acknowledged {σ : Type} (m : Evaluator) (host : Host σ) (frame : Frame)
    {output : VarId} {b : Binding} (is_output : b.var = output) {vs : List VarId}
    (is_tuple : b.value = .tuple (vs.map .var)) :
    m.eval host frame (b.acknowledged output).value =
      pure (.tuple (List.replicate vs.length .unit)) := by
  have units : m.evalAll host frame (vs.map fun _ => .lit .unit) =
      pure (List.replicate vs.length .unit) := by
    rw [evalAll_replicate (x := .unit), List.length_map]
    intro e mem
    obtain ⟨v, -, rfl⟩ := List.mem_map.mp mem
    rfl
  have value : (b.acknowledged output).value = .tuple (vs.map fun _ => .lit .unit) := by
    simp [Binding.acknowledged, is_output, is_tuple, Expr.acknowledged, Function.comp_def]
  rw [value, eval, units, pure_bind]

namespace Layout

variable {f : Func} {calls : StoreCalls} {plan : Plan} {tracked : List VarId}

/-! ### Agreement -/

/-- The frames of the two runs and the store agree on the segments run so far. -/
structure Agrees (l : Layout f calls plan) (o : OutputTuple f plan.convention plan.interface)
    (inputs : List Value) (done : List Segment) (old new : Frame) (store : ParamStore) :
    Prop where
  store_inputs : store.inputs = inputs
  old_size : old.length = f.vars.length
  new_size : new.length = Segment.sizes l.segments
  param : old.get? plan.convention.param = some (.tuple inputs)
  values : ∀ g ∈ done, ∃ x, old.get? g.source.var = some x ∧ new.get? g.target = some x
  /-- commits have returned the unit value -/
  acks : ∀ g ∈ done, ∀ t ∈ g.acks, new.get? t = some .unit
  /-- a slot holds the value of its variable, once that is bound -/
  outputs : ∀ slot, store.outputs.get? slot = (o.fields[slot]?).bind old.get?
  distinct : store.outputs.keys.Nodup

variable (l : Layout f calls plan) {o : OutputTuple f plan.convention plan.interface}

/-- The new frame has room for the variables of every segment. -/
theorem Agrees.room {l : Layout f calls plan} (agrees : l.Agrees o inputs done old new store)
    (mem : g ∈ l.segments) : g.start + g.size ≤ new.length := by
  have ends := l.contiguous.end_le g mem
  rw [agrees.new_size]
  omega

/-- Before the first segment, only the parameter is bound. -/
theorem agrees_start (planned : f.Planned plan tracked) (inputs : List Value) :
    l.Agrees o inputs [] ((Frame.blank f.vars.length).bind plan.convention.param (.tuple inputs))
      (Frame.blank (Segment.sizes l.segments)) { inputs } where
  store_inputs := rfl
  old_size := by simp [Frame.blank]
  new_size := by simp [Frame.blank]
  param := by
    refine Frame.get?_bind_self ?_ _
    rw [Frame.blank, List.length_replicate]
    exact planned.follows.param_lt
  values := by simp
  acks := by simp
  outputs slot := by
    cases at_slot : o.fields[slot]? with
    | none => rfl
    | some v =>
      obtain ⟨b, mem, rfl⟩ :=
        List.mem_map.mp (o.fields_bound planned.follows v (List.mem_of_getElem? at_slot))
      have not_param : b.var ≠ plan.convention.param :=
        planned.follows.var_ne_param b (o.split ▸ List.mem_append_left _ mem)
      rw [Option.bind_some, Frame.get?_bind_of_ne (Ne.symm not_param), Frame.get?_blank]
      rfl
  distinct := List.nodup_nil

section Segments

variable {l} {inputs : List Value} {done later : List Segment} {g : Segment} {old new : Frame}
variable {store : ParamStore}

/-- What a binding reads, the parameter aside, is bound to the same value in both frames, also
after further bindings from the segment on. -/
theorem Agrees.carries (agrees : l.Agrees o inputs done old new store)
    (planned : f.Planned plan tracked) (split : l.segments = done ++ g :: later)
    (values : List Value) :
    Evaluator.Carries plan.convention.param l.rename old (new.bindFrom g.start values)
      g.source.value.reads := by
  intro v read not_param
  obtain ⟨h, mem, rfl⟩ := l.exists_done_of_read planned split read not_param
  obtain ⟨x, bound_old, bound_new⟩ := agrees.values h mem
  refine ⟨x, bound_old, ?_⟩
  rw [l.rename_var h (split ▸ List.mem_append_left _ mem),
    Frame.get?_bindFrom_of_lt (l.lt_start split mem h.owns_target)]
  exact bound_new

/-! ### The value of a segment -/

variable {σ τ : Type} {outer : Host τ} {inner : Host σ} {m : Evaluator}

/-- The two evaluations have the same value, and the inputs and outputs of the store are as they
were. -/
def SameValue (serves : outer.Serves inner) (store : ParamStore) (x : Value) (u : σ) (y : Value)
    (t : τ) : Prop :=
  x = y ∧ ∃ s, t = serves.state s u ∧ s.inputs = store.inputs ∧ s.outputs = store.outputs

/-- The head of a segment has computed the value of its binding. -/
def Computes (serves : outer.Serves inner) (store : ParamStore) (g : Segment) (old new : Frame)
    (old' : Frame) (u : σ) (new' : Frame) (t : τ) : Prop :=
  ∃ (x : Value) (fetched : List Value) (s : ParamStore),
    old' = old.bind g.source.var x ∧ fetched.length = g.fetches.length ∧
      new' = new.bindFrom g.start (fetched ++ [x]) ∧ t = serves.state s u ∧
      s.inputs = store.inputs ∧ s.outputs = store.outputs

/-- Binding equal values: it remains to compare the values. -/
theorem lockstep_bind_value {serves : outer.Serves inner} {b : Binding}
    (same_var : b.var = g.source.var) (fetched : List Value)
    (enough : fetched.length = g.fetches.length) {u : σ} {t : τ}
    (same : EStateM.Result.Lockstep (SameValue serves store) ((m.eval inner old b.value).run u)
      ((m.eval outer (new.bindFrom g.start fetched) g.value).run t)) :
    EStateM.Result.Lockstep (Computes serves store g old new)
      ((m.evalBindings inner old [b]).run u)
      ((m.evalBindings outer (new.bindFrom g.start fetched) [⟨g.target, g.value⟩]).run t) := by
  rw [Evaluator.evalBindings, Evaluator.evalBindings]
  refine same.bind fun x u' y t' related => ?_
  obtain ⟨rfl, s, is_state, same_inputs, same_outputs⟩ := related
  refine ⟨x, fetched, s, by rw [same_var], enough, ?_, is_state, same_inputs, same_outputs⟩
  rw [Frame.bindFrom_append, enough]
  rfl

/-- An input has the value that is fetched for it. -/
theorem sameValue_input {serves : outer.Serves inner} (resolved : calls.Resolved m.symbols)
    (agrees : l.Agrees o inputs done old new store) (i : Nat) (u : σ) :
    EStateM.Result.Lockstep (SameValue serves store)
      ((m.eval inner old (.proj (.var plan.convention.param) i)).run u)
      ((m.eval outer new (calls.fetch i)).run (serves.state store u)) := by
  rw [Evaluator.run_input agrees.param, Evaluator.eval_fetch resolved]
  cases found : inputs[i]? with
  | some x =>
    have in_store : store.inputs[i]? = some x := by rw [agrees.store_inputs, found]
    rw [serves.fetch u in_store]
    exact ⟨rfl, store.hold x, rfl, rfl, rfl⟩
  | none =>
    have not_in_store : store.inputs[i]? = none := by rw [agrees.store_inputs, found]
    obtain ⟨e, t, fails⟩ := serves.fetch_missing u not_in_store
    rw [fails]
    trivial

/-- A redirected value, once its inputs are fetched. -/
theorem sameValue_redirect {serves : outer.Serves inner} (planned : f.Planned plan tracked)
    (independent : f.Independent m.symbols) (agrees : l.Agrees o inputs done old new store)
    (split : l.segments = done ++ g :: later) {s : ParamStore} (same_inputs : s.inputs = inputs)
    (same_outputs : s.outputs = store.outputs)
    (found : ∀ i ∈ g.source.value.inputReads plan.convention.param, ∃ x, inputs[i]? = some x)
    (fits : g.start + (g.source.value.inputReads plan.convention.param).length ≤ new.length)
    (u : σ) :
    EStateM.Result.Lockstep (SameValue serves store) ((m.eval inner old g.source.value).run u)
      ((m.eval outer
        (new.bindFrom g.start ((g.source.value.inputReads plan.convention.param).map
          fun i => (inputs[i]?).getD .unit))
        (g.source.value.redirect plan.convention.param l.rename g.start)).run
        (serves.state s u)) := by
  have source_mem : g.source ∈ f.bindings := l.source_mem (split ▸ by simp)
  have fetched : Evaluator.Fetched inputs
      (new.bindFrom g.start ((g.source.value.inputReads plan.convention.param).map
        fun i => (inputs[i]?).getD .unit))
      g.start (g.source.value.inputReads plan.convention.param) := by
    intro k i at_k
    obtain ⟨x, is_x⟩ := found i (List.mem_of_getElem? at_k)
    refine ⟨x, is_x, Frame.get?_bindFrom ?_ ?_⟩
    · rwa [List.length_map]
    · rw [List.getElem?_map, at_k, Option.map_some, is_x, Option.getD_some]
  have commutes := Evaluator.commutes_redirect serves s agrees.param
    (planned.follows.confined _ source_mem) (independent.1 _ source_mem)
    (agrees.carries planned split _) fetched
  rw [commutes u]
  cases (m.eval inner old g.source.value).run u with
  | ok x u' => exact ⟨rfl, s, rfl, same_inputs.trans agrees.store_inputs.symm, same_outputs⟩
  | error e u' => trivial

/-- The commits that the output collects have been made. -/
theorem Agrees.commitVar_bound (agrees : l.Agrees o inputs done old new store)
    (planned : f.Planned plan tracked) (split : l.segments = done ++ g :: later)
    (is_output : g.source.var = plan.convention.output) {slot : Nat}
    (inside : slot < o.fields.length) : new.get? (l.commitVar slot) = some .unit := by
  obtain ⟨h, h_mem, ack⟩ := l.exists_ack planned o split is_output inside
  exact agrees.acks h h_mem _ ack

/-- The output is the tuple of acknowledgements. -/
theorem sameValue_output {serves : outer.Serves inner} (planned : f.Planned plan tracked)
    (agrees : l.Agrees o inputs done old new store) (split : l.segments = done ++ g :: later)
    (is_output : g.source.var = plan.convention.output) (u : σ) :
    EStateM.Result.Lockstep (SameValue serves store)
      ((m.eval inner old (g.source.acknowledged plan.convention.output).value).run u)
      ((m.eval outer new g.value).run (serves.state store u)) := by
  have source_mem : g.source ∈ f.bindings := l.source_mem (split ▸ by simp)
  have is_tuple : g.source.value = .tuple (o.fields.map .var) := by
    rw [o.eq_of_var_eq planned.follows source_mem is_output]
  have collected := (l.isOutput g (split ▸ by simp) is_output).value
  have acks : m.evalAll outer new
      ((List.range plan.interface.outputs.arity).map fun slot => .var (l.commitVar slot)) =
        pure (List.replicate o.fields.length .unit) := by
    rw [o.arity, Evaluator.evalAll_replicate (x := .unit), List.length_map, List.length_range]
    intro e mem
    obtain ⟨slot, inside, rfl⟩ := List.mem_map.mp mem
    rw [Evaluator.eval,
      agrees.commitVar_bound planned split is_output (List.mem_range.mp inside)]
  rw [m.eval_acknowledged inner old is_output is_tuple, collected, Evaluator.eval, acks]
  exact ⟨rfl, store, rfl, rfl, rfl⟩

/-- **The head of a segment** computes the value of its binding or fails where that does. -/
theorem lockstep_head (serves : outer.Serves inner) (resolved : calls.Resolved m.symbols)
    (independent : f.Independent m.symbols) (planned : f.Planned plan tracked)
    (agrees : l.Agrees o inputs done old new store) (split : l.segments = done ++ g :: later)
    (u : σ) :
    EStateM.Result.Lockstep (Computes serves store g old new)
      ((m.evalBindings inner old [g.source.acknowledged plan.convention.output]).run u)
      ((m.evalBindings outer new (g.head calls)).run (serves.state store u)) := by
  have g_mem : g ∈ l.segments := split ▸ by simp
  by_cases is_output : g.source.var = plan.convention.output
  · rw [Segment.head, (l.isOutput g g_mem is_output).fetches]
    refine lockstep_bind_value (Binding.var_acknowledged _ _) [] ?_ ?_
    · simp [(l.isOutput g g_mem is_output).fetches]
    · exact sameValue_output planned agrees split is_output u
  have value_segment := l.isValue g g_mem is_output
  have unchanged : g.source.acknowledged plan.convention.output = g.source := if_neg is_output
  rw [unchanged]
  cases is_input : g.source.value.inputIndex? plan.convention.param with
  | some i =>
    have no_fetches : g.fetches = [] := by
      rw [value_segment.fetches, Lowering.hoisted, is_input]
      rfl
    rw [Segment.head, no_fetches]
    refine lockstep_bind_value rfl [] (by simp [no_fetches]) ?_
    rw [value_segment.value, Expr.streamed, is_input, Expr.eq_proj_of_inputIndex? is_input]
    exact sameValue_input resolved agrees i u
  | none =>
    have fetches : g.fetches = g.source.value.inputReads plan.convention.param := by
      rw [value_segment.fetches, Lowering.hoisted, is_input]
      rfl
    have value : g.value = g.source.value.redirect plan.convention.param l.rename g.start := by
      rw [value_segment.value, Expr.streamed, is_input]
    rw [Segment.head, Evaluator.evalBindings_append]
    by_cases found : ∀ i ∈ g.source.value.inputReads plan.convention.param,
        ∃ x, inputs[i]? = some x
    · have fits : g.start + (g.source.value.inputReads plan.convention.param).length ≤
          new.length := by
        have room := agrees.room g_mem
        simp only [Segment.size] at room
        rw [← fetches]
        omega
      rw [fetches, EStateM.run_bind,
        Evaluator.run_fetches serves resolved u (agrees.store_inputs ▸ found)]
      refine lockstep_bind_value rfl _ (by rw [fetches, List.length_map]) ?_
      rw [value, agrees.store_inputs]
      refine sameValue_redirect planned independent agrees split ?_ ?_ found fits u
      · rw [ParamStore.inputs_holdAll, agrees.store_inputs]
      · rw [ParamStore.outputs_holdAll]
    · -- An input is missing: the fetch of it fails, and so does the value that reads it.
      obtain ⟨i, missing⟩ := not_forall.mp found
      obtain ⟨mem, missing⟩ := Classical.not_imp.mp missing
      have not_in_store : store.inputs[i]? = none := by
        rw [agrees.store_inputs, Option.eq_none_iff_forall_ne_some]
        exact fun x is_x => missing ⟨x, is_x⟩
      obtain ⟨e, t, fails⟩ := Evaluator.run_fetches_missing serves resolved u
        (fetches.symm ▸ mem) not_in_store
      rw [EStateM.run_bind, fails, Evaluator.evalBindings, EStateM.run_bind]
      cases ends : (m.eval inner old g.source.value).run u with
      | ok x u' => exact absurd (Evaluator.exists_input_of_eval agrees.param ends i mem) missing
      | error e' u' => trivial

/-! ### The rest of a segment -/

/-- The tail of a segment commits the value and releases what dies; it cannot fail. -/
theorem run_tail (serves : outer.Serves inner) (resolved : calls.Resolved m.symbols)
    {frame : Frame} {x : Value} (bound : frame.get? g.target = some x)
    (released : ∀ t ∈ g.released, t.index < g.target.index + 1 ∧ ∃ y, frame.get? t = some y)
    (s : ParamStore) (u : σ) :
    (m.evalBindings outer frame (g.tail calls)).run (serves.state s u) =
      .ok (frame.bindFrom (g.target.index + 1)
          (List.replicate (g.slots.length + g.released.length) .unit))
        (serves.state ((s.commitAll g.slots x).releaseAll
          (g.released.map fun t => (frame.get? t).getD .unit)) u) := by
  have unchanged : ∀ t ∈ g.released,
      (frame.bindFrom (g.target.index + 1) (List.replicate g.slots.length .unit)).get? t =
        frame.get? t :=
    fun t mem => Frame.get?_bindFrom_of_lt (released t mem).1 _
  have still_bound : ∀ t ∈ g.released, t.index < g.target.index + 1 + g.slots.length ∧
      ∃ y, (frame.bindFrom (g.target.index + 1)
        (List.replicate g.slots.length .unit)).get? t = some y := by
    intro t mem
    rw [unchanged t mem]
    exact ⟨Nat.lt_add_right _ (released t mem).1, (released t mem).2⟩
  rw [Segment.tail, Evaluator.evalBindings_append, EStateM.run_bind,
    Evaluator.run_commits serves resolved bound (Nat.lt_succ_self _)]
  refine (Evaluator.run_releases serves resolved still_bound _ u).trans ?_
  rw [← List.replicate_append_replicate, Frame.bindFrom_append, List.length_replicate,
    List.map_congr_left fun t mem => congrArg (fun value => value.getD .unit) (unchanged t mem)]

/-- The results of a segment's commits follow its value. -/
theorem getElem?_of_mem_acks {fetched : List Value} (enough : fetched.length = g.fetches.length)
    {t : VarId} (ack : t ∈ g.acks) (x : Value) :
    ∃ k, t = ⟨g.start + k⟩ ∧
      (fetched ++ x :: List.replicate (g.slots.length + g.released.length) .unit)[k]? =
        some .unit := by
  have range := mem_varsFrom.mp ack
  obtain ⟨index⟩ := t
  simp only [Expr.InRange, Segment.target] at range
  refine ⟨index - g.start, ?_, ?_⟩
  · rw [Nat.add_sub_cancel' (by omega)]
  · obtain ⟨j, at_j, inside⟩ :
        ∃ j, index - g.start = fetched.length + (j + 1) ∧ j < g.slots.length :=
      ⟨index - (g.start + g.fetches.length + 1), by omega, by omega⟩
    rw [at_j, List.getElem?_append_right (Nat.le_add_right _ _), Nat.add_sub_cancel_left,
      List.getElem?_cons_succ, List.getElem?_replicate_of_lt (by omega)]

/-- Committing the value of a segment keeps the slots in step with the variables. -/
theorem Agrees.outputs_bind (agrees : l.Agrees o inputs done old new store)
    (planned : f.Planned plan tracked) (mem : g ∈ l.segments)
    (inside : g.source.var.index < old.length) (x : Value) (slot : Nat) :
    (store.outputs.insertAll (g.slots.map fun slot => (slot, x))).get? slot =
      (o.fields[slot]?).bind (old.bind g.source.var x).get? := by
  rw [Assoc.get?_insertAll_const, agrees.outputs slot]
  by_cases fed : slot ∈ g.slots
  · rw [if_pos fed, (l.mem_slots planned o mem).mp fed, Option.bind_some,
      Frame.get?_bind_self inside]
  · rw [if_neg fed]
    cases at_slot : o.fields[slot]? with
    | none => rfl
    | some v =>
      have differ : g.source.var ≠ v :=
        fun same => fed ((l.mem_slots planned o mem).mpr (same ▸ at_slot))
      rw [Option.bind_some, Option.bind_some, Frame.get?_bind_of_ne differ]

/-- The frames and the store agree on a segment that has been run. -/
theorem Agrees.step (agrees : l.Agrees o inputs done old new store)
    (planned : f.Planned plan tracked) (split : l.segments = done ++ g :: later) {x : Value}
    {fetched : List Value} (enough : fetched.length = g.fetches.length) {s : ParamStore}
    (same_inputs : s.inputs = store.inputs)
    (outputs : s.outputs = store.outputs.insertAll (g.slots.map fun slot => (slot, x))) :
    l.Agrees o inputs (done ++ [g]) (old.bind g.source.var x)
      (new.bindFrom g.start
        (fetched ++ x :: List.replicate (g.slots.length + g.released.length) .unit)) s := by
  have g_mem : g ∈ l.segments := split ▸ by simp
  have source_mem := l.source_mem g_mem
  have not_param := planned.follows.var_ne_param _ source_mem
  have source_lt : g.source.var.index < old.length := by
    rw [agrees.old_size]
    exact planned.follows.ordered.var_lt_size _ source_mem
  have fits : g.start +
      (fetched ++ x :: List.replicate (g.slots.length + g.released.length) Value.unit).length ≤
        new.length := by
    have room := agrees.room g_mem
    simp only [Segment.size] at room
    simp only [List.length_append, List.length_cons, List.length_replicate,
      Segment.length_released, enough]
    omega
  refine
    { store_inputs := same_inputs.trans agrees.store_inputs
      old_size := by rw [Frame.length_bind, agrees.old_size]
      new_size := by rw [Frame.length_bindFrom, agrees.new_size]
      param := by rw [Frame.get?_bind_of_ne not_param, agrees.param]
      values := ?_
      acks := ?_
      outputs := fun slot => by rw [outputs, agrees.outputs_bind planned g_mem source_lt]
      distinct := by
        rw [outputs]
        exact Assoc.nodup_keys_insertAll _ agrees.distinct }
  · intro h mem
    rcases List.mem_append.mp mem with mem | mem
    · obtain ⟨y, bound_old, bound_new⟩ := agrees.values h mem
      refine ⟨y, ?_, ?_⟩
      · rw [Frame.get?_bind_of_ne (l.source_var_ne planned split mem), bound_old]
      · rw [Frame.get?_bindFrom_of_lt (l.lt_start split mem h.owns_target), bound_new]
    · obtain rfl := List.mem_singleton.mp mem
      refine ⟨x, Frame.get?_bind_self source_lt x, ?_⟩
      rw [Segment.target, ← enough]
      exact Frame.get?_bindFrom fits (by simp)
  · intro h mem t ack
    rcases List.mem_append.mp mem with mem | mem
    · have before := l.lt_start split mem (Segment.owns_of_mem_acks ack)
      rw [Frame.get?_bindFrom_of_lt before, agrees.acks h mem t ack]
    · obtain rfl := List.mem_singleton.mp mem
      obtain ⟨k, rfl, at_k⟩ := getElem?_of_mem_acks enough ack x
      exact Frame.get?_bindFrom fits at_k

/-- What a segment releases is bound when its value is. -/
theorem Agrees.released_bound (agrees : l.Agrees o inputs done old new store)
    (planned : f.Planned plan tracked) (split : l.segments = done ++ g :: later) {x : Value}
    {fetched : List Value} (enough : fetched.length = g.fetches.length) :
    ∀ t ∈ g.released, t.index < g.target.index + 1 ∧
      ∃ y, (new.bindFrom g.start (fetched ++ [x])).get? t = some y := by
  have g_mem : g ∈ l.segments := split ▸ by simp
  have fits : g.start + (fetched ++ [x]).length ≤ new.length := by
    have room := agrees.room g_mem
    simp only [Segment.size] at room
    rw [List.length_append, enough, List.length_singleton]
    omega
  have bound : ∀ k, k < (fetched ++ [x]).length →
      ∃ y, (new.bindFrom g.start (fetched ++ [x])).get? ⟨g.start + k⟩ = some y :=
    fun k inside => ⟨_, Frame.get?_bindFrom fits (List.getElem?_eq_getElem inside)⟩
  rw [List.length_append, enough, List.length_singleton] at bound
  intro t mem
  refine ⟨Nat.lt_succ_of_le (l.released_le_target planned split mem), ?_⟩
  rcases List.mem_append.mp mem with dying | fetch
  · obtain ⟨-, v, v_tracked, rfl, touched, -⟩ := (l.mem_dying_iff planned split).mp dying
    rcases Binding.mem_touches.mp touched with read | rfl
    · have not_param : v ≠ plan.convention.param :=
        fun same => planned.param_untracked (same ▸ v_tracked)
      obtain ⟨y, -, bound_new⟩ := agrees.carries planned split _ _ read not_param
      exact ⟨y, bound_new⟩
    · rw [l.rename_var g g_mem]
      exact bound g.fetches.length (Nat.lt_succ_self _)
  · have range := mem_varsFrom.mp fetch
    obtain ⟨index⟩ := t
    simp only [Expr.InRange] at range
    have found := bound (index - g.start) (by omega)
    rwa [Nat.add_sub_cancel' range.1] at found

/-- **One segment.**  The code of a segment succeeds or fails with its binding, and agreement goes
on. -/
theorem lockstep_segment (serves : outer.Serves inner) (resolved : calls.Resolved m.symbols)
    (independent : f.Independent m.symbols) (planned : f.Planned plan tracked)
    (agrees : l.Agrees o inputs done old new store) (split : l.segments = done ++ g :: later)
    (u : σ) :
    EStateM.Result.Lockstep
      (fun old' u' new' t => ∃ s, t = serves.state s u' ∧
        l.Agrees o inputs (done ++ [g]) old' new' s)
      ((m.evalBindings inner old [g.source.acknowledged plan.convention.output]).run u)
      ((m.evalBindings outer new (g.code calls)).run (serves.state store u)) := by
  have head := lockstep_head serves resolved independent planned agrees split u
  rw [Segment.code_eq, Evaluator.evalBindings_append,
    ← bind_pure (m.evalBindings inner old [g.source.acknowledged plan.convention.output])]
  refine head.bind fun old' u' new' t computed => ?_
  obtain ⟨x, fetched, s, rfl, enough, rfl, rfl, same_inputs, same_outputs⟩ := computed
  have released := agrees.released_bound planned split (x := x) enough
  have bound : (new.bindFrom g.start (fetched ++ [x])).get? g.target = some x := by
    have ends := l.contiguous.end_le g (split ▸ by simp)
    simp only [Segment.size] at ends
    rw [Segment.target, ← enough]
    refine Frame.get?_bindFrom ?_ (by simp)
    rw [agrees.new_size, List.length_append, enough, List.length_singleton]
    omega
  rw [run_tail serves resolved bound released]
  refine ⟨_, rfl, ?_⟩
  have frames : (new.bindFrom g.start (fetched ++ [x])).bindFrom (g.target.index + 1)
      (List.replicate (g.slots.length + g.released.length) .unit) =
        new.bindFrom g.start
          (fetched ++ x :: List.replicate (g.slots.length + g.released.length) .unit) := by
    have after : g.start + (fetched ++ [x]).length = g.target.index + 1 := by
      rw [List.length_append, enough, List.length_singleton, Segment.target, Nat.add_assoc]
    rw [← after, ← Frame.bindFrom_append, ← List.append_cons]
  rw [frames]
  refine agrees.step planned split enough ?_ ?_
  · rw [ParamStore.inputs_releaseAll, ParamStore.inputs_commitAll, same_inputs]
  · rw [ParamStore.outputs_releaseAll, ParamStore.outputs_commitAll, same_outputs]

/-- **A run of segments** succeeds or fails with the bindings they are for. -/
theorem lockstep_segments (serves : outer.Serves inner) (resolved : calls.Resolved m.symbols)
    (independent : f.Independent m.symbols) (planned : f.Planned plan tracked)
    (agrees : l.Agrees o inputs done old new store) {todo : List Segment}
    (split : l.segments = done ++ (todo ++ later)) (u : σ) :
    EStateM.Result.Lockstep
      (fun old' u' new' t => ∃ s, t = serves.state s u' ∧
        l.Agrees o inputs (done ++ todo) old' new' s)
      ((m.evalBindings inner old
        (todo.map fun g => g.source.acknowledged plan.convention.output)).run u)
      ((m.evalBindings outer new (todo.flatMap (Segment.code calls))).run
        (serves.state store u)) := by
  induction todo generalizing done old new store u with
  | nil =>
    refine ⟨store, rfl, ?_⟩
    rw [List.append_nil]
    exact agrees
  | cons g todo ih =>
    rw [List.map_cons, List.flatMap_cons, Evaluator.evalBindings_append,
      Evaluator.evalBindings_cons]
    refine (lockstep_segment serves resolved independent planned agrees split u).bind
      fun old' u' new' t related => ?_
    obtain ⟨s, rfl, agrees'⟩ := related
    rw [List.cons_append, List.append_cons] at split
    rw [List.append_cons]
    exact ih agrees' split u'

end Segments

end Layout

/-! ### Whole runs -/

/-- What comes of a function that is run on a tuple of inputs, without a host. -/
def Func.runOn (f : Func) (names : SymbolTable) (operators : OperatorTable)
    (inputs : List Value) : EStateM.Result EvalError Unit Value :=
  (Evaluator.run ⟨names, operators⟩ .absent f [.tuple inputs]).run ()

/-- What comes of a streaming form that is run against a store of inputs. -/
def Func.runFrom (g : Func) (names : SymbolTable) (operators : OperatorTable)
    (inputs : List Value) : EStateM.Result EvalError ParamStore Value :=
  (Evaluator.run ⟨names, operators⟩ ParamStore.host g []).run { inputs }

namespace Evaluator

variable {σ : Type}

/-- The run of a function that follows the convention. -/
theorem run_of_follows (m : Evaluator) (host : Host σ) {f : Func} {c : Convention}
    (follows : f.Follows c) (arg : Value) :
    m.run host f [arg] = (do
      let frame ← m.evalBindings host ((Frame.blank f.vars.length).bind c.param arg) f.bindings
      m.eval host frame (.var c.output)) := by
  simp only [run, follows.params, follows.result, List.length_singleton, if_true]
  rfl

/-- The run of a streaming form. -/
theorem run_of_describes (m : Evaluator) (host : Host σ) {f g : Func} {calls : StoreCalls}
    {plan : Plan} {l : Layout f calls plan} (describes : l.Describes g) :
    m.run host g [] = (do
      let frame ← m.evalBindings host (Frame.blank (Segment.sizes l.segments)) l.code
      m.eval host frame (.var (l.rename plan.convention.output))) := by
  simp only [run, describes.params, describes.code, describes.result, describes.size,
    List.length_nil, if_true]
  rfl

/-- The run of a function with acknowledged outputs. -/
theorem run_acknowledged (m : Evaluator) (host : Host σ) {f : Func} {c : Convention}
    (follows : f.Follows c) (arg : Value) :
    m.run host (f.acknowledged c.output) [arg] = (do
      let frame ← m.evalBindings host ((Frame.blank f.vars.length).bind c.param arg)
        (f.bindings.map (Binding.acknowledged c.output))
      m.eval host frame (.var c.output)) := by
  rw [← Func.bindings_acknowledged]
  simp only [run, Func.acknowledged, follows.params, follows.result, List.length_singleton,
    if_true]
  rfl

end Evaluator

/-- **A whole run.**  A streaming form succeeds or fails with the function whose outputs are
acknowledged, and returns the same value. -/
theorem Layout.lockstep_run {f g : Func} {calls : StoreCalls} {plan : Plan}
    {tracked : List VarId} {l : Layout f calls plan} {σ τ : Type} {outer : Host τ}
    {inner : Host σ} {m : Evaluator} (serves : outer.Serves inner)
    (resolved : calls.Resolved m.symbols) (independent : f.Independent m.symbols)
    (planned : f.Planned plan tracked) (describes : l.Describes g) (inputs : List Value) (u : σ) :
    EStateM.Result.Lockstep (fun x u' y t => x = y ∧ ∃ s, t = serves.state s u')
      ((m.run inner (f.acknowledged plan.convention.output) [.tuple inputs]).run u)
      ((m.run outer g []).run (serves.state { inputs } u)) := by
  obtain ⟨o⟩ := planned.follows.exists_outputTuple planned.interface
  obtain ⟨b, b_mem, is_output⟩ := List.mem_map.mp planned.follows.output_bound
  obtain ⟨h, h_mem, rfl⟩ := l.exists_segment b_mem
  have whole : l.segments = [] ++ (l.segments ++ []) := by simp
  have segments := lockstep_segments serves resolved independent planned
    (l.agrees_start planned inputs (o := o)) whole u
  have sources : (l.segments.map fun g => g.source.acknowledged plan.convention.output) =
      f.bindings.map (Binding.acknowledged plan.convention.output) := by
    rw [← l.sources, List.map_map]
    rfl
  rw [sources] at segments
  rw [Evaluator.run_acknowledged m inner planned.follows,
    Evaluator.run_of_describes m outer describes]
  refine segments.bind fun old u' new t related => ?_
  obtain ⟨s, rfl, agrees⟩ := related
  obtain ⟨x, bound_old, bound_new⟩ := agrees.values h h_mem
  rw [is_output] at bound_old
  rw [← is_output, l.rename_var h h_mem]
  rw [Evaluator.eval, Evaluator.eval, is_output, bound_old, bound_new]
  exact ⟨rfl, s, rfl⟩

end ParamStream
