import ParamStream.Proofs.Releases
import ParamStream.Proofs.Subexpressions

/-!
# Where a streaming form fetches

An input is read wherever the parameter is projected, which may be deep inside an expression.  The
streaming form has one fetch for each of these places, as a binding of its own, and in the order in
which evaluation visits them.  The fetches are not collected at the front: those for a binding open
its code, behind everything that belongs to the bindings before it.

The places are described here by listing all subexpressions in visit order and picking out the
projections of the parameter, without reference to how expressions are lowered.

## Main definitions

* `Expr.occurrences` — the indices at which an expression projects the parameter;
* `Segment.FetchesFirst` — the code for a binding opens with the inputs that the binding reads.

## Main statements

* `Expr.occurrences_eq_inputReads`;
* `Func.fetch_placement`.
-/

namespace ParamStream

/-! ### Occurrences of inputs -/

namespace Expr

/-- The indices `i` of all occurrences of `param.i` in an expression, in visit order. -/
def occurrences (param : VarId) (e : Expr) : List Nat :=
  (e :: e.inside).filterMap (inputIndex? param)

mutual

/-- The indices that lowering collects are those of the occurrences. -/
theorem occurrences_eq_inputReads (param : VarId) (e : Expr) :
    e.occurrences param = e.inputReads param := by
  match e with
  | .tuple fields => exact filterMap_insideAll param fields
  | .proj base i =>
    by_cases is_input : base.asVar? = some param
    · obtain rfl := asVar?_eq_some_iff.mp is_input
      simp [occurrences, inside, inputReads, inputIndex?, asVar?]
    · rw [inputReads, if_neg is_input, ← occurrences_eq_inputReads param base]
      exact List.filterMap_cons_none (if_neg is_input)
  | .call callee args ty =>
    have head := occurrences_eq_inputReads param callee
    rw [inputReads, ← head, ← filterMap_insideAll param args, occurrences, occurrences,
      ← List.filterMap_append]
    rfl
  | .var _ | .lit _ | .host _ | .op _ => rfl

/-- `occurrences_eq_inputReads` for a list of expressions. -/
theorem filterMap_insideAll (param : VarId) (es : List Expr) :
    (insideAll es).filterMap (inputIndex? param) = inputReadsAll param es := by
  match es with
  | [] => rfl
  | e :: es =>
    have head := occurrences_eq_inputReads param e
    rw [inputReadsAll, ← head, ← filterMap_insideAll param es, occurrences,
      ← List.filterMap_append]
    rfl

end

mutual

/-- What is inside an expression refers only to host functions that the expression refers to. -/
theorem hosts_subset_of_mem_inside {e e' : Expr} (mem : e' ∈ e.inside) : e'.hosts ⊆ e.hosts := by
  match e with
  | .tuple fields => exact hosts_subset_of_mem_insideAll mem
  | .proj base i =>
    show e'.hosts ⊆ base.hosts
    rcases List.mem_cons.mp mem with rfl | deeper
    · exact List.Subset.refl _
    · exact hosts_subset_of_mem_inside deeper
  | .call callee args ty =>
    show e'.hosts ⊆ callee.hosts ++ hostsAll args
    rcases List.mem_cons.mp mem with rfl | deeper
    · exact List.subset_append_left _ _
    rcases List.mem_append.mp deeper with in_callee | in_args
    · exact List.subset_append_of_subset_left _ (hosts_subset_of_mem_inside in_callee)
    · exact List.subset_append_of_subset_right _ (hosts_subset_of_mem_insideAll in_args)
  | .var _ | .lit _ | .host _ | .op _ => simp [inside] at mem

/-- `hosts_subset_of_mem_inside` for a list of expressions. -/
theorem hosts_subset_of_mem_insideAll {es : List Expr} {e' : Expr} (mem : e' ∈ insideAll es) :
    e'.hosts ⊆ hostsAll es := by
  match es with
  | [] => simp [insideAll] at mem
  | e :: es =>
    show e'.hosts ⊆ e.hosts ++ hostsAll es
    rcases List.mem_cons.mp mem with rfl | deeper
    · exact List.subset_append_left _ _
    rcases List.mem_append.mp deeper with in_head | in_rest
    · exact List.subset_append_of_subset_left _ (hosts_subset_of_mem_inside in_head)
    · exact List.subset_append_of_subset_right _ (hosts_subset_of_mem_insideAll in_rest)

end

/-- An expression that does not refer to a service has no call of it inside. -/
theorem Avoids.argsOf?_inside {table : SymbolTable} {service : StoreService} {e : Expr}
    (avoids : e.Avoids table service) : ∀ e' ∈ e.inside, e'.argsOf? table service = none :=
  fun _ mem => (avoids.mono (hosts_subset_of_mem_inside mem)).argsOf?_eq_none

end Expr

/-- Inside a fetch there are the host function and the index, and neither is a call. -/
theorem StoreCalls.argsOf?_inside_fetch (calls : StoreCalls) (table : SymbolTable)
    (service : StoreService) (i : Nat) :
    ∀ e ∈ (calls.fetch i).inside, e.argsOf? table service = none := by
  intro e mem
  simp only [fetch, Expr.inside, Expr.insideAll, List.nil_append, List.mem_cons,
    List.not_mem_nil, or_false] at mem
  rcases mem with rfl | rfl <;> rfl

/-! ### The fetches of a segment -/

/-- What is passed on to fetch an input. -/
def fetchArgs (i : Nat) : List Expr := [.lit (.int i)]

/-- The code opens with a fetch for each occurrence of an input in the binding that it is for, in
visit order, and nothing after these is a fetch. -/
def Segment.FetchesFirst (calls : StoreCalls) (table : SymbolTable) (param : VarId)
    (g : Segment) : Prop :=
  ∃ fetches rest, g.code calls = fetches ++ rest ∧
    fetches.map (fun b => b.value.argsOf? table .fetch) =
      (g.source.value.occurrences param).map (fun i => some (fetchArgs i)) ∧
    ∀ b ∈ rest, b.value.argsOf? table .fetch = none

namespace Segment

variable {calls : StoreCalls} {table : SymbolTable} {g : Segment}

theorem FetchesFirst.filterMap_code {param : VarId} (first : g.FetchesFirst calls table param) :
    (g.code calls).filterMap (fun b => b.value.argsOf? table .fetch) =
      (g.source.value.occurrences param).map fetchArgs := by
  obtain ⟨fetches, rest, code, args, none_after⟩ := first
  rw [code, List.filterMap_append, List.filterMap_eq_nil_iff.mpr none_after, List.append_nil]
  have as_map := congrArg (List.filterMap id) args
  simpa [List.filterMap_map, Function.comp_def] using as_map

theorem no_fetch_of_mem_tail (resolved : calls.Resolved table) {b : Binding}
    (mem : b ∈ g.tail calls) : b.value.argsOf? table .fetch = none := by
  rcases (mem_tail mem).1 with ⟨slot, -, is_commit⟩ | ⟨t, -, is_release⟩
  · rw [is_commit, resolved.argsOf?_commit]
    rfl
  · rw [is_release, resolved.argsOf?_release]
    rfl

/-- A value that is no fetch itself follows the fetches of what it reads. -/
theorem fetchesFirst_of_no_fetch {param : VarId} (resolved : calls.Resolved table)
    (fetches : g.fetches = g.source.value.inputReads param)
    (no_fetch : g.value.argsOf? table .fetch = none) : g.FetchesFirst calls table param := by
  refine ⟨numbered g.start (g.fetches.map calls.fetch), ⟨g.target, g.value⟩ :: g.tail calls, ?_,
    ?_, List.forall_mem_cons.mpr ⟨no_fetch, fun b => no_fetch_of_mem_tail resolved⟩⟩
  · simp [code_eq, head]
  · rw [Expr.occurrences_eq_inputReads, ← fetches, ← Function.comp_def, ← List.map_map,
      map_value_numbered, List.map_map]
    refine List.map_congr_left fun i _ => ?_
    exact resolved.argsOf?_fetch i .fetch

/-- A value that is an input is the only fetch of its segment. -/
theorem fetchesFirst_of_input {param : VarId} {i : Nat} (resolved : calls.Resolved table)
    (is_input : g.source.value = .proj (.var param) i) (no_fetches : g.fetches = [])
    (value : g.value = calls.fetch i) : g.FetchesFirst calls table param := by
  refine ⟨[⟨g.target, g.value⟩], g.tail calls, ?_, ?_, fun b => no_fetch_of_mem_tail resolved⟩
  · simp [code_eq, head, no_fetches]
  · rw [Expr.occurrences_eq_inputReads, is_input, value]
    simp [Expr.inputReads, Expr.asVar?, resolved.argsOf?_fetch, fetchArgs]

end Segment

namespace Layout

variable {f : Func} {calls : StoreCalls} {plan : Plan} {tracked : List VarId}
  {table : SymbolTable} (l : Layout f calls plan) {g : Segment}

/-- **Placement.**  The code for a binding opens with the inputs that the binding reads. -/
theorem fetchesFirst (planned : f.Planned plan tracked) (resolved : calls.Resolved table)
    (avoids : f.Avoids table .fetch) (mem : g ∈ l.segments) :
    g.FetchesFirst calls table plan.convention.param := by
  by_cases is_output : g.source.var = plan.convention.output
  · obtain ⟨o⟩ := planned.follows.exists_outputTuple planned.interface
    have shape := l.isOutput g mem is_output
    refine Segment.fetchesFirst_of_no_fetch resolved ?_ (by rw [shape.value]; rfl)
    -- The output tuple consists of variables and reads no input.
    rw [shape.fetches, o.eq_of_var_eq planned.follows (l.source_mem mem) is_output,
      Expr.inputReads, Expr.inputReadsAll_eq_flatMap]
    simp [Expr.inputReads]
  · have shape := l.isValue g mem is_output
    cases is_input : g.source.value.inputIndex? plan.convention.param with
    | some i =>
      refine Segment.fetchesFirst_of_input resolved (Expr.eq_proj_of_inputIndex? is_input) ?_ ?_
      · simp [shape.fetches, Lowering.hoisted, is_input]
      · simp [shape.value, Expr.streamed, is_input]
    | none =>
      refine Segment.fetchesFirst_of_no_fetch resolved ?_ ?_
      · simp [shape.fetches, Lowering.hoisted, is_input]
      · rcases l.fetch_or_avoids avoids mem with ⟨i, is_some, -⟩ | avoids
        · simp [is_input] at is_some
        · exact avoids.argsOf?_eq_none

/-- No fetch stands inside another expression. -/
theorem no_fetch_inside (resolved : calls.Resolved table) (avoids : f.Avoids table .fetch)
    {b : Binding} (mem : b ∈ l.code) :
    ∀ e ∈ b.value.inside, e.argsOf? table .fetch = none := by
  obtain ⟨g, g_mem, in_code⟩ := List.mem_flatMap.mp mem
  rcases Segment.cases_of_mem_code in_code with
    ⟨i, -, is_fetch⟩ | rfl | ⟨slot, -, is_commit⟩ | ⟨t, -, is_release⟩
  · rw [is_fetch]
    exact calls.argsOf?_inside_fetch table .fetch i
  · rcases l.fetch_or_avoids avoids g_mem with ⟨i, -, is_fetch⟩ | avoids
    · rw [is_fetch]
      exact calls.argsOf?_inside_fetch table .fetch i
    · exact avoids.argsOf?_inside
  · rw [is_commit]
    exact (Expr.avoids_of_hosts rfl resolved.commit (by decide)).argsOf?_inside
  · rw [is_release]
    exact (Expr.avoids_of_hosts rfl resolved.release (by decide)).argsOf?_inside

end Layout

namespace Func

/-- **Where a streaming form fetches.**  Its calls of that service are those for the occurrences of
inputs in the bindings of the function, one for each of them and in the same order, and none stands
inside another expression.  The code for a binding, which comes behind that for the bindings before
it, opens with the fetches for this binding. -/
theorem fetch_placement {f g : Func} {table names : SymbolTable} {intermediates : Bool}
    (streamed : f.stream table intermediates = (.ok g, names)) (avoids : f.Avoids names .fetch) :
    ∃ param plan, ∃ l : Layout f (StoreCalls.intern table).1 plan, f.params = [param] ∧
      f.plan intermediates = .ok plan ∧ l.Describes g ∧
      g.callArgs names .fetch =
        (f.bindings.flatMap fun b => b.value.occurrences param).map fetchArgs ∧
      (∀ b ∈ g.bindings, ∀ e ∈ b.value.inside, e.argsOf? names .fetch = none) ∧
      (∀ e ∈ g.result :: g.result.inside, e.argsOf? names .fetch = none) ∧
      ∀ h ∈ l.segments, h.FetchesFirst (StoreCalls.intern table).1 names param := by
  obtain ⟨plan, s, l, has_plan, resolved, -, describes, -⟩ := Layout.exists_of_stream streamed
  have planned := Planned.of_plan has_plan
  have first := fun h (mem : h ∈ l.segments) => l.fetchesFirst planned resolved avoids mem
  refine ⟨plan.convention.param, plan, l, planned.follows.params, has_plan, describes, ?_, ?_, ?_,
    first⟩
  · rw [callArgs, describes.code, Layout.code, List.filterMap_flatMap, ← l.sources,
      List.flatMap_map, List.map_flatMap]
    exact List.flatMap_congr fun h mem => (first h mem).filterMap_code
  · intro b mem
    rw [describes.code] at mem
    exact l.no_fetch_inside resolved avoids mem
  · rw [describes.result]
    simp [Expr.inside, Expr.argsOf?]

end Func

/-- Inputs are read as the callee, in a tuple, below another projection and in a nested call; the
first of them is read once more by a binding of its own. -/
def Sample.nestedInputs : Func where
  params := [⟨0⟩]
  blocks :=
    [⟨.dataflow,
      [⟨⟨1⟩, .call (.proj (.var ⟨0⟩) 1)
          [.tuple [.proj (.var ⟨0⟩) 0, .proj (.proj (.var ⟨0⟩) 1) 0],
            .call (.op ⟨6⟩) [.proj (.var ⟨0⟩) 0] .tensor] .tensor⟩,
        ⟨⟨2⟩, .proj (.var ⟨0⟩) 0⟩,
        ⟨⟨3⟩, .tuple [.var ⟨1⟩, .var ⟨2⟩]⟩]⟩]
  result := .var ⟨3⟩
  resultTy := .tuple [.tensor, .tensor]
  vars :=
    [⟨⟨1⟩, .tuple [.tensor, .object]⟩, ⟨⟨2⟩, .tensor⟩, ⟨⟨3⟩, .tensor⟩,
      ⟨⟨5⟩, .tuple [.tensor, .tensor]⟩]
  attrs := []

namespace Func

open Sample in
/-- The first binding needs four fetches, the callee's before those of the arguments. -/
theorem fetch_placement_nestedInputs : ∃ g names,
    nestedInputs.stream tensorNames true = (.ok g, names) ∧ nestedInputs.Avoids names .fetch ∧
      g.callArgs names .fetch = [1, 0, 1, 0, 0].map fetchArgs ∧
      ∀ b ∈ g.bindings, ∀ e ∈ b.value.inside, e.argsOf? names .fetch = none := by
  have streamed : nestedInputs.stream tensorNames true = (.ok _, _) := rfl
  have avoids : nestedInputs.Avoids (StoreCalls.intern tensorNames).2 .fetch := by decide
  obtain ⟨param, plan, l, params, -, -, args, not_inside, -, -⟩ := fetch_placement streamed avoids
  obtain rfl : ⟨0⟩ = param := List.singleton_inj.mp params
  exact ⟨_, _, streamed, avoids, args, not_inside⟩

end Func

end ParamStream
