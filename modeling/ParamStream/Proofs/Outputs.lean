import Mathlib.Data.List.Perm.Basic
import ParamStream.Proofs.Simulation

/-!
# What a streaming form computes

A streaming form is meant to be run in place of its function: fed with the inputs one by one, it
leaves in the store what the function returns.  Whenever the function returns its outputs, the
store holds exactly these outputs at the end of the run of the streaming form, however that run
ends: all of them are committed before any binding can find out that the output is not there.

## Main statements

* `Func.committed_outputs` — the outputs are in the store.
-/

namespace ParamStream

/-! ### Outputs by slot -/

namespace ParamStore

/-- A store that holds a list of values, each in the slot of its position, lists them in order. -/
theorem outputsBySlot_eq {s : ParamStore} {values : List Value}
    (distinct : s.outputs.keys.Nodup) (holds : ∀ slot, s.outputs.get? slot = values[slot]?) :
    s.outputsBySlot = values.zipIdx.map Prod.swap := by
  have listed_keys : (values.zipIdx.map Prod.swap).map Prod.fst = List.range' 0 values.length := by
    rw [List.map_map, ← List.zipIdx_map_snd 0 values]
    rfl
  have same_members : s.outputs.Perm (values.zipIdx.map Prod.swap) := by
    rw [List.perm_ext_iff_of_nodup distinct.of_map]
    · rintro ⟨slot, x⟩
      rw [Assoc.mem_iff_get? distinct, holds slot, List.mem_map]
      simp only [Prod.exists, List.mem_zipIdx_iff_getElem?, Prod.swap_prod_mk, Prod.mk.injEq]
      constructor
      · exact fun at_slot => ⟨x, slot, at_slot, rfl, rfl⟩
      · rintro ⟨y, k, at_k, rfl, rfl⟩
        exact at_k
    · have nodup : ((values.zipIdx.map Prod.swap).map Prod.fst).Nodup := by
        rw [listed_keys]
        exact List.nodup_range'
      exact nodup.of_map
  have sorted : (s.outputsBySlot).Pairwise fun a b => decide (a.1 ≤ b.1) = true := by
    refine List.pairwise_mergeSort ?_ ?_ s.outputs
    · intro a b c first second
      simp only [decide_eq_true_eq] at first second ⊢
      omega
    · intro a b
      simp only [Bool.or_eq_true, decide_eq_true_eq]
      omega
  have listed_sorted :
      (values.zipIdx.map Prod.swap).Pairwise fun a b => decide (a.1 ≤ b.1) = true := by
    have ascending : ((values.zipIdx.map Prod.swap).map Prod.fst).Pairwise (· < ·) := by
      rw [listed_keys]
      exact List.pairwise_lt_range'
    refine (List.pairwise_map.mp ascending).imp fun {a b} before => ?_
    exact decide_eq_true (Nat.le_of_lt before)
  have permuted : s.outputsBySlot.Perm s.outputs := List.mergeSort_perm _ _
  refine List.Perm.eq_of_pairwise ?_ sorted listed_sorted (permuted.trans same_members)
  intro a b a_mem b_mem below above
  simp only [decide_eq_true_eq] at below above
  have same_slot : a.1 = b.1 := by omega
  have at_a := (Assoc.mem_iff_get? distinct).mp (permuted.mem_iff.mp a_mem)
  have at_b := (Assoc.mem_iff_get? distinct).mp (same_members.mem_iff.mpr b_mem)
  rw [same_slot] at at_a
  exact Prod.ext same_slot (Option.some.inj (at_a.symm.trans at_b))

/-- Only commits change the outputs. -/
theorem outputs_call {name : String} (no_commit : StoreService.ofName? name ≠ some .commit)
    (args : List Value) (s : ParamStore) :
    ((ParamStore.host.call name args).run s).state.outputs = s.outputs := by
  simp only [host, EStateM.run, answer?]
  split
  · split <;> rfl
  · next _ _ is_commit => exact absurd is_commit no_commit
  · rfl
  · rfl

end ParamStore

/-! ### Functions that return -/

namespace Evaluator

/-- A function that returns has computed its outputs when it comes to its output tuple. -/
theorem exists_outputs_of_run {m : Evaluator} {f : Func} {c : Convention} {i : Interface}
    (follows : f.Follows c) (o : OutputTuple f c i) {arg v : Value}
    (returns : (m.run .absent f [arg]).run () = .ok v ()) :
    ∃ frame values,
      (m.evalBindings .absent ((Frame.blank f.vars.length).bind c.param arg) o.before).run () =
        .ok frame () ∧
      v = .tuple values ∧ values.map some = o.fields.map frame.get? := by
  rw [run_of_follows m .absent follows, o.split] at returns
  have inside : c.output.index <
      ((Frame.blank f.vars.length).bind c.param arg).length := by
    rw [Frame.length_bind, Frame.blank, List.length_replicate]
    exact o.output_lt follows
  obtain ⟨frame, t, t', before_end, tuple_ends⟩ :=
    exists_value_of_run (o.output_notMem_after follows) inside returns
  rw [eval] at tuple_ends
  obtain ⟨values, t'', fields_end, whole⟩ := EStateM.run_bind_eq_ok_iff.mp tuple_ends
  rw [EStateM.run_pure] at whole
  exact ⟨frame, values, before_end, (EStateM.Result.ok.inj whole).1.symm,
    values_of_run_vars fields_end⟩

/-- A function that returns without a host calls none. -/
theorem hosts_eq_nil_of_run {m : Evaluator} {f : Func} {c : Convention} (follows : f.Follows c)
    {arg v : Value} (returns : (m.run .absent f [arg]).run () = .ok v ()) :
    ∀ b ∈ f.bindings, b.value.hosts = [] := by
  rw [run_of_follows m .absent follows] at returns
  obtain ⟨frame, ⟨⟩, ends, -⟩ := EStateM.run_bind_eq_ok_iff.mp returns
  exact (evalBindings_of_absent ends).1

end Evaluator

/-- A function without references to host functions refers to no service, under any names. -/
theorem Func.Follows.independent_of_hosts {f : Func} {c : Convention} (follows : f.Follows c)
    (hostless : ∀ b ∈ f.bindings, b.value.hosts = []) (table : SymbolTable) :
    f.Independent table := by
  refine ⟨fun b mem name name_mem => ?_, fun name name_mem => ?_⟩
  · rw [hostless b mem] at name_mem
    simp at name_mem
  · rw [follows.result] at name_mem
    simp [Expr.hosts] at name_mem

/-! ### The outputs are in the store -/

namespace Layout

variable {f : Func} {calls : StoreCalls} {plan : Plan} {tracked : List VarId}
variable (l : Layout f calls plan)

/-- The segments around that of the output. -/
theorem exists_output_split (o : OutputTuple f plan.convention plan.interface) :
    ∃ done g later, l.segments = done ++ g :: later ∧ done.map Segment.source = o.before ∧
      g.source = ⟨plan.convention.output, .tuple (o.fields.map .var)⟩ ∧
      later.map Segment.source = o.after := by
  have sources := l.sources
  rw [o.split, List.map_eq_append_iff] at sources
  obtain ⟨done, rest, split, done_sources, rest_sources⟩ := sources
  obtain ⟨g, later, rfl, g_source, later_sources⟩ := List.map_eq_cons_iff.mp rest_sources
  exact ⟨done, g, later, split, done_sources, g_source, later_sources⟩

/-- From the binding of the output on, nothing is committed. -/
theorem slots_eq_nil (planned : f.Planned plan tracked)
    (o : OutputTuple f plan.convention plan.interface) {h : Segment} (mem : h ∈ l.segments)
    (late : h.source.var = plan.convention.output ∨ h.source.var ∈ o.after.map Binding.var) :
    h.slots = [] := by
  rw [List.eq_nil_iff_forall_not_mem]
  intro slot slot_mem
  rw [l.mem_slots planned o mem, ← o.mem_slots, o.slots_eq_nil planned.follows late] at slot_mem
  simp at slot_mem

/-- From the output tuple on, code calls no commit if the function calls no host. -/
theorem no_commit_of_late {table : SymbolTable} (resolved : calls.Resolved table)
    (hostless : ∀ b ∈ f.bindings, b.value.hosts = []) {h : Segment} (mem : h ∈ l.segments)
    (no_slots : h.slots = []) {b : Binding} (b_mem : b ∈ h.code calls) :
    ∀ name ∈ b.value.hosts, StoreService.ofName? (table.resolve name) ≠ some .commit := by
  intro name name_mem
  have fetch : StoreService.ofName? (table.resolve calls.fetchName) ≠ some .commit := by
    rw [resolved.fetch]
    decide
  have release : StoreService.ofName? (table.resolve calls.releaseName) ≠ some .commit := by
    rw [resolved.release]
    decide
  rcases Segment.cases_of_mem_code b_mem with ⟨i, -, is_fetch⟩ | rfl | ⟨slot, slot_mem, -⟩ |
    ⟨t, -, is_release⟩
  · rw [is_fetch, StoreCalls.hosts_fetch, List.mem_singleton] at name_mem
    exact name_mem ▸ fetch
  · by_cases is_output : h.source.var = plan.convention.output
    · have value := (l.isOutput h mem is_output).value
      simp only [value, Expr.hosts, Expr.hostsAll_eq_flatMap, List.flatMap_map] at name_mem
      simp at name_mem
    · have value := (l.isValue h mem is_output).value
      simp only [value, Expr.streamed] at name_mem
      split at name_mem
      · rw [StoreCalls.hosts_fetch, List.mem_singleton] at name_mem
        exact name_mem ▸ fetch
      · rw [Expr.hosts_redirect, hostless _ (l.source_mem mem)] at name_mem
        simp at name_mem
  · rw [no_slots] at slot_mem
    simp at slot_mem
  · rw [is_release, StoreCalls.hosts_release, List.mem_singleton] at name_mem
    exact name_mem ▸ release

/-- Once the function has computed its outputs, the store has them, and nothing that the
streaming form does afterwards changes that. -/
theorem outputs_of_run {m : Evaluator} {g : Func} {inputs : List Value} {frame : Frame}
    (planned : f.Planned plan tracked) (o : OutputTuple f plan.convention plan.interface)
    (describes : l.Describes g) (resolved : calls.Resolved m.symbols)
    (hostless : ∀ b ∈ f.bindings, b.value.hosts = [])
    (ends : (m.evalBindings .absent
      ((Frame.blank f.vars.length).bind plan.convention.param (.tuple inputs)) o.before).run () =
        .ok frame ()) :
    ((m.run ParamStore.host g []).run { inputs }).state.outputs.keys.Nodup ∧
      ∀ slot, ((m.run ParamStore.host g []).run { inputs }).state.outputs.get? slot =
        (o.fields[slot]?).bind frame.get? := by
  obtain ⟨done, h, later, split, done_sources, h_source, later_sources⟩ := l.exists_output_split o
  have independent := planned.follows.independent_of_hosts hostless m.symbols
  have unchanged : done.map (fun g => g.source.acknowledged plan.convention.output) = o.before := by
    rw [← done_sources]
    refine List.map_congr_left fun g mem => if_neg ?_
    exact o.var_ne_output planned.follows _
      (List.mem_append_left _ (done_sources ▸ List.mem_map_of_mem mem))
  have from_start : l.segments = [] ++ (done ++ h :: later) := split
  have lockstep := lockstep_segments ParamStore.serves resolved independent planned
    (l.agrees_start planned inputs (o := o)) from_start ()
  rw [unchanged, ends] at lockstep
  obtain ⟨new, s, segments_end, _, rfl, agrees⟩ := lockstep.of_ok
  -- What is left to run calls no commit.
  have late : ∀ h' ∈ h :: later, h'.slots = [] := by
    intro h' mem
    refine l.slots_eq_nil planned o (split ▸ List.mem_append_right _ mem) ?_
    rcases List.mem_cons.mp mem with rfl | mem
    · exact .inl (by rw [h_source])
    · rw [← later_sources, List.map_map]
      exact .inr (List.mem_map_of_mem mem)
  have keeps : ∀ b ∈ (h :: later).flatMap (Segment.code calls),
      m.Keeps ParamStore.host (fun t => t.outputs = s.outputs) b.value.hosts := by
    intro b mem name name_mem args t same
    obtain ⟨h', h'_mem, b_mem⟩ := List.mem_flatMap.mp mem
    have h'_segment : h' ∈ l.segments := split ▸ List.mem_append_right _ h'_mem
    rw [ParamStore.outputs_call
      (l.no_commit_of_late resolved hostless h'_segment (late h' h'_mem) b_mem name name_mem), same]
  have code_split : l.code =
      done.flatMap (Segment.code calls) ++ (h :: later).flatMap (Segment.code calls) := by
    rw [code, split, List.flatMap_append]
  have done_end : (m.evalBindings ParamStore.host (Frame.blank (Segment.sizes l.segments))
      (done.flatMap (Segment.code calls))).run { inputs } = .ok new s := segments_end
  have kept : ((m.run ParamStore.host g []).run { inputs }).state.outputs = s.outputs := by
    rw [Evaluator.run_of_describes m _ describes, code_split, Evaluator.evalBindings_append,
      bind_assoc, EStateM.run_bind, done_end]
    refine Evaluator.state_bind (P := fun t : ParamStore => t.outputs = s.outputs)
      (Evaluator.state_evalBindings keeps rfl) fun frame t same => ?_
    refine Evaluator.state_eval (P := fun t : ParamStore => t.outputs = s.outputs)
      (fun name name_mem => ?_) same
    simp [Expr.hosts] at name_mem
  rw [kept]
  exact ⟨agrees.distinct, agrees.outputs⟩

end Layout

namespace Func

/-- **The outputs are in the store.**  If a function returns, it returns a tuple, and however the
run of its streaming form ends, the store then holds the fields of that tuple in their slots and
nothing else. -/
theorem committed_outputs {f g : Func} {table names : SymbolTable} {intermediates : Bool}
    {operators : OperatorTable} {inputs : List Value} {v : Value}
    (streamed : (f.stream table intermediates).1 = .ok g)
    (returns : f.runOn names operators inputs = .ok v ()) :
    ∃ values, v = .tuple values ∧
      (g.runFrom (f.stream table intermediates).2 operators inputs).state.outputsBySlot =
        values.zipIdx.map Prod.swap := by
  obtain ⟨plan, has_plan, lowered⟩ := stream_eq_ok_iff.mp streamed
  have planned := Planned.of_plan has_plan
  obtain ⟨l, -, describes, -, -⟩ := Layout.exists_of_lower planned lowered
  obtain ⟨o⟩ := planned.follows.exists_outputTuple planned.interface
  have resolved := StoreCalls.resolved_intern table
  rw [stream_snd streamed]
  have hostless := Evaluator.hosts_eq_nil_of_run planned.follows returns
  obtain ⟨frame, values, ends, rfl, fields⟩ :=
    Evaluator.exists_outputs_of_run planned.follows o returns
  have alike := (Evaluator.evalBindings_of_absent ends).2 (StoreCalls.intern table).2 .absent ()
  obtain ⟨distinct, holds⟩ := l.outputs_of_run
    (m := ⟨(StoreCalls.intern table).2, operators⟩) planned o describes resolved hostless alike
  refine ⟨values, rfl, ParamStore.outputsBySlot_eq distinct fun slot => ?_⟩
  refine (holds slot).trans ?_
  have at_slot := congrArg (fun xs => xs[slot]?) fields
  simp only [List.getElem?_map] at at_slot
  cases found : o.fields[slot]? with
  | none =>
    rw [found, Option.map_none, Option.map_eq_none_iff] at at_slot
    rw [at_slot]
    rfl
  | some v =>
    rw [found, Option.map_some, Option.map_eq_some_iff] at at_slot
    obtain ⟨x, is_x, bound⟩ := at_slot
    rw [is_x, Option.bind_some, bound]

end Func

/-! ### An instance -/

namespace Sample

def names : SymbolTable := ⟨["params", "x", "y", "out", "z", "add", "neg"], by decide⟩

def operators : OperatorTable := [(⟨6⟩, Operator.add), (⟨7⟩, Operator.neg)]

/-- Two integers `x` and `y` come in, `x + y`, `x` and `x + y` go out, and something more is
computed afterwards. -/
def sums (afterwards : Expr) : Func where
  params := [⟨0⟩]
  blocks :=
    [⟨.dataflow,
      [⟨⟨1⟩, .proj (.var ⟨0⟩) 0⟩,
        ⟨⟨2⟩, .call (.op ⟨6⟩) [.var ⟨1⟩, .proj (.var ⟨0⟩) 1] .int⟩,
        ⟨⟨3⟩, .tuple [.var ⟨2⟩, .var ⟨1⟩, .var ⟨2⟩]⟩,
        ⟨⟨4⟩, afterwards⟩]⟩]
  result := .var ⟨3⟩
  resultTy := .tuple [.int, .int, .int]
  vars :=
    [⟨⟨1⟩, .tuple [.int, .int]⟩, ⟨⟨2⟩, .int⟩, ⟨⟨3⟩, .int⟩, ⟨⟨4⟩, .tuple [.int, .int, .int]⟩,
      ⟨⟨5⟩, .int⟩]
  attrs := []

/-- The negation of a value. -/
def negated (e : Expr) : Expr := .call (.op ⟨7⟩) [e] .int

/-- Afterwards, the first output is negated: it is read from the output tuple. -/
def outputNegated : Func := sums (negated (.proj (.var ⟨3⟩) 0))

theorem outputNegated_returns :
    outputNegated.runOn names operators [.int 4, .int 5] =
      .ok (.tuple [.int 9, .int 4, .int 9]) () := rfl

end Sample

namespace Func

open Sample in
/-- The outputs are in the store although the run ends with an error: what is negated in the
streaming form is an acknowledgement. -/
theorem committed_outputs_of_failure : ∃ g e s,
    (outputNegated.stream names true).1 = .ok g ∧
      g.runFrom (outputNegated.stream names true).2 operators [.int 4, .int 5] = .error e s ∧
      s.outputsBySlot = [(0, .int 9), (1, .int 4), (2, .int 9)] := by
  refine ⟨_, _, _, rfl, rfl, ?_⟩
  have streamed : (outputNegated.stream names true).1 = .ok _ := rfl
  obtain ⟨values, same, stored⟩ := committed_outputs streamed outputNegated_returns
  cases same
  exact stored

end Func

end ParamStream
