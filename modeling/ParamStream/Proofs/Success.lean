import ParamStream.Proofs.Outputs
import ParamStream.Proofs.Progress

/-!
# When a streaming form succeeds

Where a function returns, its streaming form need not: bindings may compute with the output tuple,
and in the streaming form they find acknowledgements in it.  The streaming form succeeds exactly
when the function still returns with acknowledgements for outputs, and that is so in particular
when no binding reads the output.

When no binding reads the output, the function and the one with acknowledged outputs run in
lockstep.  The only step that differs is the output tuple itself, and neither of the two can fail
there: the fields are defined by then, so the frame holds their values.  A streaming form then
fails wherever its function does.

## Main statements

* `Evaluator.lockstep_acknowledged` — code that does not read the output;
* `Func.streaming_succeeds_iff` — when the streaming form succeeds, and what it returns;
* `Func.streaming_fails_on_output` — a function that returns although its streaming form fails;
* `Func.returns_of_streaming_succeeds` — a streaming form that succeeds hides no failure.
-/

namespace ParamStream

/-! ### Frames that differ in the output -/

namespace Frame

/-- The frames agree on every variable other than `output`, and on whether that is bound. -/
structure AgreeBut (output : VarId) (old new : Frame) : Prop where
  length : old.length = new.length
  others : ∀ v, v ≠ output → old.get? v = new.get? v
  bound : (old.get? output).isSome = (new.get? output).isSome

namespace AgreeBut

variable {output : VarId} {old new : Frame}

theorem refl (output : VarId) (frame : Frame) : AgreeBut output frame frame :=
  ⟨rfl, fun _ _ => rfl, rfl⟩

/-- Binding a variable to the same value keeps the agreement; for the output, the values may
differ. -/
theorem bind (agree : AgreeBut output old new) {v : VarId} {x y : Value}
    (same : v ≠ output → x = y) : AgreeBut output (old.bind v x) (new.bind v y) where
  length := by rw [length_bind, length_bind, agree.length]
  others w other := by
    rw [get?_bind, get?_bind, agree.length, agree.others w other]
    by_cases here : v = w
    · rw [same (here ▸ other)]
    · rw [if_neg fun both => here both.1, if_neg fun both => here both.1]
  bound := by
    rw [get?_bind, get?_bind, agree.length]
    split
    · rfl
    · exact agree.bound

end AgreeBut

end Frame

namespace Evaluator

variable {σ : Type}

/-- A tuple of variables that have values has one, too. -/
theorem exists_tuple_of_holds (m : Evaluator) (host : Host σ) {frame : Frame} {vs : List VarId}
    (holds : frame.Holds vs) :
    ∃ xs, m.eval host frame (.tuple (vs.map .var)) = pure (.tuple xs) := by
  have fields : ∃ xs, m.evalAll host frame (vs.map .var) = pure xs := by
    induction vs with
    | nil => exact ⟨[], rfl⟩
    | cons v vs ih =>
      obtain ⟨x, bound⟩ := holds v List.mem_cons_self
      obtain ⟨xs, rest⟩ := ih (holds.mono fun w mem => List.mem_cons_of_mem _ mem)
      refine ⟨x :: xs, ?_⟩
      rw [List.map_cons, evalAll, rest, eval, bound]
      rfl
  obtain ⟨xs, values⟩ := fields
  exact ⟨xs, by rw [eval, values, pure_bind]⟩

/-- Code that does not read the output runs alike with acknowledgements for it. -/
theorem lockstep_acknowledged (m : Evaluator) (host : Host σ) {output : VarId}
    {bs : List Binding} {defined : List VarId} {old new : Frame}
    (ordered : Scope.Ordered old.length defined bs) (holds : old.Holds defined)
    (unread : ∀ b ∈ bs, output ∉ b.value.reads)
    (is_tuple : ∀ b ∈ bs, b.var = output → ∃ vs : List VarId, b.value = .tuple (vs.map .var))
    (agree : old.AgreeBut output new) (s : σ) :
    EStateM.Result.Lockstep (fun old' s' new' t' => s' = t' ∧ old'.AgreeBut output new')
      ((m.evalBindings host old bs).run s)
      ((m.evalBindings host new (bs.map (Binding.acknowledged output))).run s) := by
  induction bs generalizing old new defined s with
  | nil => exact ⟨rfl, agree⟩
  | cons b bs ih =>
    obtain ⟨reads, inside, -, rest⟩ := ordered
    rw [List.forall_mem_cons] at unread is_tuple
    have value : EStateM.Result.Lockstep
        (fun x s' y t' => s' = t' ∧ (b.var ≠ output → x = y))
        ((m.eval host old b.value).run s)
        ((m.eval host new (b.acknowledged output).value).run s) := by
      by_cases is_output : b.var = output
      · obtain ⟨vs, tuple⟩ := is_tuple.1 is_output
        have fields_hold : old.Holds vs := by
          refine holds.mono fun v mem => (reads v ?_).2
          rw [tuple, Expr.reads_tuple_vars]
          exact mem
        obtain ⟨xs, evaluates⟩ := exists_tuple_of_holds m host fields_hold
        rw [m.eval_acknowledged host new is_output tuple, tuple, evaluates]
        exact ⟨rfl, fun ordinary => absurd is_output ordinary⟩
      · have same : m.eval host old b.value = m.eval host new b.value :=
          eval_congr fun v read => agree.others v fun is_out => unread.1 (is_out ▸ read)
        rw [show b.acknowledged output = b from if_neg is_output, same]
        exact .refl (fun _ _ => ⟨rfl, fun _ => rfl⟩) _
    rw [List.map_cons, evalBindings, evalBindings, Binding.var_acknowledged]
    refine value.bind fun x s' y t' related => ?_
    obtain ⟨rfl, same⟩ := related
    exact ih (by rwa [Frame.length_bind]) (holds.bind inside x) unread.2 is_tuple.2
      (agree.bind same) s'

end Evaluator

namespace Func

variable {f : Func} {c : Convention} {i : Interface} {m : Evaluator} {arg : Value}

/-- With acknowledged outputs, a function returns nothing but acknowledgements. -/
theorem eq_of_run_acknowledged (follows : f.Follows c) (o : OutputTuple f c i) {w : Value}
    (returns : (m.run .absent (f.acknowledged c.output) [arg]).run () = .ok w ()) :
    w = .tuple (List.replicate o.fields.length .unit) := by
  rw [m.run_acknowledged .absent follows, o.split, List.map_append, List.map_cons] at returns
  have once : c.output ∉ (o.after.map (Binding.acknowledged c.output)).map Binding.var := by
    have same_vars : Binding.var ∘ Binding.acknowledged c.output = Binding.var := by
      funext b
      exact Binding.var_acknowledged c.output b
    rw [List.map_map, same_vars]
    exact o.output_notMem_after follows
  have inside : c.output.index < ((Frame.blank f.vars.length).bind c.param arg).length := by
    rw [Frame.length_bind, Frame.blank, List.length_replicate]
    exact o.output_lt follows
  obtain ⟨frame, t, t', -, value_ends⟩ := Evaluator.exists_value_of_run
    (b := Binding.acknowledged c.output ⟨c.output, .tuple (o.fields.map .var)⟩)
    (by rwa [Binding.var_acknowledged]) (by rwa [Binding.var_acknowledged])
    (by simpa only [Binding.var_acknowledged] using returns)
  have value : m.eval .absent frame
      (Binding.acknowledged c.output ⟨c.output, .tuple (o.fields.map .var)⟩).value =
        pure (.tuple (List.replicate o.fields.length .unit)) :=
    m.eval_acknowledged .absent frame rfl rfl
  rw [value, EStateM.run_pure] at value_ends
  exact (EStateM.Result.ok.inj value_ends).1.symm

/-- A function that does not read its output runs alike with acknowledged outputs. -/
theorem lockstep_run_acknowledged (follows : f.Follows c) (o : OutputTuple f c i)
    (unread : ∀ b ∈ f.bindings, c.output ∉ b.value.reads) {σ : Type} (m : Evaluator)
    (host : Host σ) (arg : Value) (s : σ) :
    EStateM.Result.Lockstep (fun _ s' _ t' => s' = t') ((m.run host f [arg]).run s)
      ((m.run host (f.acknowledged c.output) [arg]).run s) := by
  have size : ((Frame.blank f.vars.length).bind c.param arg).length = f.vars.length := by
    rw [Frame.length_bind, Frame.blank, List.length_replicate]
  have holds : ((Frame.blank f.vars.length).bind c.param arg).Holds [c.param] := by
    have nothing : (Frame.blank f.vars.length).Holds [] := by simp [Frame.Holds]
    refine nothing.bind ?_ arg
    rw [Frame.blank, List.length_replicate]
    exact follows.param_lt
  have is_tuple : ∀ b ∈ f.bindings, b.var = c.output →
      ∃ vs : List VarId, b.value = .tuple (vs.map .var) :=
    fun b mem is_output => ⟨o.fields, by rw [o.eq_of_var_eq follows mem is_output]⟩
  have bindings := m.lockstep_acknowledged host (size.symm ▸ follows.ordered) holds unread is_tuple
    (Frame.AgreeBut.refl c.output _) s
  rw [Evaluator.run_of_follows m host follows, m.run_acknowledged host follows]
  refine bindings.bind fun old s' new t' related => ?_
  obtain ⟨rfl, agree⟩ := related
  have bound := agree.bound
  rw [Evaluator.eval, Evaluator.eval]
  cases old_value : old.get? c.output with
  | some v =>
    rw [old_value, Option.isSome_some] at bound
    obtain ⟨w, new_value⟩ := Option.isSome_iff_exists.mp bound.symm
    rw [new_value]
    exact rfl
  | none =>
    rw [old_value, Option.isSome_none] at bound
    have new_value : new.get? c.output = none := by simpa using bound.symm
    rw [new_value]
    trivial

/-- A function that does not read its output also returns with acknowledged outputs. -/
theorem exists_run_acknowledged (follows : f.Follows c) (o : OutputTuple f c i)
    (unread : ∀ b ∈ f.bindings, c.output ∉ b.value.reads) {σ : Type} {host : Host σ} {s s' : σ}
    {v : Value} (returns : (m.run host f [arg]).run s = .ok v s') :
    ∃ w, (m.run host (f.acknowledged c.output) [arg]).run s = .ok w s' := by
  have lockstep := lockstep_run_acknowledged follows o unread m host arg s
  rw [returns] at lockstep
  obtain ⟨w, t, ends, rfl⟩ := lockstep.of_ok
  exact ⟨w, ends⟩

/-- **Success.**  Where a function returns, its streaming form succeeds exactly if the function
also returns with acknowledged outputs, and then it returns an acknowledgement for each output.
This is so in particular if no binding reads the output. -/
theorem streaming_succeeds_iff {f g : Func} {table names : SymbolTable} {intermediates : Bool}
    {operators : OperatorTable} {inputs values : List Value} {output : VarId}
    (streamed : (f.stream table intermediates).1 = .ok g) (result : f.result = .var output)
    (returns : f.runOn names operators inputs = .ok (.tuple values) ()) :
    ((∃ w s, g.runFrom (f.stream table intermediates).2 operators inputs = .ok w s) ↔
      ∃ w, (f.acknowledged output).runOn names operators inputs = .ok w ()) ∧
    (∀ w s, g.runFrom (f.stream table intermediates).2 operators inputs = .ok w s →
      w = .tuple (List.replicate values.length .unit)) ∧
    ((∀ b ∈ f.bindings, output ∉ b.value.reads) →
      ∃ s, g.runFrom (f.stream table intermediates).2 operators inputs =
        .ok (.tuple (List.replicate values.length .unit)) s) := by
  obtain ⟨plan, has_plan, lowered⟩ := stream_eq_ok_iff.mp streamed
  have planned := Planned.of_plan has_plan
  obtain ⟨l, -, describes, -, -⟩ := Layout.exists_of_lower planned lowered
  obtain ⟨o⟩ := planned.follows.exists_outputTuple planned.interface
  obtain rfl : plan.convention.output = output :=
    Expr.var.inj (planned.follows.result.symm.trans result)
  obtain ⟨frame, values', -, same_values, fields⟩ :=
    Evaluator.exists_outputs_of_run planned.follows o returns
  have arity : o.fields.length = values.length := by
    have lengths := congrArg List.length fields
    rw [List.length_map, List.length_map] at lengths
    rw [Value.tuple.inj same_values, lengths]
  have independent : f.Independent (StoreCalls.intern table).2 :=
    planned.follows.independent_of_hosts
      (Evaluator.hosts_eq_nil_of_run planned.follows returns) _
  have lockstep := Layout.lockstep_run (m := ⟨(StoreCalls.intern table).2, operators⟩)
    ParamStore.serves (StoreCalls.resolved_intern table) independent planned describes inputs ()
  rw [stream_snd streamed]
  have forward : ∀ w,
      (f.acknowledged plan.convention.output).runOn names operators inputs = .ok w () →
        ∃ s, g.runFrom (StoreCalls.intern table).2 operators inputs =
          .ok (.tuple (List.replicate values.length .unit)) s := by
    intro w returns'
    have alike := Evaluator.run_of_absent returns' (StoreCalls.intern table).2
    rw [alike] at lockstep
    obtain ⟨y, s, ends, rfl, -⟩ := lockstep.of_ok
    rw [eq_of_run_acknowledged planned.follows o returns', arity] at ends
    exact ⟨s, ends⟩
  have backward : ∀ w s, g.runFrom (StoreCalls.intern table).2 operators inputs = .ok w s →
      (f.acknowledged plan.convention.output).runOn names operators inputs = .ok w () := by
    intro w s ends
    rw [show (Evaluator.run ⟨(StoreCalls.intern table).2, operators⟩ ParamStore.host g []).run
      (ParamStore.serves.state { inputs } ()) = .ok w s from ends] at lockstep
    obtain ⟨x, ⟨⟩, returns', rfl, -⟩ := lockstep.of_ok_right
    exact Evaluator.run_of_absent returns' names
  refine ⟨⟨?_, ?_⟩, ?_, ?_⟩
  · rintro ⟨w, s, ends⟩
    exact ⟨w, backward w s ends⟩
  · rintro ⟨w, returns'⟩
    obtain ⟨s, ends⟩ := forward w returns'
    exact ⟨_, s, ends⟩
  · intro w s ends
    rw [eq_of_run_acknowledged planned.follows o (backward w s ends), arity]
  · intro unread
    obtain ⟨w, returns'⟩ := exists_run_acknowledged planned.follows o unread returns
    exact forward w returns'

open Sample in
/-- A function that computes on after its output tuple, without reading it. -/
theorem streaming_succeeds_of_unread : ∃ g s,
    ((sums (negated (.var ⟨2⟩))).stream names true).1 = .ok g ∧
      g.runFrom ((sums (negated (.var ⟨2⟩))).stream names true).2 operators [.int 4, .int 5] =
        .ok (.tuple [.unit, .unit, .unit]) s := by
  have returns : (sums (negated (.var ⟨2⟩))).runOn names operators [.int 4, .int 5] =
      .ok (.tuple [.int 9, .int 4, .int 9]) () := rfl
  have streamed : ((sums (negated (.var ⟨2⟩))).stream names true).1 = .ok _ := rfl
  obtain ⟨s, ends⟩ := (streaming_succeeds_iff streamed rfl returns).2.2 (by decide)
  exact ⟨_, s, streamed, ends⟩

open Sample in
/-- **A function may return where its streaming form fails.**  The last binding negates the first
output, read from the output tuple; in the streaming form it finds an acknowledgement there, which
cannot be negated. -/
theorem streaming_fails_on_output :
    outputNegated.runOn names operators [.int 4, .int 5] =
        .ok (.tuple [.int 9, .int 4, .int 9]) () ∧
      ∃ g s, (outputNegated.stream names false).1 = .ok g ∧
        g.runFrom (outputNegated.stream names false).2 operators [.int 4, .int 5] =
          .error (.opFailed "neg" "non-int operand") s :=
  ⟨outputNegated_returns, _, _, rfl, rfl⟩

/-- **No failure is hidden.**  If a function refers to no host function and none of its bindings
reads the output, it returns wherever its streaming form succeeds. -/
theorem returns_of_streaming_succeeds {f g : Func} {table names : SymbolTable}
    {intermediates : Bool} {operators : OperatorTable} {inputs : List Value} {output : VarId}
    (streamed : (f.stream table intermediates).1 = .ok g)
    (hostless : ∀ b ∈ f.bindings, b.value.hosts = []) (result : f.result = .var output)
    (unread : ∀ b ∈ f.bindings, output ∉ b.value.reads) {w : Value} {s : ParamStore}
    (succeeds : g.runFrom (f.stream table intermediates).2 operators inputs = .ok w s) :
    ∃ v, f.runOn names operators inputs = .ok v () := by
  obtain ⟨plan, has_plan, lowered⟩ := stream_eq_ok_iff.mp streamed
  have planned := Planned.of_plan has_plan
  obtain ⟨l, -, describes, -, -⟩ := Layout.exists_of_lower planned lowered
  obtain ⟨o⟩ := planned.follows.exists_outputTuple planned.interface
  obtain rfl : plan.convention.output = output :=
    Expr.var.inj (planned.follows.result.symm.trans result)
  rw [stream_snd streamed] at succeeds
  -- The streaming form runs in lockstep with the function whose outputs are acknowledged.
  have streaming := Layout.lockstep_run (m := ⟨(StoreCalls.intern table).2, operators⟩)
    ParamStore.serves (StoreCalls.resolved_intern table)
    (planned.follows.independent_of_hosts hostless _) planned describes inputs ()
  rw [show (Evaluator.run ⟨(StoreCalls.intern table).2, operators⟩ ParamStore.host g []).run
    (ParamStore.serves.state { inputs } ()) = .ok w s from succeeds] at streaming
  obtain ⟨x, ⟨⟩, acknowledged_returns, -⟩ := streaming.of_ok_right
  -- That one runs in lockstep with the function itself.
  have acknowledged := lockstep_run_acknowledged planned.follows o unread
    ⟨(StoreCalls.intern table).2, operators⟩ .absent (.tuple inputs) ()
  rw [acknowledged_returns] at acknowledged
  obtain ⟨v, ⟨⟩, returns, -⟩ := acknowledged.of_ok_right
  exact ⟨v, Evaluator.run_of_absent returns names⟩

open Sample in
/-- The streaming form of a function with a nested input succeeds, so the function returns. -/
theorem returns_of_streaming_succeeds_sums : ∃ g w s,
    ((sums (negated (.var ⟨2⟩))).stream names false).1 = .ok g ∧
      g.runFrom ((sums (negated (.var ⟨2⟩))).stream names false).2 operators [.int 4, .int 5] =
        .ok w s ∧
      ∃ v, (sums (negated (.var ⟨2⟩))).runOn names operators [.int 4, .int 5] = .ok v () := by
  refine ⟨_, _, _, rfl, rfl, ?_⟩
  have streamed : ((sums (negated (.var ⟨2⟩))).stream names false).1 = .ok _ := rfl
  exact returns_of_streaming_succeeds streamed (by decide) rfl (by decide) rfl

end Func

end ParamStream
