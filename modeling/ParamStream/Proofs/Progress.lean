import ParamStream.Proofs.Evaluation
import ParamStream.Proofs.Scoping

/-!
# Well-scoped functions find their values

The scope check looks at variables and never at values; evaluation looks up values and never
checks.  They meet in the frame: when a binding is evaluated, the frame holds a value for each
variable that the check has counted as defined by then.  What the check asks of reads is then what
evaluation needs, so that a function that passes never misses a value, whatever becomes of its
operators and host calls.

The visit order matters in one place.  A callee is visited by the check but never evaluated, so the
check asks for more than evaluation needs, and never for less.

## Main definitions

* `EStateM.FailsWithin` — a bound on the errors that a computation can end with;
* `EvalError.isMissing` — the errors that say that a value is missing;
* `Frame.Holds` — the frame holds a value for each of the variables.

## Main statements

* `Evaluator.eval_failsWithin` — what one expression needs;
* `Evaluator.evalBindings_failsWithin`, `Evaluator.holds_of_evalBindings` — a run of bindings;
* `Func.run_misses_nothing` — a whole run.
-/

/-! ### Errors that can occur -/

namespace EStateM

variable {ε σ α β : Type} {P : ε → Prop}

/-- From every state, the computation succeeds or ends with an error that has the property. -/
def FailsWithin (P : ε → Prop) (x : EStateM ε σ α) : Prop := ∀ s e t, x.run s = .error e t → P e

namespace FailsWithin

theorem pure (a : α) : (Pure.pure a : EStateM ε σ α).FailsWithin P := nofun

theorem throw {e : ε} (holds : P e) : (MonadExcept.throw e : EStateM ε σ α).FailsWithin P := by
  rintro _ _ _ ⟨⟩
  exact holds

theorem ofExcept {x : Except ε α} (within : x.FailsWithin P) :
    (MonadExcept.ofExcept x : EStateM ε σ α).FailsWithin P := by
  intro s e t failed
  cases x with
  | ok a => cases failed
  | error e' =>
    cases failed
    exact within _ rfl

/-- A sequence fails within the bounds of its parts; the second part may rely on the success of
the first. -/
theorem bind {x : EStateM ε σ α} {k : α → EStateM ε σ β} (first : x.FailsWithin P)
    (rest : ∀ s a t, x.run s = .ok a t → (k a).FailsWithin P) : (x >>= k).FailsWithin P := by
  intro s e t failed
  rw [run_bind] at failed
  cases ends : x.run s with
  | ok a s' =>
    rw [ends] at failed
    exact rest s a s' ends s' e t failed
  | error e' s' =>
    rw [ends] at failed
    cases failed
    exact first s e t ends

end FailsWithin

end EStateM

namespace ParamStream

/-- Whether an error says that a value is missing: a variable was read before it was bound, or
there are more or fewer arguments than parameters. -/
def EvalError.isMissing : EvalError → Bool
  | .unbound _ | .argCount _ _ => true
  | _ => false

/-- The host does not itself report missing values. -/
def Host.Sane {σ : Type} (host : Host σ) : Prop :=
  ∀ name args, (host.call name args).FailsWithin fun e => e.isMissing = false

/-- The parameter store does not report missing values. -/
theorem ParamStore.host_sane : ParamStore.host.Sane := by
  intro name args s e t failed
  simp only [host, EStateM.run, answer?] at failed
  split at failed
  · split at failed
    · cases failed
    · cases failed
      rfl
  · split at failed
    · cases failed
      rfl
    · cases failed
  · cases failed
  · cases failed
    rfl

/-! ### Frames that hold values -/

namespace Frame

/-- The frame holds a value for each of the variables. -/
def Holds (frame : Frame) (vs : List VarId) : Prop := ∀ v ∈ vs, ∃ x, frame.get? v = some x

theorem get?_bind (frame : Frame) (v w : VarId) (value : Value) :
    (frame.bind v value).get? w =
      if v = w ∧ v.index < frame.length then some value else frame.get? w := by
  by_cases same : v = w
  · subst same
    by_cases inside : v.index < frame.length
    · rw [if_pos ⟨rfl, inside⟩, get?_bind_self inside]
    · rw [if_neg fun both => inside both.2, bind, List.set_eq_of_length_le (by omega)]
  · rw [if_neg fun both => same both.1, get?_bind_of_ne same]

namespace Holds

variable {frame : Frame} {vs us : List VarId}

theorem mono (holds : frame.Holds vs) (fewer : ∀ v ∈ us, v ∈ vs) : frame.Holds us :=
  fun v mem => holds v (fewer v mem)

theorem append_iff : frame.Holds (vs ++ us) ↔ frame.Holds vs ∧ frame.Holds us := by
  simp only [Holds, List.mem_append]
  exact ⟨fun all => ⟨fun v mem => all v (.inl mem), fun v mem => all v (.inr mem)⟩,
    fun both v mem => mem.elim (both.1 v) (both.2 v)⟩

/-- Binding a variable of the table adds it to those that have a value. -/
theorem bind (holds : frame.Holds vs) {v : VarId} (inside : v.index < frame.length) (x : Value) :
    (frame.bind v x).Holds (v :: vs) := by
  intro w mem
  rw [get?_bind]
  by_cases same : v = w
  · exact ⟨x, if_pos ⟨same, inside⟩⟩
  · rw [if_neg fun both => same both.1]
    exact holds w ((List.mem_cons.mp mem).resolve_left (Ne.symm same))

/-- With an argument for each of them, all parameters have a value. -/
theorem bindAll (holds : frame.Holds vs) {params : List VarId} {args : List Value}
    (enough : args.length = params.length) (inside : ∀ v ∈ params, v.index < frame.length) :
    (frame.bindAll params args).Holds (params.reverse ++ vs) ∧
      (frame.bindAll params args).length = frame.length := by
  induction params generalizing frame vs args with
  | nil => exact ⟨holds, rfl⟩
  | cons v params ih =>
    cases args with
    | nil => simp at enough
    | cons x args =>
      rw [List.forall_mem_cons] at inside
      have rest := ih (holds.bind inside.1 x) (by simpa using enough)
        (by simpa using inside.2)
      rw [List.reverse_cons, List.append_assoc]
      exact ⟨rest.1, rest.2.trans (length_bind _ _ _)⟩

end Holds

end Frame

namespace Evaluator

variable {σ : Type} {m : Evaluator} {host : Host σ} {frame : Frame}

/-! ### One expression -/

theorem applyOp_failsWithin (m : Evaluator) (op : Symbol) (args : List Value) :
    (m.applyOp op args).FailsWithin fun e => e.isMissing = false := by
  unfold applyOp
  split
  · exact Except.FailsWithin.throw rfl
  · split
    · exact Except.FailsWithin.pure _
    · exact Except.FailsWithin.throw rfl

theorem project_failsWithin (i : Nat) (value : Value) :
    (project i value).FailsWithin fun e => e.isMissing = false := by
  unfold project
  split
  · split
    · exact Except.FailsWithin.pure _
    · exact Except.FailsWithin.throw rfl
  · exact Except.FailsWithin.throw rfl

theorem apply_failsWithin (sane : host.Sane) (callee : Expr) (args : List Value) :
    (m.apply host callee args).FailsWithin fun e => e.isMissing = false := by
  cases callee with
  | op name => exact .ofExcept (m.applyOp_failsWithin name args)
  | host name => exact sane _ _
  | _ => exact .throw rfl

mutual

/-- An expression misses no value if the variables that it reads have one. -/
theorem eval_failsWithin (sane : host.Sane) {e : Expr} (holds : frame.Holds e.reads) :
    (m.eval host frame e).FailsWithin fun e => e.isMissing = false := by
  match e with
  | .var v =>
    obtain ⟨x, bound⟩ := holds v (by simp [Expr.reads])
    simp only [eval, bound]
    exact .pure x
  | .tuple fields =>
    rw [eval]
    exact (evalAll_failsWithin sane holds).bind fun _ _ _ _ => .pure _
  | .proj base i =>
    rw [Expr.reads] at holds
    rw [eval]
    exact (eval_failsWithin sane holds).bind fun _ value _ _ =>
      .ofExcept (project_failsWithin i value)
  | .call callee args ty =>
    rw [Expr.reads, Frame.Holds.append_iff] at holds
    rw [eval]
    exact (evalAll_failsWithin sane holds.2).bind fun _ values _ _ =>
      apply_failsWithin sane callee values
  | .lit l => cases l <;> exact .pure _
  | .host name => exact .throw rfl
  | .op name => exact .throw rfl

/-- `eval_failsWithin` for a list of expressions. -/
theorem evalAll_failsWithin (sane : host.Sane) {es : List Expr}
    (holds : frame.Holds (Expr.readsAll es)) :
    (m.evalAll host frame es).FailsWithin fun e => e.isMissing = false := by
  match es with
  | [] => exact .pure []
  | e :: es =>
    rw [Expr.readsAll, Frame.Holds.append_iff] at holds
    rw [evalAll]
    exact (eval_failsWithin sane holds.1).bind fun _ _ _ _ =>
      (evalAll_failsWithin sane holds.2).bind fun _ _ _ _ => .pure _

end

/-! ### Bindings -/

/-- After bindings in order, the frame holds a value for all that is defined. -/
theorem holds_of_evalBindings {bs : List Binding} {defined : List VarId}
    (ordered : Scope.Ordered frame.length defined bs) (holds : frame.Holds defined)
    {frame' : Frame} {s s' : σ} (ends : (m.evalBindings host frame bs).run s = .ok frame' s') :
    frame'.Holds ((bs.map Binding.var).reverse ++ defined) := by
  induction bs generalizing frame defined s with
  | nil =>
    rw [evalBindings, EStateM.run_pure] at ends
    obtain ⟨rfl, -⟩ := EStateM.Result.ok.inj ends
    exact holds
  | cons b bs ih =>
    obtain ⟨-, inside, -, rest⟩ := ordered
    obtain ⟨x, t, -, rest_ends⟩ := EStateM.run_bind_eq_ok_iff.mp ends
    have later := ih (by rwa [Frame.length_bind]) (holds.bind inside x) rest_ends
    simpa using later

/-- Bindings in order miss no value, from a frame that holds what is defined at the outset.  Each
binding adds its variable to what is defined and its value to the frame. -/
theorem evalBindings_failsWithin (sane : host.Sane) {bs : List Binding} {defined : List VarId}
    (ordered : Scope.Ordered frame.length defined bs) (holds : frame.Holds defined) :
    (m.evalBindings host frame bs).FailsWithin fun e => e.isMissing = false := by
  induction bs generalizing frame defined with
  | nil => exact .pure frame
  | cons b bs ih =>
    obtain ⟨reads, inside, -, rest⟩ := ordered
    have value := eval_failsWithin (m := m) sane (holds.mono fun v read => (reads v read).2)
    rw [evalBindings]
    exact value.bind fun _ x _ _ => ih (by rwa [Frame.length_bind]) (holds.bind inside x)

end Evaluator

namespace Func

/-- **A well-scoped function misses no value.**  Run on as many arguments as it has parameters,
against a host that does not report missing values itself, it never reads a variable before that
is bound. -/
theorem run_misses_nothing {f : Func} (in_scope : f.checkScope = .ok ()) {args : List Value}
    (enough : args.length = f.params.length) (m : Evaluator) {σ : Type} {host : Host σ}
    (sane : host.Sane) {s t : σ} {e : EvalError}
    (fails : (m.run host f args).run s = .error e t) :
    (∀ v, e ≠ .unbound v) ∧ ∀ expected found, e ≠ .argCount expected found := by
  obtain ⟨⟨inside, -⟩, ordered, result_reads⟩ := Func.checkScope_eq_ok_iff.mp in_scope
  have size : (Frame.blank f.vars.length).length = f.vars.length := List.length_replicate
  have nothing : (Frame.blank f.vars.length).Holds [] := by simp [Frame.Holds]
  obtain ⟨holds, same_size⟩ := nothing.bindAll enough (by rwa [size])
  rw [List.append_nil] at holds
  have in_order : Scope.Ordered ((Frame.blank f.vars.length).bindAll f.params args).length
      f.params.reverse f.bindings := by
    rwa [same_size, size]
  have within : (m.run host f args).FailsWithin fun e => e.isMissing = false := by
    rw [Evaluator.run, if_pos enough]
    refine (Evaluator.evalBindings_failsWithin sane in_order holds).bind
      fun _ frame _ ends => Evaluator.eval_failsWithin sane ?_
    exact (Evaluator.holds_of_evalBindings in_order holds ends).mono
      fun v read => (result_reads v read).2
  have not_missing := within s e t fails
  constructor
  · rintro v rfl
    cases not_missing
  · rintro expected found rfl
    cases not_missing

end Func

/-- Two parameters; the second is read through nested calls, one of them to the host. -/
def Sample.nestedCalls : Func where
  params := [⟨1⟩, ⟨0⟩]
  blocks :=
    [⟨.plain, [⟨⟨2⟩, .tuple [.var ⟨1⟩, .call (.host ⟨1⟩) [.var ⟨0⟩] .object]⟩]⟩,
      ⟨.dataflow, [⟨⟨3⟩, .call (.op ⟨2⟩) [.proj (.var ⟨2⟩) 1, .var ⟨0⟩] .int⟩]⟩]
  result := .tuple [.var ⟨3⟩, .var ⟨2⟩]
  resultTy := .object
  vars := [⟨⟨0⟩, .int⟩, ⟨⟨0⟩, .object⟩, ⟨⟨0⟩, .object⟩, ⟨⟨0⟩, .int⟩]
  attrs := []

namespace Func

open Sample in
/-- A run that ends in the host, which has no second input. -/
theorem run_misses_nothing_of_fetch : ∃ e t,
    (Evaluator.run ⟨⟨["get_item", "add"], by decide⟩, []⟩ ParamStore.host nestedCalls
        [.unit, .int 1]).run { inputs := [.int 4] } = .error e t ∧
      (∀ v, e ≠ .unbound v) ∧ ∀ expected found, e ≠ .argCount expected found := by
  have fails : (Evaluator.run ⟨⟨["get_item", "add"], by decide⟩, []⟩ ParamStore.host nestedCalls
      [.unit, .int 1]).run { inputs := [.int 4] } = .error _ _ := rfl
  have in_scope : nestedCalls.checkScope = .ok () := rfl
  exact ⟨_, _, fails, run_misses_nothing in_scope (by rfl) _ ParamStore.host_sane fails⟩

end Func

end ParamStream
