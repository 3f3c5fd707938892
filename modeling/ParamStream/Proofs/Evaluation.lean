import ParamStream.Eval.ParamStore
import ParamStream.Eval.Run
import ParamStream.Proofs.Outcome
import ParamStream.Proofs.Services

/-!
# Outcomes of evaluation

An evaluation ends with a value or with an error, and in either case in a state of the host.  This
module compares outcomes, and says of evaluation what does not depend on the function at hand.

Two ways to compare outcomes are used.  When one computation does step by step what another does,
on states that hold those of the other, its outcome is the other's with the states mapped
(`EStateM.Commutes`).  When it takes more or fewer steps, the two still succeed together, with
related results, or fail together (`EStateM.Result.Lockstep`).

## Main definitions

* `EStateM.Result.state`, `EStateM.Result.mapState`, `EStateM.Result.Lockstep`;
* `EStateM.Result.Ends` — a condition on successes and one on the states of errors;
* `EStateM.Commutes`;
* `Frame.bindFrom` — bind values to consecutive variables.

## Main statements

* `Evaluator.eval_of_absent` — without a host, what evaluates depends on neither names nor host;
* `Evaluator.exists_input_of_eval` — what evaluates reads inputs that are there.
-/

/-! ### Comparing outcomes -/

namespace EStateM

variable {ε σ τ α β γ δ : Type}

/-- A sequence succeeds when its parts succeed one after the other. -/
theorem run_bind_eq_ok_iff {x : EStateM ε σ α} {k : α → EStateM ε σ β} {s s' : σ} {b : β} :
    (x >>= k).run s = .ok b s' ↔ ∃ a t, x.run s = .ok a t ∧ (k a).run t = .ok b s' := by
  rw [run_bind]
  cases x.run s with
  | ok a t =>
    constructor
    · exact fun rest => ⟨a, t, rfl, rest⟩
    · rintro ⟨a', t', same, rest⟩
      obtain ⟨rfl, rfl⟩ := Result.ok.inj same
      exact rest
  | error e t => simp

@[simp] theorem run_throw_eq_ok_iff {e : ε} {s t : σ} {a : α} :
    (throw e : EStateM ε σ α).run s = .ok a t ↔ False := ⟨nofun, False.elim⟩

theorem run_ofExcept (x : Except ε α) (s : σ) :
    (MonadExcept.ofExcept x : EStateM ε σ α).run s =
      match x with
      | .ok a => .ok a s
      | .error e => .error e s := by
  cases x <;> rfl

namespace Result

/-- The state reached, with or without a value. -/
def state : Result ε σ α → σ
  | .ok _ s => s
  | .error _ s => s

/-- The outcome with the state reached replaced. -/
def mapState (f : σ → τ) : Result ε σ α → Result ε τ α
  | .ok a s => .ok a (f s)
  | .error e s => .error e (f s)

@[simp] theorem state_ok (a : α) (s : σ) : (ok a s : Result ε σ α).state = s := rfl

@[simp] theorem state_error (e : ε) (s : σ) : (error e s : Result ε σ α).state = s := rfl

@[simp] theorem mapState_ok (f : σ → τ) (a : α) (s : σ) :
    (ok a s : Result ε σ α).mapState f = ok a (f s) := rfl

@[simp] theorem mapState_error (f : σ → τ) (e : ε) (s : σ) :
    (error e s : Result ε σ α).mapState f = error e (f s) := rfl

/-- Both outcomes are successes, related by `P`, or both are errors. -/
def Lockstep (P : α → σ → β → τ → Prop) : Result ε σ α → Result ε τ β → Prop
  | .ok a s, .ok b t => P a s b t
  | .error _ _, .error _ _ => True
  | _, _ => False

namespace Lockstep

variable {P : α → σ → β → τ → Prop} {r : Result ε σ α} {r' : Result ε τ β}

/-- An outcome is in lockstep with itself. -/
theorem refl {P : α → σ → α → σ → Prop} (same : ∀ a s, P a s a s) (r : Result ε σ α) :
    Lockstep P r r := by
  cases r with
  | ok a s => exact same a s
  | error e s => trivial

/-- The second succeeds where the first does. -/
theorem of_ok {a : α} {s : σ} (both : Lockstep P (.ok a s) r') :
    ∃ b t, r' = .ok b t ∧ P a s b t := by
  cases r' with
  | ok b t => exact ⟨b, t, rfl, both⟩
  | error e t => exact both.elim

/-- The first succeeds where the second does. -/
theorem of_ok_right {b : β} {t : τ} (both : Lockstep P r (.ok b t)) :
    ∃ a s, r = .ok a s ∧ P a s b t := by
  cases r with
  | ok a s => exact ⟨a, s, rfl, both⟩
  | error e s => exact both.elim

/-- Sequences are in lockstep when their parts are. -/
theorem bind {Q : γ → σ → δ → τ → Prop} {x : EStateM ε σ α} {y : EStateM ε τ β}
    {k : α → EStateM ε σ γ} {l : β → EStateM ε τ δ} {s : σ} {t : τ}
    (first : Lockstep P (x.run s) (y.run t))
    (rest : ∀ a s b t, P a s b t → Lockstep Q ((k a).run s) ((l b).run t)) :
    Lockstep Q ((x >>= k).run s) ((y >>= l).run t) := by
  rw [run_bind, run_bind]
  cases ends : x.run s with
  | ok a s' =>
    rw [ends] at first
    obtain ⟨b, t', ends', related⟩ := first.of_ok
    rw [ends']
    exact rest a s' b t' related
  | error e s' =>
    rw [ends] at first
    cases ends' : y.run t with
    | ok b t' => rw [ends'] at first; exact first.elim
    | error e' t' => trivial

end Lockstep

/-- The outcome is a success with `P`, or an error in a state with `Q`. -/
def Ends (P : α → σ → Prop) (Q : σ → Prop) : Result ε σ α → Prop
  | .ok a s => P a s
  | .error _ s => Q s

namespace Ends

variable {P : α → σ → Prop} {Q : σ → Prop}

/-- A sequence ends as its second part does, or with an error in the first. -/
theorem bind {R : β → σ → Prop} {T : σ → Prop} {x : EStateM ε σ α} {k : α → EStateM ε σ β} {s : σ}
    (first : Ends P Q (x.run s)) (rest : ∀ a t, P a t → Ends R T ((k a).run t))
    (stop : ∀ t, Q t → T t) : Ends R T ((x >>= k).run s) := by
  rw [run_bind]
  cases ends : x.run s with
  | ok a t =>
    rw [ends] at first
    exact rest a t first
  | error e t =>
    rw [ends] at first
    exact stop t first

/-- What holds of the state reached holds of both kinds of outcome. -/
theorem of_state {r : Result ε σ α} {S : σ → Prop} (reached : S r.state)
    (ok : ∀ a s, S s → P a s) (error : ∀ s, S s → Q s) : Ends P Q r := by
  cases r with
  | ok a s => exact ok a s reached
  | error e s => exact error s reached

/-- What both kinds of outcome have in common holds of the state reached. -/
theorem state {r : Result ε σ α} {S : σ → Prop} (ends : Ends P Q r) (ok : ∀ a s, P a s → S s)
    (error : ∀ s, Q s → S s) : S r.state := by
  cases r with
  | ok a s => exact ok a s ends
  | error e s => exact error s ends

end Ends

end Result

/-- One computation does on the states `embed s` what the other does on `s`. -/
def Commutes (embed : σ → τ) (x : EStateM ε τ α) (y : EStateM ε σ α) : Prop :=
  ∀ s, x.run (embed s) = (y.run s).mapState embed

namespace Commutes

variable {embed : σ → τ}

theorem pure (a : α) : Commutes embed (Pure.pure a : EStateM ε τ α) (Pure.pure a) := fun _ => rfl

theorem throw (e : ε) : Commutes embed (throw e : EStateM ε τ α) (throw e) := fun _ => rfl

theorem ofExcept (x : Except ε α) :
    Commutes embed (MonadExcept.ofExcept x : EStateM ε τ α) (MonadExcept.ofExcept x) := by
  intro s
  cases x <;> rfl

theorem bind {x : EStateM ε τ α} {y : EStateM ε σ α} {k : α → EStateM ε τ β}
    {l : α → EStateM ε σ β} (first : Commutes embed x y)
    (rest : ∀ a, Commutes embed (k a) (l a)) : Commutes embed (x >>= k) (y >>= l) := by
  intro s
  rw [run_bind, run_bind, first s]
  cases y.run s with
  | ok a s' => exact rest a s'
  | error e s' => rfl

end Commutes

end EStateM

namespace ParamStream

/-! ### Frames -/

namespace Frame

/-- Bind values to the variables from `start` on. -/
def bindFrom (frame : Frame) (start : Nat) : List Value → Frame
  | [] => frame
  | value :: values => bindFrom (frame.bind ⟨start⟩ value) (start + 1) values

@[simp] theorem length_bindFrom (frame : Frame) (start : Nat) (values : List Value) :
    (frame.bindFrom start values).length = frame.length := by
  induction values generalizing frame start with
  | nil => rfl
  | cons value values ih => rw [bindFrom, ih, length_bind]

theorem bindFrom_append (frame : Frame) (start : Nat) (values more : List Value) :
    frame.bindFrom start (values ++ more) =
      (frame.bindFrom start values).bindFrom (start + values.length) more := by
  induction values generalizing frame start with
  | nil => rfl
  | cons value values ih =>
    rw [List.cons_append, bindFrom, bindFrom, ih, List.length_cons, Nat.add_assoc,
      Nat.add_comm 1]

/-- Variables outside the range keep their values. -/
theorem get?_bindFrom_of_lt {frame : Frame} {start : Nat} {v : VarId} (before : v.index < start)
    (values : List Value) : (frame.bindFrom start values).get? v = frame.get? v := by
  induction values generalizing frame start with
  | nil => rfl
  | cons value values ih =>
    have differ : (⟨start⟩ : VarId) ≠ v := by
      rintro rfl
      exact Nat.lt_irrefl _ before
    rw [bindFrom, ih (by omega), get?_bind_of_ne differ]

/-- Variables of the range have the values bound to them. -/
theorem get?_bindFrom {frame : Frame} {start k : Nat} {values : List Value} {value : Value}
    (fits : start + values.length ≤ frame.length) (at_k : values[k]? = some value) :
    (frame.bindFrom start values).get? ⟨start + k⟩ = some value := by
  induction values generalizing frame start k with
  | nil => simp at at_k
  | cons first values ih =>
    rw [List.length_cons] at fits
    rw [bindFrom]
    cases k with
    | zero =>
      obtain rfl : first = value := by simpa using at_k
      rw [get?_bindFrom_of_lt (by simp)]
      exact get?_bind_self (by simp; omega) _
    | succ k =>
      rw [List.getElem?_cons_succ] at at_k
      have fits_rest : start + 1 + values.length ≤ (frame.bind ⟨start⟩ first).length := by
        rw [length_bind]
        omega
      have found := ih fits_rest at_k
      rwa [Nat.add_assoc, Nat.add_comm 1] at found

end Frame

namespace Evaluator

variable {σ τ : Type}

/-! ### Evaluating bindings -/

theorem evalBindings_append (m : Evaluator) (host : Host σ) (frame : Frame)
    (bs cs : List Binding) :
    m.evalBindings host frame (bs ++ cs) =
      m.evalBindings host frame bs >>= fun frame => m.evalBindings host frame cs := by
  induction bs generalizing frame with
  | nil => rfl
  | cons b bs ih =>
    rw [List.cons_append, evalBindings, evalBindings, bind_assoc]
    congr 1
    funext value
    exact ih (frame.bind b.var value)

theorem evalBindings_cons (m : Evaluator) (host : Host σ) (frame : Frame) (b : Binding)
    (bs : List Binding) :
    m.evalBindings host frame (b :: bs) =
      m.evalBindings host frame [b] >>= fun frame => m.evalBindings host frame bs :=
  evalBindings_append m host frame [b] bs

/-- Running bindings does not change the number of cells. -/
theorem length_of_evalBindings {m : Evaluator} {host : Host σ} {frame frame' : Frame}
    {bs : List Binding} {s s' : σ}
    (ends : (m.evalBindings host frame bs).run s = .ok frame' s') :
    frame'.length = frame.length := by
  induction bs generalizing frame s with
  | nil =>
    rw [evalBindings, EStateM.run_pure] at ends
    obtain ⟨rfl, -⟩ := EStateM.Result.ok.inj ends
    rfl
  | cons b bs ih =>
    obtain ⟨value, t, -, rest⟩ := EStateM.run_bind_eq_ok_iff.mp ends
    rw [ih rest, Frame.length_bind]

/-- Variables that are not bound keep their values. -/
theorem get?_of_evalBindings {m : Evaluator} {host : Host σ} {frame frame' : Frame}
    {bs : List Binding} {s s' : σ} (ends : (m.evalBindings host frame bs).run s = .ok frame' s')
    {v : VarId} (unbound : v ∉ bs.map Binding.var) : frame'.get? v = frame.get? v := by
  induction bs generalizing frame s with
  | nil =>
    rw [evalBindings, EStateM.run_pure] at ends
    obtain ⟨rfl, -⟩ := EStateM.Result.ok.inj ends
    rfl
  | cons b bs ih =>
    rw [List.map_cons, List.mem_cons, not_or] at unbound
    obtain ⟨value, t, -, rest⟩ := EStateM.run_bind_eq_ok_iff.mp ends
    rw [ih rest unbound.2, Frame.get?_bind_of_ne (Ne.symm unbound.1)]

/-- The value of an input. -/
theorem run_input {m : Evaluator} {host : Host σ} {frame : Frame} {param : VarId}
    {inputs : List Value} (known : frame.get? param = some (.tuple inputs)) (i : Nat) (s : σ) :
    (m.eval host frame (.proj (.var param) i)).run s =
      match inputs[i]? with
      | some x => .ok x s
      | none => .error (.indexOutOfRange i inputs.length) s := by
  simp only [eval, known, pure_bind, EStateM.run_ofExcept, project]
  cases inputs[i]? <;> rfl

/-- Expressions that all have the same value. -/
theorem evalAll_replicate {m : Evaluator} {host : Host σ} {frame : Frame} {x : Value}
    {es : List Expr} (same : ∀ e ∈ es, m.eval host frame e = pure x) :
    m.evalAll host frame es = pure (List.replicate es.length x) := by
  induction es with
  | nil => rfl
  | cons e es ih =>
    rw [evalAll, same e List.mem_cons_self, pure_bind,
      ih fun e mem => same e (List.mem_cons_of_mem _ mem), pure_bind]
    rfl

/-- The value of a variable. -/
theorem run_var_eq_ok_iff {m : Evaluator} {host : Host σ} {frame : Frame} {v : VarId} {x : Value}
    {s s' : σ} :
    (m.eval host frame (.var v)).run s = .ok x s' ↔ frame.get? v = some x ∧ s' = s := by
  rw [eval]
  cases frame.get? v with
  | none => simp
  | some y => simp [eq_comm]

/-- The values of variables. -/
theorem values_of_run_vars {m : Evaluator} {host : Host σ} {frame : Frame} {vs : List VarId}
    {xs : List Value} {s s' : σ} (ends : (m.evalAll host frame (vs.map .var)).run s = .ok xs s') :
    xs.map some = vs.map frame.get? := by
  induction vs generalizing xs s s' with
  | nil =>
    rw [List.map_nil, evalAll, EStateM.run_pure] at ends
    obtain ⟨rfl, -⟩ := EStateM.Result.ok.inj ends
    rfl
  | cons v vs ih =>
    rw [List.map_cons, evalAll] at ends
    obtain ⟨x, t, head_ends, rest⟩ := EStateM.run_bind_eq_ok_iff.mp ends
    obtain ⟨ys, t', tail_ends, whole⟩ := EStateM.run_bind_eq_ok_iff.mp rest
    rw [EStateM.run_pure] at whole
    obtain ⟨rfl, -⟩ := EStateM.Result.ok.inj whole
    rw [List.map_cons, List.map_cons, ih tail_ends, (run_var_eq_ok_iff.mp head_ends).1]

/-- Code that returns a variable returns the value computed at its binding, if that is the last
one. -/
theorem exists_value_of_run {m : Evaluator} {host : Host σ} {frame : Frame}
    {before after : List Binding} {b : Binding} (once : b.var ∉ after.map Binding.var)
    (inside : b.var.index < frame.length) {s s' : σ} {v : Value}
    (returns : (m.evalBindings host frame (before ++ b :: after) >>= fun frame =>
      m.eval host frame (.var b.var)).run s = .ok v s') :
    ∃ frame' t t', (m.evalBindings host frame before).run s = .ok frame' t ∧
      (m.eval host frame' b.value).run t = .ok v t' := by
  obtain ⟨final, t, all_end, result⟩ := EStateM.run_bind_eq_ok_iff.mp returns
  rw [evalBindings_append] at all_end
  obtain ⟨frame', t', before_end, rest⟩ := EStateM.run_bind_eq_ok_iff.mp all_end
  obtain ⟨x, t'', value_ends, after_end⟩ := EStateM.run_bind_eq_ok_iff.mp rest
  refine ⟨frame', t', t'', before_end, ?_⟩
  have bound : final.get? b.var = some x := by
    rw [get?_of_evalBindings after_end once, Frame.get?_bind_self]
    rw [length_of_evalBindings before_end]
    exact inside
  rw [(run_var_eq_ok_iff.mp result).1] at bound
  rw [Option.some.inj bound]
  exact value_ends

/-! ### Evaluation without a host -/

/-- An operator that yields a value does so under any names. -/
theorem applyOp_eq_ok {operators : OperatorTable} {op : Symbol} {args : List Value} {v : Value}
    (names names' : SymbolTable) (applied : applyOp ⟨names, operators⟩ op args = .ok v) :
    applyOp ⟨names', operators⟩ op args = .ok v := by
  unfold applyOp at applied ⊢
  cases found : Assoc.get? operators op with
  | none => simp [found] at applied
  | some apply =>
    simp only [found] at applied ⊢
    cases result : apply args with
    | error reason => simp [result] at applied
    | ok w => rwa [result] at applied

mutual

/-- What evaluates without a host refers to no host function, and evaluates alike under any names
and against any host, whose state it leaves alone. -/
theorem eval_of_absent {names : SymbolTable} {operators : OperatorTable} {frame : Frame}
    {e : Expr} {v : Value} (ends : (eval ⟨names, operators⟩ .absent frame e).run () = .ok v ()) :
    e.hosts = [] ∧ ∀ (names' : SymbolTable) {σ : Type} (host : Host σ) (s : σ),
      (eval ⟨names', operators⟩ host frame e).run s = .ok v s := by
  match e with
  | .var w =>
    refine ⟨rfl, fun names' σ host s => ?_⟩
    unfold eval at ends ⊢
    cases bound : frame.get? w with
    | none => simp [bound] at ends
    | some value =>
      simp only [bound, EStateM.run_pure] at ends ⊢
      rw [(EStateM.Result.ok.inj ends).1]
  | .tuple fields =>
    rw [eval] at ends
    obtain ⟨values, ⟨⟩, fields_end, whole⟩ := EStateM.run_bind_eq_ok_iff.mp ends
    obtain ⟨none, alike⟩ := evalAll_of_absent fields_end
    refine ⟨none, fun names' σ host s => ?_⟩
    rw [eval, EStateM.run_bind, alike names' host s]
    rw [EStateM.run_pure] at whole
    rw [← (EStateM.Result.ok.inj whole).1]
    rfl
  | .proj base i =>
    rw [eval] at ends
    obtain ⟨value, ⟨⟩, base_ends, projected⟩ := EStateM.run_bind_eq_ok_iff.mp ends
    obtain ⟨none, alike⟩ := eval_of_absent base_ends
    refine ⟨none, fun names' σ host s => ?_⟩
    rw [eval, EStateM.run_bind, alike names' host s]
    rw [EStateM.run_ofExcept] at projected
    simp only [EStateM.run_ofExcept]
    cases field : project i value with
    | error e => simp [field] at projected
    | ok w =>
      simp only [field] at projected ⊢
      rw [(EStateM.Result.ok.inj projected).1]
  | .call callee args ty =>
    rw [eval] at ends
    obtain ⟨values, ⟨⟩, args_end, applied⟩ := EStateM.run_bind_eq_ok_iff.mp ends
    obtain ⟨none, alike⟩ := evalAll_of_absent args_end
    cases callee with
    | op name =>
      refine ⟨none, fun names' σ host s => ?_⟩
      rw [eval, EStateM.run_bind, alike names' host s]
      simp only [apply, EStateM.run_ofExcept] at applied ⊢
      cases result : applyOp ⟨names, operators⟩ name values with
      | error e => simp [result] at applied
      | ok w =>
        rw [applyOp_eq_ok names names' result]
        simp only [result] at applied ⊢
        rw [(EStateM.Result.ok.inj applied).1]
    | host name => exact absurd applied (by simp [apply, Host.absent])
    | _ => exact absurd applied (by simp [apply])
  | .lit l =>
    refine ⟨rfl, fun names' σ host s => ?_⟩
    cases l <;>
    · rw [eval, EStateM.run_pure] at ends ⊢
      rw [(EStateM.Result.ok.inj ends).1]
  | .host name => simp [eval] at ends
  | .op name => simp [eval] at ends

/-- `eval_of_absent` for a list of expressions. -/
theorem evalAll_of_absent {names : SymbolTable} {operators : OperatorTable} {frame : Frame}
    {es : List Expr} {vs : List Value}
    (ends : (evalAll ⟨names, operators⟩ .absent frame es).run () = .ok vs ()) :
    Expr.hostsAll es = [] ∧ ∀ (names' : SymbolTable) {σ : Type} (host : Host σ) (s : σ),
      (evalAll ⟨names', operators⟩ host frame es).run s = .ok vs s := by
  match es with
  | [] =>
    refine ⟨rfl, fun names' σ host s => ?_⟩
    rw [evalAll, EStateM.run_pure] at ends ⊢
    rw [(EStateM.Result.ok.inj ends).1]
  | e :: es =>
    rw [evalAll] at ends
    obtain ⟨value, ⟨⟩, head_ends, rest⟩ := EStateM.run_bind_eq_ok_iff.mp ends
    obtain ⟨values, ⟨⟩, tail_ends, whole⟩ := EStateM.run_bind_eq_ok_iff.mp rest
    obtain ⟨none, alike⟩ := eval_of_absent head_ends
    obtain ⟨none_tail, alike_tail⟩ := evalAll_of_absent tail_ends
    refine ⟨by simp [Expr.hostsAll, none, none_tail], fun names' σ host s => ?_⟩
    rw [EStateM.run_pure] at whole
    rw [evalAll, EStateM.run_bind, alike names' host s]
    simp only [EStateM.run_bind, alike_tail names' host s, EStateM.run_pure]
    rw [(EStateM.Result.ok.inj whole).1]

end

/-- `eval_of_absent` for bindings. -/
theorem evalBindings_of_absent {names : SymbolTable} {operators : OperatorTable}
    {frame frame' : Frame} {bs : List Binding}
    (ends : (evalBindings ⟨names, operators⟩ .absent frame bs).run () = .ok frame' ()) :
    (∀ b ∈ bs, b.value.hosts = []) ∧ ∀ (names' : SymbolTable) {σ : Type} (host : Host σ) (s : σ),
      (evalBindings ⟨names', operators⟩ host frame bs).run s = .ok frame' s := by
  induction bs generalizing frame with
  | nil =>
    refine ⟨by simp, fun names' σ host s => ?_⟩
    rw [evalBindings, EStateM.run_pure] at ends ⊢
    rw [(EStateM.Result.ok.inj ends).1]
  | cons b bs ih =>
    rw [evalBindings] at ends
    obtain ⟨value, ⟨⟩, head_ends, rest⟩ := EStateM.run_bind_eq_ok_iff.mp ends
    obtain ⟨none, alike⟩ := eval_of_absent head_ends
    obtain ⟨none_rest, alike_rest⟩ := ih rest
    refine ⟨List.forall_mem_cons.mpr ⟨none, none_rest⟩, fun names' σ host s => ?_⟩
    rw [evalBindings, EStateM.run_bind, alike names' host s]
    exact alike_rest names' host s

/-- A function that returns without a host does so under any names. -/
theorem run_of_absent {names : SymbolTable} {operators : OperatorTable} {f : Func}
    {args : List Value} {v : Value}
    (returns : (run ⟨names, operators⟩ .absent f args).run () = .ok v ())
    (names' : SymbolTable) : (run ⟨names', operators⟩ .absent f args).run () = .ok v () := by
  unfold run at returns ⊢
  split at returns
  · next enough =>
    rw [if_pos enough]
    obtain ⟨frame, ⟨⟩, ends, result⟩ := EStateM.run_bind_eq_ok_iff.mp returns
    rw [EStateM.run_bind, (evalBindings_of_absent ends).2 names' .absent ()]
    exact (eval_of_absent result).2 names' .absent ()
  · simp at returns

/-! ### Values depend on what is read -/

mutual

/-- Frames that agree on what an expression reads give it the same value. -/
theorem eval_congr {m : Evaluator} {host : Host σ} {frame frame' : Frame} {e : Expr}
    (agree : ∀ v ∈ e.reads, frame.get? v = frame'.get? v) :
    m.eval host frame e = m.eval host frame' e := by
  match e with
  | .var v => rw [eval, eval, agree v (by simp [Expr.reads])]
  | .tuple fields => rw [eval, eval, evalAll_congr agree]
  | .proj base i =>
    rw [Expr.reads] at agree
    rw [eval, eval, eval_congr agree]
  | .call callee args ty =>
    rw [eval, eval, evalAll_congr fun v mem => agree v (by simp [Expr.reads, mem])]
  | .lit l => cases l <;> rfl
  | .host name => rfl
  | .op name => rfl

/-- `eval_congr` for a list of expressions. -/
theorem evalAll_congr {m : Evaluator} {host : Host σ} {frame frame' : Frame} {es : List Expr}
    (agree : ∀ v ∈ Expr.readsAll es, frame.get? v = frame'.get? v) :
    m.evalAll host frame es = m.evalAll host frame' es := by
  match es with
  | [] => rfl
  | e :: es =>
    rw [evalAll, evalAll, eval_congr fun v mem => agree v (by simp [Expr.readsAll, mem]),
      evalAll_congr fun v mem => agree v (by simp [Expr.readsAll, mem])]

end

/-! ### Inputs read -/

mutual

/-- An expression that evaluates reads only inputs that are there. -/
theorem exists_input_of_eval {m : Evaluator} {host : Host σ} {frame : Frame} {param : VarId}
    {inputs : List Value} (known : frame.get? param = some (.tuple inputs)) {e : Expr} {v : Value}
    {s s' : σ} (ends : (m.eval host frame e).run s = .ok v s') :
    ∀ i ∈ e.inputReads param, ∃ x, inputs[i]? = some x := by
  match e with
  | .var w => simp [Expr.inputReads]
  | .tuple fields =>
    rw [eval] at ends
    obtain ⟨values, t, fields_end, -⟩ := EStateM.run_bind_eq_ok_iff.mp ends
    exact exists_input_of_evalAll known fields_end
  | .proj base i =>
    rw [eval] at ends
    obtain ⟨value, t, base_ends, projected⟩ := EStateM.run_bind_eq_ok_iff.mp ends
    by_cases is_input : base.asVar? = some param
    · obtain rfl := Expr.asVar?_eq_some_iff.mp is_input
      have is_tuple : value = .tuple inputs := by
        simp only [eval, known, EStateM.run_pure] at base_ends
        exact (EStateM.Result.ok.inj base_ends).1.symm
      rw [EStateM.run_ofExcept, is_tuple, project] at projected
      cases found : inputs[i]? with
      | none => simp [found] at projected
      | some x => simp [Expr.inputReads, Expr.asVar?, found]
    · rw [Expr.inputReads, if_neg is_input]
      exact exists_input_of_eval known base_ends
  | .call callee args ty =>
    rw [eval] at ends
    obtain ⟨values, t, args_end, applied⟩ := EStateM.run_bind_eq_ok_iff.mp ends
    -- A callee is never evaluated, but one that reads an input cannot be applied.
    have no_reads : callee.inputReads param = [] := by
      cases callee with
      | op name => rfl
      | host name => rfl
      | _ => exact absurd applied (by simp [apply])
    rw [Expr.inputReads, no_reads, List.nil_append]
    exact exists_input_of_evalAll known args_end
  | .lit l => simp [Expr.inputReads]
  | .host name => simp [Expr.inputReads]
  | .op name => simp [Expr.inputReads]

/-- `exists_input_of_eval` for a list of expressions. -/
theorem exists_input_of_evalAll {m : Evaluator} {host : Host σ} {frame : Frame} {param : VarId}
    {inputs : List Value} (known : frame.get? param = some (.tuple inputs)) {es : List Expr}
    {vs : List Value} {s s' : σ} (ends : (m.evalAll host frame es).run s = .ok vs s') :
    ∀ i ∈ Expr.inputReadsAll param es, ∃ x, inputs[i]? = some x := by
  match es with
  | [] => simp [Expr.inputReadsAll]
  | e :: es =>
    rw [evalAll] at ends
    obtain ⟨value, t, head_ends, rest⟩ := EStateM.run_bind_eq_ok_iff.mp ends
    obtain ⟨values, t', tail_ends, -⟩ := EStateM.run_bind_eq_ok_iff.mp rest
    intro i mem
    rw [Expr.inputReadsAll] at mem
    rcases List.mem_append.mp mem with mem | mem
    · exact exists_input_of_eval known head_ends i mem
    · exact exists_input_of_evalAll known tail_ends i mem

end

/-! ### Invariants of the host -/

/-- Every call that the code may make keeps `P`. -/
def Keeps (m : Evaluator) (host : Host σ) (P : σ → Prop) (hosts : List Symbol) : Prop :=
  ∀ name ∈ hosts, ∀ args s, P s → P ((host.call (m.symbols.resolve name) args).run s).state

theorem keeps_append {m : Evaluator} {host : Host σ} {P : σ → Prop} {hosts more : List Symbol} :
    m.Keeps host P (hosts ++ more) ↔ m.Keeps host P hosts ∧ m.Keeps host P more := by
  simp only [Keeps, List.mem_append]
  exact ⟨fun all => ⟨fun n mem => all n (.inl mem), fun n mem => all n (.inr mem)⟩,
    fun both n mem => mem.elim (both.1 n) (both.2 n)⟩

/-- A sequence keeps what its parts keep, however it ends. -/
theorem state_bind {α β : Type} {P : σ → Prop} {x : EvalM σ α} {k : α → EvalM σ β} {s : σ}
    (first : P (x.run s).state) (rest : ∀ a t, P t → P ((k a).run t).state) :
    P ((x >>= k).run s).state := by
  rw [EStateM.run_bind]
  cases ends : x.run s with
  | ok a t =>
    rw [ends] at first
    exact rest a t first
  | error e t =>
    rw [ends] at first
    exact first

theorem state_ofExcept {α : Type} (x : Except EvalError α) (s : σ) :
    ((MonadExcept.ofExcept x : EvalM σ α).run s).state = s := by
  cases x <;> rfl

mutual

/-- Evaluation keeps what the calls keep, however it ends. -/
theorem state_eval {m : Evaluator} {host : Host σ} {P : σ → Prop} {frame : Frame} {e : Expr}
    (keeps : m.Keeps host P e.hosts) {s : σ} (start : P s) :
    P ((m.eval host frame e).run s).state := by
  match e with
  | .var v =>
    unfold eval
    cases frame.get? v <;> exact start
  | .tuple fields =>
    rw [eval]
    exact state_bind (state_evalAll keeps start) fun _ _ kept => kept
  | .proj base i =>
    rw [Expr.hosts] at keeps
    rw [eval]
    refine state_bind (state_eval keeps start) fun value t kept => ?_
    rw [state_ofExcept]
    exact kept
  | .call callee args ty =>
    rw [Expr.hosts, keeps_append] at keeps
    rw [eval]
    refine state_bind (state_evalAll keeps.2 start) fun values t kept => ?_
    cases callee with
    | op name =>
      rw [apply, state_ofExcept]
      exact kept
    | host name => exact keeps.1 name (by simp [Expr.hosts]) values t kept
    | _ => exact kept
  | .lit l => cases l <;> exact start
  | .host name => exact start
  | .op name => exact start

/-- `state_eval` for a list of expressions. -/
theorem state_evalAll {m : Evaluator} {host : Host σ} {P : σ → Prop} {frame : Frame}
    {es : List Expr} (keeps : m.Keeps host P (Expr.hostsAll es)) {s : σ} (start : P s) :
    P ((m.evalAll host frame es).run s).state := by
  match es with
  | [] => exact start
  | e :: es =>
    rw [Expr.hostsAll, keeps_append] at keeps
    rw [evalAll]
    refine state_bind (state_eval keeps.1 start) fun value t kept => ?_
    exact state_bind (state_evalAll keeps.2 kept) fun _ _ kept => kept

end

/-- Running bindings keeps what their calls keep, however it ends. -/
theorem state_evalBindings {m : Evaluator} {host : Host σ} {P : σ → Prop} {frame : Frame}
    {bs : List Binding} (keeps : ∀ b ∈ bs, m.Keeps host P b.value.hosts) {s : σ} (start : P s) :
    P ((m.evalBindings host frame bs).run s).state := by
  induction bs generalizing frame s with
  | nil => exact start
  | cons b bs ih =>
    rw [evalBindings]
    refine state_bind (state_eval (keeps b List.mem_cons_self) start) fun value t kept => ?_
    exact ih (fun c mem => keeps c (List.mem_cons_of_mem _ mem)) kept

end Evaluator

end ParamStream
