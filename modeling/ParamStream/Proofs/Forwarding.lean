import ParamStream.Proofs.Success

/-!
# Calls to other host functions

A function may call host functions of its own besides.  Its streaming form runs against a host that
answers the three services from a parameter store and passes every other call on, and the host
behind it sees what it would have seen from the function: the same calls, with the same arguments,
in the same order.  What the streaming form puts in between are calls to the store.

The host behind may be any state machine.  Run with a log of its calls, it ends in the same state
and with the same log, since the two runs are in lockstep on its states.

## Main definitions

* `Host.withStore` — a parameter store in front of a host.

## Main statements

* `Evaluator.lockstep_names` — names matter through the host functions that they denote;
* `Func.forwarded_calls` — the calls of a function survive in order.
-/

namespace ParamStream

variable {σ : Type}

/-! ### A store in front of a host -/

/-- Answer the services from a parameter store and pass all other calls on to `inner`. -/
def Host.withStore (inner : Host σ) : Host (ParamStore × σ) where
  call name args := fun (store, u) =>
    match StoreService.ofName? name with
    | some _ => ((ParamStore.host.call name args).run store).mapState (·, u)
    | none => ((inner.call name args).run u).mapState (store, ·)

namespace Host

variable (inner : Host σ)

theorem withStore_service (service : StoreService) (args : List Value) (store : ParamStore)
    (u : σ) :
    (inner.withStore.call service.name args).run (store, u) =
      ((ParamStore.host.call service.name args).run store).mapState (·, u) := by
  simp only [withStore, EStateM.run, StoreService.ofName?_name]

theorem withStore_other {name : String} (foreign : StoreService.ofName? name = none)
    (args : List Value) (store : ParamStore) (u : σ) :
    (inner.withStore.call name args).run (store, u) =
      ((inner.call name args).run u).mapState (store, ·) := by
  simp only [withStore, EStateM.run, foreign]

/-- A store in front of a host serves it. -/
def withStoreServes : inner.withStore.Serves inner where
  state store u := (store, u)
  fetch {store} u i v found := by
    have answered : (ParamStore.host.call StoreService.fetch.name [.int i]).run store =
        .ok v (store.hold v) :=
      ParamStore.host_fetch_of_input ((ParamStore.input?_natCast _ _).trans found)
    rw [withStore_service, answered]
    rfl
  fetch_missing {store} u i missing := by
    have answered : (ParamStore.host.call StoreService.fetch.name [.int i]).run store =
        .error (.hostFailed StoreService.fetch.name "index out of range") store :=
      ParamStore.host_fetch_of_missing ((ParamStore.input?_natCast _ _).trans missing)
    rw [withStore_service, answered]
    exact ⟨_, _, rfl⟩
  commit store u slot v := by
    have answered : (ParamStore.host.call StoreService.commit.name [.int slot, v]).run store =
        .ok .unit (store.commit slot v) :=
      ParamStore.host_commit store slot v
    rw [withStore_service, answered]
    rfl
  release store u v := by
    have answered : (ParamStore.host.call StoreService.release.name [v]).run store =
        .ok .unit (store.release v) :=
      ParamStore.host_release store v
    rw [withStore_service, answered]
    rfl
  forward foreign args store u := withStore_other inner foreign args store u

end Host

/-! ### Names -/

namespace Evaluator

variable {host : Host σ} {names names' : SymbolTable} {operators : OperatorTable}

/-- Both evaluations have the same value and leave the host in the same state. -/
def Same {α : Type} (x : α) (s : σ) (y : α) (t : σ) : Prop := x = y ∧ s = t

/-- An operator that fails does so under any names, though with another text. -/
theorem lockstep_applyOp (op : Symbol) (args : List Value) (s : σ) :
    EStateM.Result.Lockstep Same
      ((MonadExcept.ofExcept (applyOp ⟨names, operators⟩ op args) : EvalM σ Value).run s)
      ((MonadExcept.ofExcept (applyOp ⟨names', operators⟩ op args) : EvalM σ Value).run s) := by
  simp only [applyOp, EStateM.run_ofExcept]
  cases Assoc.get? operators op with
  | none => trivial
  | some apply =>
    cases result : apply args with
    | ok v => simp only [result]; exact ⟨rfl, rfl⟩
    | error reason => simp only [result]; trivial

mutual

/-- An expression runs alike under names that agree on the host functions it refers to. -/
theorem lockstep_names {frame : Frame} {e : Expr}
    (agree : ∀ n ∈ e.hosts, names.resolve n = names'.resolve n) (s : σ) :
    EStateM.Result.Lockstep Same ((eval ⟨names, operators⟩ host frame e).run s)
      ((eval ⟨names', operators⟩ host frame e).run s) := by
  match e with
  | .var v =>
    simp only [eval]
    exact .refl (fun _ _ => ⟨rfl, rfl⟩) _
  | .tuple fields =>
    rw [eval, eval]
    refine (lockstep_namesAll agree s).bind fun values s' values' t' same => ?_
    obtain ⟨rfl, rfl⟩ := same
    exact ⟨rfl, rfl⟩
  | .proj base i =>
    rw [Expr.hosts] at agree
    rw [eval, eval]
    refine (lockstep_names agree s).bind fun value s' value' t' same => ?_
    obtain ⟨rfl, rfl⟩ := same
    exact .refl (fun _ _ => ⟨rfl, rfl⟩) _
  | .call callee args ty =>
    rw [Expr.hosts] at agree
    rw [eval, eval]
    have args_agree : ∀ n ∈ Expr.hostsAll args, names.resolve n = names'.resolve n :=
      fun n mem => agree n (List.mem_append_right _ mem)
    refine (lockstep_namesAll args_agree s).bind fun values s' values' t' same => ?_
    obtain ⟨rfl, rfl⟩ := same
    cases callee with
    | op name => exact lockstep_applyOp name values s'
    | host name =>
      simp only [apply, agree name (by simp [Expr.hosts])]
      exact .refl (fun _ _ => ⟨rfl, rfl⟩) _
    | _ => trivial
  | .lit l => cases l <;> exact ⟨rfl, rfl⟩
  | .host name => trivial
  | .op name => trivial

/-- `lockstep_names` for a list of expressions. -/
theorem lockstep_namesAll {frame : Frame} {es : List Expr}
    (agree : ∀ n ∈ Expr.hostsAll es, names.resolve n = names'.resolve n) (s : σ) :
    EStateM.Result.Lockstep Same ((evalAll ⟨names, operators⟩ host frame es).run s)
      ((evalAll ⟨names', operators⟩ host frame es).run s) := by
  match es with
  | [] => exact ⟨rfl, rfl⟩
  | e :: es =>
    rw [Expr.hostsAll] at agree
    rw [evalAll, evalAll]
    refine (lockstep_names (fun n mem => agree n (List.mem_append_left _ mem)) s).bind
      fun value s' value' t' same => ?_
    obtain ⟨rfl, rfl⟩ := same
    refine (lockstep_namesAll (fun n mem => agree n (List.mem_append_right _ mem)) s').bind
      fun values s'' values' t'' same => ?_
    obtain ⟨rfl, rfl⟩ := same
    exact ⟨rfl, rfl⟩

end

/-- `lockstep_names` for bindings. -/
theorem lockstep_names_bindings (host : Host σ) (operators : OperatorTable) (frame : Frame)
    {bs : List Binding}
    (agree : ∀ b ∈ bs, ∀ n ∈ b.value.hosts, names.resolve n = names'.resolve n) (s : σ) :
    EStateM.Result.Lockstep Same ((evalBindings ⟨names, operators⟩ host frame bs).run s)
      ((evalBindings ⟨names', operators⟩ host frame bs).run s) := by
  induction bs generalizing frame s with
  | nil => exact ⟨rfl, rfl⟩
  | cons b bs ih =>
    rw [List.forall_mem_cons] at agree
    rw [evalBindings, evalBindings]
    refine (lockstep_names agree.1 s).bind fun value s' value' t' same => ?_
    obtain ⟨rfl, rfl⟩ := same
    exact ih (frame.bind b.var value) agree.2 s'

/-- A function that returns does so under all names that agree on its host functions. -/
theorem run_of_names {f : Func} {c : Convention} (follows : f.Follows c)
    (agree : ∀ b ∈ f.bindings, ∀ n ∈ b.value.hosts, names.resolve n = names'.resolve n)
    {arg v : Value} {s s' : σ}
    (returns : (run ⟨names, operators⟩ host f [arg]).run s = .ok v s') :
    (run ⟨names', operators⟩ host f [arg]).run s = .ok v s' := by
  rw [run_of_follows _ host follows] at returns ⊢
  obtain ⟨frame, t, ends, result⟩ := EStateM.run_bind_eq_ok_iff.mp returns
  have lockstep := lockstep_names_bindings host operators
    ((Frame.blank f.vars.length).bind c.param arg) agree s
  rw [ends] at lockstep
  obtain ⟨_, _, ends', rfl, rfl⟩ := lockstep.of_ok
  rw [EStateM.run_bind, ends']
  exact run_var_eq_ok_iff.mpr (run_var_eq_ok_iff.mp result)

end Evaluator

/-! ### The calls of a function -/

namespace Func

/-- **The calls of a function survive in order.**  Where a function returns against a host, its
streaming form succeeds with a parameter store in front of that host, and leaves the host in the
same state and with the same log of calls.  The function must refer to no service itself, the
table must have given out the names of its host functions, and no binding may read the output. -/
theorem forwarded_calls {f g : Func} {table : SymbolTable} {intermediates : Bool}
    {operators : OperatorTable} {inputs : List Value} {output : VarId} {host : Host σ} {u : σ}
    {v : Value} {after : Recorded σ} (streamed : (f.stream table intermediates).1 = .ok g)
    (independent : f.Independent (f.stream table intermediates).2)
    (known : ∀ b ∈ f.bindings, ∀ n ∈ b.value.hosts, n.index < table.size)
    (result : f.result = .var output) (unread : ∀ b ∈ f.bindings, output ∉ b.value.reads)
    (returns : (Evaluator.run ⟨table, operators⟩ host.recording f [.tuple inputs]).run
      { state := u } = .ok v after) :
    ∃ w store,
      (Evaluator.run ⟨(f.stream table intermediates).2, operators⟩ host.recording.withStore g
        []).run ({ inputs }, { state := u }) = .ok w (store, after) := by
  obtain ⟨plan, has_plan, lowered⟩ := stream_eq_ok_iff.mp streamed
  have planned := Planned.of_plan has_plan
  obtain ⟨l, -, describes, -, -⟩ := Layout.exists_of_lower planned lowered
  obtain ⟨o⟩ := planned.follows.exists_outputTuple planned.interface
  obtain rfl : plan.convention.output = output :=
    Expr.var.inj (planned.follows.result.symm.trans result)
  rw [stream_snd streamed] at independent ⊢
  have same_names : ∀ b ∈ f.bindings, ∀ n ∈ b.value.hosts,
      table.resolve n = (StoreCalls.intern table).2.resolve n := fun b mem n n_mem =>
    (SymbolTable.resolve_of_prefix (StoreCalls.strings_prefix_intern table)
      (known b mem n n_mem)).symm
  have renamed := Evaluator.run_of_names planned.follows same_names returns
  obtain ⟨w, acknowledged⟩ := exists_run_acknowledged planned.follows o unread renamed
  have lockstep := Layout.lockstep_run (m := ⟨(StoreCalls.intern table).2, operators⟩)
    host.recording.withStoreServes (StoreCalls.resolved_intern table) independent planned
    describes inputs { state := u }
  rw [acknowledged] at lockstep
  obtain ⟨y, _, ends, -, store, rfl⟩ := lockstep.of_ok
  exact ⟨y, store, ends⟩

end Func

/-! ### An instance -/

namespace Sample

/-- A host that answers every call with the number of calls before it. -/
def counter : Host Nat where
  call _ _ := fun n => .ok (.int n) (n + 1)

def logNames : SymbolTable := ⟨["log", "release_all", "neg"], by decide⟩

/-- Two calls of `log`, one inside the other and the inner one with a nested input, and a call of
`release_all` after them. -/
def logged : Func where
  params := [⟨0⟩]
  blocks :=
    [⟨.dataflow,
      [⟨⟨1⟩, .proj (.var ⟨0⟩) 0⟩,
        ⟨⟨2⟩, .call (.host ⟨1⟩)
          [.call (.host ⟨1⟩) [.proj (.var ⟨0⟩) 1, .var ⟨1⟩] .int, .var ⟨1⟩] .int⟩]⟩,
      ⟨.plain, [⟨⟨3⟩, .call (.host ⟨2⟩) [.proj (.var ⟨0⟩) 0] .object⟩,
        ⟨⟨4⟩, .tuple [.var ⟨2⟩, .var ⟨1⟩]⟩]⟩]
  result := .var ⟨4⟩
  resultTy := .tuple [.int, .int]
  vars :=
    [⟨⟨0⟩, .tuple [.int, .int]⟩, ⟨⟨0⟩, .int⟩, ⟨⟨0⟩, .int⟩, ⟨⟨0⟩, .object⟩,
      ⟨⟨0⟩, .tuple [.int, .int]⟩]
  attrs := []

end Sample

namespace Func

open Sample in
/-- The three calls reach the host behind the store in their order. -/
theorem forwarded_calls_logged : ∃ g w store,
    (logged.stream logNames true).1 = .ok g ∧
      (Evaluator.run ⟨(logged.stream logNames true).2, []⟩ counter.recording.withStore g []).run
          ({ inputs := [.int 7, .int 8] }, { state := 0 }) =
        .ok w (store,
          { calls := [⟨"log", [.int 8, .int 7]⟩, ⟨"log", [.int 0, .int 7]⟩,
              ⟨"release_all", [.int 7]⟩]
            state := 3 }) := by
  have streamed : (logged.stream logNames true).1 = .ok _ := rfl
  have returns : (Evaluator.run ⟨logNames, []⟩ counter.recording logged
      [.tuple [.int 7, .int 8]]).run { state := 0 } = .ok _ _ := rfl
  obtain ⟨w, store, ends⟩ :=
    forwarded_calls streamed (by decide) (by decide) rfl (by decide) returns
  exact ⟨_, w, store, streamed, ends⟩

end Func

end ParamStream
