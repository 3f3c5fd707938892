import ParamStream.Proofs.Entries
import ParamStream.Proofs.Evaluation
import ParamStream.Proofs.Redirect
import ParamStream.Proofs.Segment
import ParamStream.Proofs.Sequences

/-!
# Hosts that serve a parameter store

`Host.Serves outer inner` says that `outer` is a parameter store for the three services and passes
all other calls on to `inner`.  Its states hold a store and a state of `inner`.  The store by
itself serves the absent host.

Against such a host, an expression over the new variables does to the inner state what the old
expression does, provided that its inputs have been fetched; and the calls that a streaming form
adds do to the store what they say.

## Main statements

* `Evaluator.commutes_redirect` — the value of a redirected expression;
* `Evaluator.run_numbered` — a run of calls bound to consecutive variables.
-/

namespace ParamStream

variable {σ τ : Type}

/-! ### Several calls of one kind -/

namespace ParamStore

/-- Make values resident, one after the other. -/
def holdAll (s : ParamStore) (values : List Value) : ParamStore := values.foldl hold s

/-- Store a value in several slots. -/
def commitAll (s : ParamStore) (slots : List Nat) (v : Value) : ParamStore :=
  slots.foldl (fun s slot => s.commit slot v) s

/-- Release values, one after the other. -/
def releaseAll (s : ParamStore) (values : List Value) : ParamStore := values.foldl release s

@[simp] theorem inputs_holdAll (s : ParamStore) (values : List Value) :
    (s.holdAll values).inputs = s.inputs :=
  List.foldl_keeps inputs values s fun _ _ => rfl

@[simp] theorem outputs_holdAll (s : ParamStore) (values : List Value) :
    (s.holdAll values).outputs = s.outputs :=
  List.foldl_keeps outputs values s fun _ _ => rfl

@[simp] theorem inputs_commitAll (s : ParamStore) (slots : List Nat) (v : Value) :
    (s.commitAll slots v).inputs = s.inputs :=
  List.foldl_keeps inputs slots s fun _ _ => rfl

@[simp] theorem outputs_commitAll (s : ParamStore) (slots : List Nat) (v : Value) :
    (s.commitAll slots v).outputs = s.outputs.insertAll (slots.map fun slot => (slot, v)) := by
  induction slots generalizing s with
  | nil => rfl
  | cons slot slots ih => exact ih (s.commit slot v)

@[simp] theorem inputs_releaseAll (s : ParamStore) (values : List Value) :
    (s.releaseAll values).inputs = s.inputs :=
  List.foldl_keeps inputs values s fun _ _ => rfl

@[simp] theorem outputs_releaseAll (s : ParamStore) (values : List Value) :
    (s.releaseAll values).outputs = s.outputs :=
  List.foldl_keeps outputs values s fun _ _ => rfl

end ParamStore

/-! ### Serving -/

/-- A parameter store that passes all other calls to `inner`. -/
structure Host.Serves (outer : Host τ) (inner : Host σ) where
  /-- a store and a state of `inner`, as a state of `outer` -/
  state : ParamStore → σ → τ
  fetch : ∀ {s : ParamStore} (u : σ) {i : Nat} {v : Value}, s.inputs[i]? = some v →
    (outer.call StoreService.fetch.name [.int i]).run (state s u) = .ok v (state (s.hold v) u)
  fetch_missing : ∀ {s : ParamStore} (u : σ) {i : Nat}, s.inputs[i]? = none →
    ∃ e t, (outer.call StoreService.fetch.name [.int i]).run (state s u) = .error e t
  commit : ∀ (s : ParamStore) (u : σ) (slot : Nat) (v : Value),
    (outer.call StoreService.commit.name [.int slot, v]).run (state s u) =
      .ok .unit (state (s.commit slot v) u)
  release : ∀ (s : ParamStore) (u : σ) (v : Value),
    (outer.call StoreService.release.name [v]).run (state s u) = .ok .unit (state (s.release v) u)
  forward : ∀ {name : String}, StoreService.ofName? name = none → ∀ (args : List Value)
    (s : ParamStore), EStateM.Commutes (state s) (outer.call name args) (inner.call name args)

/-- The store serves a function that calls no host of its own. -/
def ParamStore.serves : ParamStore.host.Serves Host.absent where
  state s _ := s
  fetch _ _ _ found := host_fetch_of_input ((input?_natCast _ _).trans found)
  fetch_missing _ _ missing :=
    ⟨_, _, host_fetch_of_missing ((input?_natCast _ _).trans missing)⟩
  commit s _ slot v := host_commit s slot v
  release s _ v := host_release s v
  forward {name} foreign args s u := by
    have unanswered : s.answer? name args = none := by simp [answer?, foreign]
    simp only [host, EStateM.run, unanswered]
    rfl

namespace Evaluator

variable {m : Evaluator} {outer : Host τ} {inner : Host σ}

/-! ### Redirected expressions -/

/-- The variables read, the parameter aside, are bound to the same values in both frames. -/
def Carries (param : VarId) (rename : VarId → VarId) (old new : Frame) (vs : List VarId) : Prop :=
  ∀ v ∈ vs, v ≠ param → ∃ x, old.get? v = some x ∧ new.get? (rename v) = some x

/-- The variables from `fresh` on hold the inputs at the given indices. -/
def Fetched (inputs : List Value) (new : Frame) (fresh : Nat) (indices : List Nat) : Prop :=
  ∀ k i, indices[k]? = some i → ∃ x, inputs[i]? = some x ∧ new.get? ⟨fresh + k⟩ = some x

theorem carries_append {param : VarId} {rename : VarId → VarId} {old new : Frame}
    {vs us : List VarId} :
    Carries param rename old new (vs ++ us) ↔
      Carries param rename old new vs ∧ Carries param rename old new us := by
  simp only [Carries, List.mem_append]
  exact ⟨fun all => ⟨fun v mem => all v (.inl mem), fun v mem => all v (.inr mem)⟩,
    fun both v mem => mem.elim (both.1 v) (both.2 v)⟩

theorem fetched_append {inputs : List Value} {new : Frame} {fresh : Nat}
    {indices more : List Nat} (all : Fetched inputs new fresh (indices ++ more)) :
    Fetched inputs new fresh indices ∧ Fetched inputs new (fresh + indices.length) more := by
  constructor
  · intro k i at_k
    refine all k i ?_
    rw [List.getElem?_append_left (List.getElem?_eq_some_iff.mp at_k).1]
    exact at_k
  · intro k i at_k
    have at_sum : (indices ++ more)[indices.length + k]? = some i := by
      rw [List.getElem?_append_right (Nat.le_add_right _ _), Nat.add_sub_cancel_left]
      exact at_k
    obtain ⟨x, found, bound⟩ := all (indices.length + k) i at_sum
    exact ⟨x, found, by rwa [Nat.add_assoc]⟩

mutual

/-- A redirected expression does what the expression itself does. -/
theorem commutes_redirect (serves : outer.Serves inner) (store : ParamStore) {param : VarId}
    {rename : VarId → VarId} {inputs : List Value} {old new : Frame}
    (known : old.get? param = some (.tuple inputs)) {fresh : Nat} {e : Expr}
    (stays : e.escapes param = false) (independent : e.Independent m.symbols)
    (carries : Carries param rename old new e.reads)
    (fetched : Fetched inputs new fresh (e.inputReads param)) :
    EStateM.Commutes (serves.state store) (m.eval outer new (e.redirect param rename fresh))
      (m.eval inner old e) := by
  match e with
  | .var v =>
    have not_param : v ≠ param := by simpa [Expr.escapes] using stays
    obtain ⟨x, bound, bound'⟩ := carries v (by simp [Expr.reads]) not_param
    simp only [Expr.redirect, eval, bound, bound']
    exact EStateM.Commutes.pure x
  | .tuple fields =>
    rw [Expr.redirect, eval, eval]
    exact (commutes_redirectAll serves store known stays independent carries fetched).bind
      fun values => EStateM.Commutes.pure _
  | .proj base i =>
    by_cases is_input : base.asVar? = some param
    · obtain rfl := Expr.asVar?_eq_some_iff.mp is_input
      obtain ⟨x, found, bound⟩ := fetched 0 i (by simp [Expr.inputReads, Expr.asVar?])
      rw [Nat.add_zero] at bound
      rw [Expr.redirect, if_pos is_input]
      simp only [eval, bound, known]
      intro u
      simp only [pure_bind, project, found]
      rfl
    · rw [Expr.escapes, if_neg is_input] at stays
      rw [Expr.inputReads, if_neg is_input] at fetched
      rw [Expr.redirect, if_neg is_input, eval, eval]
      exact (commutes_redirect serves store known stays independent carries fetched).bind
        fun value => EStateM.Commutes.ofExcept _
  | .call callee args ty =>
    rw [Expr.escapes, Bool.or_eq_false_iff] at stays
    rw [Expr.reads, carries_append] at carries
    rw [Expr.inputReads] at fetched
    rw [Expr.redirect, eval, eval]
    refine (commutes_redirectAll serves store known stays.2
      (fun name mem => independent name (by simp [Expr.hosts, mem])) carries.2
      (fetched_append fetched).2).bind fun values => ?_
    cases callee with
    | op name => exact EStateM.Commutes.ofExcept _
    | host name => exact serves.forward (independent name (by simp [Expr.hosts])) values store
    | proj base i =>
      rw [Expr.redirect]
      split <;> exact EStateM.Commutes.throw _
    | _ => exact EStateM.Commutes.throw _
  | .lit l => cases l <;> exact EStateM.Commutes.pure _
  | .host name => exact EStateM.Commutes.throw _
  | .op name => exact EStateM.Commutes.throw _

/-- `commutes_redirect` for a list of expressions. -/
theorem commutes_redirectAll (serves : outer.Serves inner) (store : ParamStore) {param : VarId}
    {rename : VarId → VarId} {inputs : List Value} {old new : Frame}
    (known : old.get? param = some (.tuple inputs)) {fresh : Nat} {es : List Expr}
    (stay : Expr.escapesAny param es = false)
    (independent : ∀ name ∈ Expr.hostsAll es,
      StoreService.ofName? (m.symbols.resolve name) = none)
    (carries : Carries param rename old new (Expr.readsAll es))
    (fetched : Fetched inputs new fresh (Expr.inputReadsAll param es)) :
    EStateM.Commutes (serves.state store)
      (m.evalAll outer new (Expr.redirectAll param rename fresh es)) (m.evalAll inner old es) := by
  match es with
  | [] => exact EStateM.Commutes.pure _
  | e :: es =>
    rw [Expr.escapesAny, Bool.or_eq_false_iff] at stay
    rw [Expr.readsAll, carries_append] at carries
    rw [Expr.inputReadsAll] at fetched
    rw [Expr.redirectAll, evalAll, evalAll]
    refine (commutes_redirect serves store known stay.1
      (fun name mem => independent name (by simp [Expr.hostsAll, mem])) carries.1
      (fetched_append fetched).1).bind fun value => ?_
    exact (commutes_redirectAll serves store known stay.2
      (fun name mem => independent name (by simp [Expr.hostsAll, mem])) carries.2
      (fetched_append fetched).2).bind fun values => EStateM.Commutes.pure _

end

/-! ### Calls to the store -/

section Calls

variable {calls : StoreCalls}

theorem eval_fetch (resolved : calls.Resolved m.symbols) (host : Host τ) (frame : Frame)
    (i : Nat) :
    m.eval host frame (calls.fetch i) = host.call StoreService.fetch.name [.int i] := by
  simp [StoreCalls.fetch, eval, evalAll, apply, resolved.fetch]

theorem eval_commit (resolved : calls.Resolved m.symbols) (host : Host τ) {frame : Frame}
    {v : VarId} {x : Value} (bound : frame.get? v = some x) (slot : Nat) :
    m.eval host frame (calls.commit v slot) =
      host.call StoreService.commit.name [.int slot, x] := by
  simp [StoreCalls.commit, eval, evalAll, apply, bound, resolved.commit]

theorem eval_release (resolved : calls.Resolved m.symbols) (host : Host τ) {frame : Frame}
    {v : VarId} {x : Value} (bound : frame.get? v = some x) :
    m.eval host frame (calls.release v) = host.call StoreService.release.name [x] := by
  simp [StoreCalls.release, eval, evalAll, apply, bound, resolved.release]

/-- A run of bindings to consecutive variables, each of which acts on the store and does not
depend on those before it. -/
theorem run_numbered (serves : outer.Serves inner) {α : Type} {expr : α → Expr}
    {value : α → Value} {act : α → ParamStore → ParamStore} {xs : List α} {frame : Frame}
    {start : Nat} {store : ParamStore} {u : σ}
    (answers : ∀ x ∈ xs, ∀ new : Frame,
      (∀ v : VarId, v.index < start → new.get? v = frame.get? v) →
      ∀ s : ParamStore, s.inputs = store.inputs →
        (m.eval outer new (expr x)).run (serves.state s u) =
          .ok (value x) (serves.state (act x s) u))
    (keeps : ∀ x s, (act x s).inputs = s.inputs) :
    (m.evalBindings outer frame (numbered start (xs.map expr))).run (serves.state store u) =
      .ok (frame.bindFrom start (xs.map value))
        (serves.state (xs.foldl (fun s x => act x s) store) u) := by
  induction xs generalizing frame start store with
  | nil => rfl
  | cons x xs ih =>
    rw [List.map_cons, numbered_cons, evalBindings, EStateM.run_bind,
      answers x List.mem_cons_self frame (fun _ _ => rfl) store rfl]
    refine ih fun y mem new agree s same_inputs => ?_
    refine answers y (List.mem_cons_of_mem _ mem) new (fun v before => ?_) s
      (same_inputs.trans (keeps x store))
    have differ : (⟨start⟩ : VarId) ≠ v := by
      rintro rfl
      exact Nat.lt_irrefl _ before
    rw [agree v (Nat.lt_succ_of_lt before), Frame.get?_bind_of_ne differ]

/-- The fetches of a segment, when all inputs are there. -/
theorem run_fetches (serves : outer.Serves inner) (resolved : calls.Resolved m.symbols)
    {indices : List Nat} {frame : Frame} {start : Nat} {store : ParamStore} (u : σ)
    (found : ∀ i ∈ indices, ∃ x, store.inputs[i]? = some x) :
    (m.evalBindings outer frame (numbered start (indices.map calls.fetch))).run
        (serves.state store u) =
      .ok (frame.bindFrom start (indices.map fun i => (store.inputs[i]?).getD .unit))
        (serves.state (store.holdAll (indices.map fun i => (store.inputs[i]?).getD .unit)) u) := by
  rw [ParamStore.holdAll, List.foldl_map]
  refine run_numbered serves (fun i mem new _ s same_inputs => ?_) (fun _ _ => rfl)
  obtain ⟨x, is_x⟩ := found i mem
  rw [eval_fetch resolved, is_x, Option.getD_some]
  exact serves.fetch u (same_inputs ▸ is_x)

/-- The fetches of a segment, when an input is missing. -/
theorem run_fetches_missing (serves : outer.Serves inner) (resolved : calls.Resolved m.symbols)
    {indices : List Nat} {frame : Frame} {start : Nat} {store : ParamStore} (u : σ) {i : Nat}
    (mem : i ∈ indices) (missing : store.inputs[i]? = none) :
    ∃ e t, (m.evalBindings outer frame (numbered start (indices.map calls.fetch))).run
      (serves.state store u) = .error e t := by
  induction indices generalizing frame start store with
  | nil => simp at mem
  | cons j indices ih =>
    rw [List.map_cons, numbered_cons, evalBindings, EStateM.run_bind, eval_fetch resolved]
    cases found : store.inputs[j]? with
    | none =>
      obtain ⟨e, t, fails⟩ := serves.fetch_missing u found
      rw [fails]
      exact ⟨e, t, rfl⟩
    | some x =>
      rw [serves.fetch u found]
      have later : i ∈ indices := by
        rcases List.mem_cons.mp mem with rfl | later
        · simp [found] at missing
        · exact later
      have still_missing : (store.hold x).inputs[i]? = none := missing
      exact ih later still_missing

/-- The commits of a segment. -/
theorem run_commits (serves : outer.Serves inner) (resolved : calls.Resolved m.symbols)
    {frame : Frame} {v : VarId} {x : Value} (bound : frame.get? v = some x) {start : Nat}
    (before : v.index < start) (slots : List Nat) (store : ParamStore) (u : σ) :
    (m.evalBindings outer frame (numbered start (slots.map (calls.commit v)))).run
        (serves.state store u) =
      .ok (frame.bindFrom start (List.replicate slots.length .unit))
        (serves.state (store.commitAll slots x) u) := by
  rw [← List.map_const', ParamStore.commitAll]
  refine run_numbered serves (fun slot _ new agree s _ => ?_) (fun _ _ => rfl)
  have still_bound : new.get? v = some x := by rw [agree v before, bound]
  rw [eval_commit resolved outer still_bound]
  exact serves.commit s u slot x

/-- The releases of a segment. -/
theorem run_releases (serves : outer.Serves inner) (resolved : calls.Resolved m.symbols)
    {frame : Frame} {start : Nat} {released : List VarId}
    (bound : ∀ t ∈ released, t.index < start ∧ ∃ x, frame.get? t = some x) (store : ParamStore)
    (u : σ) :
    (m.evalBindings outer frame (numbered start (released.map calls.release))).run
        (serves.state store u) =
      .ok (frame.bindFrom start (List.replicate released.length .unit))
        (serves.state
          (store.releaseAll (released.map fun t => (frame.get? t).getD .unit)) u) := by
  rw [← List.map_const', ParamStore.releaseAll, List.foldl_map]
  refine run_numbered serves (fun t mem new agree s _ => ?_) (fun _ _ => rfl)
  obtain ⟨before, x, is_x⟩ := bound t mem
  have still_bound : new.get? t = some x := by rw [agree t before, is_x]
  rw [eval_release resolved outer still_bound, is_x, Option.getD_some]
  exact serves.release s u x

end Calls

end Evaluator

end ParamStream
