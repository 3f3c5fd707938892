import ParamStream.Proofs.Holding
import ParamStream.Proofs.Simulation
import ParamStream.Proofs.Sufficiency

/-!
# What is resident in the store

The store knows values, not variables: a release drops the first resident equal to the value that
is released.  So the release of a computed value, or of one of several equal inputs, may drop a
resident that another variable stands for.  It never matters in the end.  At each point of a run the
residents are among the values of the variables that hold an input there, counted with repetition
(`Residency`), and a release takes away at most what it takes away on the side of the variables.

Where only inputs are released, nothing is dropped on behalf of another variable and the numbers
agree at each point, so the peak of the store is the peak of the code.

## Main definitions

* `Expr.Idle` — no call that an expression makes is a fetch or a release;
* `Expr.UsesStore` — the expression is a fetch, a release, or idle;
* `Residency` — how the residents of a store compare to the variables that hold inputs.

## Main statements

* `Residency.step`, `Residency.run` — one binding and a run of bindings;
* `Func.residency_bound`.
-/

namespace ParamStream

open Holding

/-! ### Calls that leave the residents alone -/

/-- No host function that the expression refers to is a fetch or a release. -/
def Expr.Idle (table : SymbolTable) (e : Expr) : Prop :=
  ∀ name ∈ e.hosts, StoreService.ofName? (table.resolve name) ≠ some .fetch ∧
    StoreService.ofName? (table.resolve name) ≠ some .release

namespace Expr.Idle

variable {table : SymbolTable} {e : Expr}

theorem of_independent (independent : e.Independent table) : e.Idle table := by
  intro name mem
  simp [independent name mem]

theorem service?_ne_fetch (idle : e.Idle table) : e.service? table ≠ some .fetch := by
  cases e with
  | call callee args ty =>
    cases callee with
    | host name => exact (idle name (by simp [hosts])).1
    | _ => simp [service?]
  | _ => simp [service?]

theorem released?_eq_none (idle : e.Idle table) : e.released? table = none := by
  apply Expr.released?_eq_none
  cases e with
  | call callee args ty =>
    cases callee with
    | host name => exact (idle name (by simp [hosts])).2
    | _ => simp [service?]
  | _ => simp [service?]

end Expr.Idle

/-- The expression is a fetch, a release, or idle. -/
def Expr.UsesStore (calls : StoreCalls) (table : SymbolTable) (e : Expr) : Prop :=
  (∃ i, e = calls.fetch i) ∨ (∃ t, e = calls.release t) ∨ e.Idle table

/-- A call that is no fetch and no release keeps residents and peak, however it ends. -/
theorem ParamStore.state_of_other {name : String}
    (no_fetch : StoreService.ofName? name ≠ some .fetch)
    (no_release : StoreService.ofName? name ≠ some .release) (args : List Value)
    (s : ParamStore) :
    ((host.call name args).run s).state.resident = s.resident ∧
      ((host.call name args).run s).state.peak = s.peak := by
  show ((s.answer? name args).getD (.error (.unknownHost name) s)).state.resident = _ ∧
    ((s.answer? name args).getD (.error (.unknownHost name) s)).state.peak = _
  unfold answer?
  split
  · next is_fetch => exact absurd is_fetch no_fetch
  · split_ifs <;> exact ⟨rfl, rfl⟩
  · next is_release => exact absurd is_release no_release
  · exact ⟨rfl, rfl⟩

/-- An idle expression keeps residents and peak, however it ends. -/
theorem Evaluator.state_of_idle {m : Evaluator} {e : Expr} (idle : e.Idle m.symbols) (frame : Frame)
    (s : ParamStore) :
    ((m.eval ParamStore.host frame e).run s).state.resident = s.resident ∧
      ((m.eval ParamStore.host frame e).run s).state.peak = s.peak := by
  have keeps : m.Keeps ParamStore.host
      (fun s' => s'.resident = s.resident ∧ s'.peak = s.peak) e.hosts := by
    rintro name mem args s' ⟨residents, peaks⟩
    obtain ⟨residents', peaks'⟩ :=
      ParamStore.state_of_other (idle name mem).1 (idle name mem).2 args s'
    exact ⟨residents'.trans residents, peaks'.trans peaks⟩
  exact state_eval keeps ⟨rfl, rfl⟩

/-! ### Residents and variables -/

/-- The residents are among the inputs held by variables, and there have never been more residents
than variables at the peak.  If only inputs are released, the numbers are the same. -/
structure Residency (table : SymbolTable) (inputsOnly : Prop) (before : List Binding)
    (frame : Frame) (store : ParamStore) : Prop where
  resident : store.resident.Subperm ((held table before).filterMap frame.get?)
  peak_le : store.peak ≤ peak table before
  length_eq : inputsOnly → store.resident.length = (held table before).length
  peak_eq : inputsOnly → store.peak = peak table before

namespace Residency

variable {table : SymbolTable} {inputsOnly : Prop} {code before after : List Binding} {b : Binding}
  {t : VarId} {frame : Frame} {store : ParamStore} {size : Nat}

theorem start (table : SymbolTable) (inputsOnly : Prop) (frame : Frame) (inputs : List Value) :
    Residency table inputsOnly [] frame { inputs } :=
  ⟨List.nil_subperm, Nat.zero_le _, fun _ => rfl, fun _ => rfl⟩

theorem length_le (residency : Residency table inputsOnly before frame store) :
    store.resident.length ≤ (held table before).length :=
  residency.resident.length_le.trans (List.length_filterMap_le _ _)

/-- Binding a new variable changes no value of a variable that holds an input. -/
theorem filterMap_bind (orderly : Orderly table size code) (split : code = before ++ b :: after)
    {vs : List VarId} (sub : vs ⊆ held table before) (y : Value) :
    vs.filterMap (frame.bind b.var y).get? = vs.filterMap frame.get? := by
  refine List.filterMap_congr fun v mem => Frame.get?_bind_of_ne ?_ frame y
  rintro rfl
  exact orderly.var_notMem_held split (sub mem)

/-- A fetch adds a resident and a variable that holds it. -/
theorem fetch (residency : Residency table inputsOnly before frame store)
    (orderly : Orderly table size code) (split : code = before ++ b :: after)
    (is_fetch : b.value.service? table = some .fetch) (room : b.var.index < frame.length)
    (x : Value) :
    Residency table inputsOnly (before ++ [b]) (frame.bind b.var x) (store.hold x) := by
  have grows := held_of_fetch is_fetch (orderly.var_notMem_released split)
  have lengths : (store.hold x).resident.length = store.resident.length + 1 := by
    simp [ParamStore.hold]
  have peaks : (store.hold x).peak = max store.peak (store.resident.length + 1) := by
    simp [ParamStore.hold]
  refine ⟨?_, ?_, fun is_only => ?_, fun is_only => ?_⟩
  · rw [grows, List.filterMap_append, filterMap_bind orderly split (List.Subset.refl _)]
    have own : [b.var].filterMap (frame.bind b.var x).get? = [x] := by
      simp [Frame.get?_bind_self room]
    rw [own]
    exact residency.resident.append (List.Subperm.refl _)
  · rw [peaks, peak_append_singleton, grows, List.length_append, List.length_singleton]
    exact max_le_max residency.peak_le (Nat.succ_le_succ residency.length_le)
  · rw [lengths, grows, List.length_append, residency.length_eq is_only, List.length_singleton]
  · rw [peaks, peak_append_singleton, grows, List.length_append, List.length_singleton,
      residency.peak_eq is_only, residency.length_eq is_only]

/-- A release drops at most the value of its variable on either side.  An input that is released is
dropped on both sides, if the residents are all there. -/
theorem release (residency : Residency table inputsOnly before frame store)
    (orderly : Orderly table size code) (split : code = before ++ b :: after)
    (releases : b.value.released? table = some t) (only : inputsOnly → t ∈ fetched table code)
    {x : Value} (found : frame.get? t = some x) (y : Value) :
    Residency table inputsOnly (before ++ [b]) (frame.bind b.var y) (store.release x) := by
  have is_release := (mem_reads_of_released? releases).1
  have shrinks := held_of_release (orderly.nodup_held split) is_release releases
  have shorter : (held table (before ++ [b])).length ≤ (held table before).length := by
    rw [shrinks]
    exact List.length_erase_le
  refine ⟨?_, ?_, fun is_only => ?_, fun is_only => ?_⟩
  · show (store.resident.erase x).Subperm _
    rw [shrinks, filterMap_bind orderly split List.erase_subset]
    by_cases mem : t ∈ held table before
    · have moved := (List.perm_cons_erase mem).filterMap frame.get?
      rw [List.filterMap_cons_some found] at moved
      have dropped := (residency.resident.trans moved.subperm).erase x
      rwa [List.erase_cons_head] at dropped
    · rw [List.erase_of_not_mem mem]
      exact (List.erase_subperm x _).trans residency.resident
  · rw [peak_append_singleton_of_le shorter]
    exact residency.peak_le
  · have mem := orderly.mem_held_of_release split releases (only is_only)
    -- The residents are as many as the variables, so they are all there.
    have complete : ((held table before).filterMap frame.get?).length ≤ store.resident.length := by
      rw [residency.length_eq is_only]
      exact List.length_filterMap_le _ _
    have x_resident : x ∈ store.resident :=
      (residency.resident.perm_of_length_le complete).mem_iff.mpr
        (List.mem_filterMap.mpr ⟨t, mem, found⟩)
    show (store.resident.erase x).length = _
    rw [shrinks, List.length_erase_of_mem x_resident, List.length_erase_of_mem mem,
      residency.length_eq is_only]
  · rw [peak_append_singleton_of_le shorter]
    exact residency.peak_eq is_only

/-- Anything else changes neither side. -/
theorem idle (residency : Residency table inputsOnly before frame store)
    (orderly : Orderly table size code) (split : code = before ++ b :: after)
    (is_idle : b.value.Idle table) {store' : ParamStore}
    (residents : store'.resident = store.resident) (peaks : store'.peak = store.peak) (y : Value) :
    Residency table inputsOnly (before ++ [b]) (frame.bind b.var y) store' := by
  have same : held table (before ++ [b]) = held table before :=
    held_of_other is_idle.service?_ne_fetch is_idle.released?_eq_none
  have same_peak : peak table (before ++ [b]) = peak table before :=
    peak_append_singleton_of_le (by rw [same])
  refine ⟨?_, ?_, fun is_only => ?_, fun is_only => ?_⟩
  · rw [same, residents, filterMap_bind orderly split (List.Subset.refl _)]
    exact residency.resident
  · rw [same_peak, peaks]
    exact residency.peak_le
  · rw [same, residents]
    exact residency.length_eq is_only
  · rw [same_peak, peaks]
    exact residency.peak_eq is_only

/-! ### Runs -/

variable {m : Evaluator} {calls : StoreCalls}

/-- **One binding** of orderly code.  An error leaves the peak where it was. -/
theorem step (residency : Residency m.symbols inputsOnly before frame store)
    (orderly : Orderly m.symbols size code) (split : code = before ++ b :: after)
    (resolved : calls.Resolved m.symbols) (kind : b.value.UsesStore calls m.symbols)
    (only : inputsOnly → ∀ t ∈ released m.symbols code, t ∈ fetched m.symbols code)
    (room : b.var.index < frame.length) :
    ((m.eval ParamStore.host frame b.value).run store).Ends
      (fun y s => Residency m.symbols inputsOnly (before ++ [b]) (frame.bind b.var y) s)
      (fun s => s.peak ≤ peak m.symbols before) := by
  rcases kind with ⟨i, is_fetch⟩ | ⟨t, is_release⟩ | is_idle
  · have service : b.value.service? m.symbols = some .fetch := is_fetch ▸ resolved.service?_fetch i
    rw [is_fetch, Evaluator.eval_fetch resolved]
    cases found : store.inputs[i]? with
    | some x =>
      have answer := ParamStore.host_fetch_of_input ((store.input?_natCast i).trans found)
      rw [EStateM.run, answer]
      exact residency.fetch orderly split service room x
    | none =>
      have answer := ParamStore.host_fetch_of_missing ((store.input?_natCast i).trans found)
      rw [EStateM.run, answer]
      exact residency.peak_le
  · have releases : b.value.released? m.symbols = some t :=
      is_release ▸ resolved.released?_release t
    have released_in : t ∈ released m.symbols code :=
      List.mem_filterMap.mpr ⟨b, split ▸ by simp, releases⟩
    rw [is_release]
    cases found : frame.get? t with
    | some x =>
      rw [Evaluator.eval_release resolved ParamStore.host found, EStateM.run,
        ParamStore.host_release]
      exact residency.release orderly split releases (fun is_only => only is_only t released_in)
        found .unit
    | none =>
      have fails : m.eval ParamStore.host frame (calls.release t) = throw (.unbound t) := by
        simp only [StoreCalls.release, Evaluator.eval, Evaluator.evalAll, found]
        rfl
      rw [fails]
      exact residency.peak_le
  · obtain ⟨residents, peaks⟩ := Evaluator.state_of_idle is_idle frame store
    cases ends : (m.eval ParamStore.host frame b.value).run store with
    | ok y s =>
      rw [ends] at residents peaks
      exact residency.idle orderly split is_idle residents peaks y
    | error e s =>
      rw [ends] at peaks
      exact peaks.trans_le residency.peak_le

/-- **A run of bindings**, by induction on what is left of the code. -/
theorem run (residency : Residency m.symbols inputsOnly before frame store)
    (orderly : Orderly m.symbols size code) (split : code = before ++ after)
    (resolved : calls.Resolved m.symbols)
    (kinds : ∀ b ∈ code, b.value.UsesStore calls m.symbols)
    (only : inputsOnly → ∀ t ∈ released m.symbols code, t ∈ fetched m.symbols code)
    (room : size ≤ frame.length) :
    ((m.evalBindings ParamStore.host frame after).run store).Ends
      (fun frame s => Residency m.symbols inputsOnly code frame s)
      (fun s => s.peak ≤ peak m.symbols code) := by
  induction after generalizing before frame store with
  | nil =>
    rw [List.append_nil] at split
    rw [split]
    exact residency
  | cons b after ih =>
    have mem : b ∈ code := split ▸ by simp
    have inside := orderly.ordered.var_lt_size b mem
    refine EStateM.Result.Ends.bind
      (residency.step orderly split resolved (kinds b mem) only (by omega))
      (fun y s after_b => ?_) (fun s bounded => ?_)
    · exact ih after_b (by rw [split, List.append_assoc]; rfl) (by rwa [Frame.length_bind])
    · rw [split]
      exact bounded.trans (peak_le_append before _)

end Residency

/-! ### Streaming forms -/

/-- The code of a streaming form consists of fetches, releases and idle bindings. -/
theorem Layout.usesStore_of_mem_code {f : Func} {calls : StoreCalls} {plan : Plan}
    (l : Layout f calls plan) {table : SymbolTable} (resolved : calls.Resolved table)
    (independent : f.Independent table) {b : Binding} (mem : b ∈ l.code) :
    b.value.UsesStore calls table := by
  obtain ⟨g, g_mem, in_code⟩ := List.mem_flatMap.mp mem
  rcases Segment.cases_of_mem_code in_code with
    ⟨i, -, is_fetch⟩ | rfl | ⟨slot, -, is_commit⟩ | ⟨t, -, is_release⟩
  · exact .inl ⟨i, is_fetch⟩
  · show g.value.UsesStore calls table
    by_cases is_output : g.source.var = plan.convention.output
    · rw [(l.isOutput g g_mem is_output).value]
      refine .inr (.inr fun name name_mem => ?_)
      simp [Expr.hosts, Expr.hostsAll_eq_flatMap] at name_mem
    · rw [(l.isValue g g_mem is_output).value, Expr.streamed]
      split
      · next i _ => exact .inl ⟨i, rfl⟩
      · refine .inr (.inr (.of_independent fun name name_mem => ?_))
        rw [Expr.hosts_redirect] at name_mem
        exact independent.1 g.source (l.source_mem g_mem) name name_mem
  · refine .inr (.inr fun name name_mem => ?_)
    rw [is_commit, StoreCalls.hosts_commit, List.mem_singleton] at name_mem
    simp [name_mem, resolved.commit]
  · exact .inr (.inl ⟨t, is_release⟩)

namespace Func

variable {f g : Func} {table names : SymbolTable} {intermediates : Bool}

/-- How the run of a streaming form ends, as far as residents are concerned. -/
theorem ends_of_stream (streamed : f.stream table intermediates = (.ok g, names))
    (independent : f.Independent names) (operators : OperatorTable) (inputs : List Value) :
    (g.runFrom names operators inputs).Ends
      (fun _ s => s.resident = [] ∧ s.peak ≤ peak names g.bindings ∧
        (intermediates = false → s.peak = peak names g.bindings))
      (fun s => s.peak ≤ peak names g.bindings) := by
  obtain ⟨plan, l, has_plan, resolved, describes, orderly⟩ := exists_orderly streamed independent
  have planned := Planned.of_plan has_plan
  have only : intermediates = false →
      ∀ t ∈ released names l.code, t ∈ fetched names l.code := by
    rintro rfl t mem
    refine l.fetched_of_released resolved independent planned (fun v v_tracked => ?_) mem
    simpa using mem_tracked.mp v_tracked
  have run := (Residency.start names (intermediates = false)
    (Frame.blank (Segment.sizes l.segments)) inputs).run (m := ⟨names, operators⟩) orderly
    (List.nil_append l.code).symm resolved
    (fun b => l.usesStore_of_mem_code resolved independent) only
    (by simp [Frame.blank, describes.size])
  rw [runFrom, Evaluator.run_of_describes _ _ describes, describes.code]
  refine run.bind (fun frame s residency => ?_) fun s bounded => bounded
  have none_held : s.resident = [] := by
    have among := residency.resident
    rw [orderly.held_eq_nil] at among
    exact List.subperm_nil.mp among
  -- The result is a variable, and reading it leaves the store alone.
  have unchanged : ((Evaluator.eval ⟨names, operators⟩ ParamStore.host frame
      (.var (l.rename plan.convention.output))).run s).state = s := by
    unfold Evaluator.eval
    cases frame.get? (l.rename plan.convention.output) <;> rfl
  refine EStateM.Result.Ends.of_state (S := fun s' => s' = s) unchanged ?_ ?_
  · rintro _ _ rfl
    exact ⟨none_held, residency.peak_le, residency.peak_eq⟩
  · rintro _ rfl
    exact residency.peak_le

/-- The form that releases inputs only exists when the other one does. -/
theorem exists_stream_false (streamed : f.stream table intermediates = (.ok g, names)) :
    ∃ plain, f.stream table false = (.ok plain, names) := by
  have answered : (f.stream table intermediates).1 = .ok g := by rw [streamed]
  have same : names = (StoreCalls.intern table).2 := by rw [← stream_snd answered, streamed]
  obtain ⟨plan, has_plan, -⟩ := stream_eq_ok_iff.mp answered
  obtain ⟨plan', has_plan'⟩ :=
    (f.exists_plan_iff false).mpr ((f.exists_plan_iff intermediates).mp ⟨plan, has_plan⟩)
  obtain ⟨plain, lowered⟩ := (Planned.of_plan has_plan').exists_lower (StoreCalls.intern table).1
  have answered' : (f.stream table false).1 = .ok plain :=
    stream_eq_ok_iff.mpr ⟨plan', has_plan', lowered⟩
  exact ⟨plain, Prod.ext answered' ((stream_snd answered').trans same.symm)⟩

/-- **Residency.**  When the run of a streaming form returns, nothing is resident any more; and if
only inputs are released, the peak of the store is the peak of the code, whatever the inputs are.
If computed values are released as well, the store never holds more than the peak of the form that
releases inputs only, however the run ends. -/
theorem residency_bound (streamed : f.stream table intermediates = (.ok g, names))
    (independent : f.Independent names) (operators : OperatorTable) (inputs : List Value) :
    (∀ v s, g.runFrom names operators inputs = .ok v s →
      s.resident = [] ∧ (intermediates = false → s.peak = peak names g.bindings)) ∧
    ∃ plain, f.stream table false = (.ok plain, names) ∧
      (g.runFrom names operators inputs).state.peak ≤ peak names plain.bindings := by
  have ends := ends_of_stream streamed independent operators inputs
  refine ⟨fun v s returns => ?_, ?_⟩
  · rw [returns] at ends
    exact ⟨ends.1, ends.2.2⟩
  · obtain ⟨plain, streamed_plain⟩ := exists_stream_false streamed
    refine ⟨plain, streamed_plain, ?_⟩
    rw [← peak_eq_of_stream streamed streamed_plain independent]
    exact ends.state (fun _ _ at_end => at_end.2.1) fun _ bounded => bounded

end Func

namespace Sample

/-- Four tensors come in.  The first is negated twice, and then the other three are packed. -/
def packedTensors : Func where
  params := [⟨0⟩]
  blocks :=
    [⟨.dataflow,
      [⟨⟨1⟩, .proj (.var ⟨0⟩) 0⟩,
        ⟨⟨2⟩, .proj (.var ⟨0⟩) 1⟩,
        ⟨⟨3⟩, .call (.op ⟨6⟩) [.var ⟨1⟩] .tensor⟩,
        ⟨⟨4⟩, .call (.op ⟨6⟩) [.var ⟨3⟩] .tensor⟩,
        ⟨⟨5⟩, .call (.op ⟨7⟩) [.var ⟨2⟩, .proj (.var ⟨0⟩) 2, .proj (.var ⟨0⟩) 3] .tensor⟩,
        ⟨⟨6⟩, .tuple [.var ⟨4⟩, .var ⟨5⟩]⟩]⟩]
  result := .var ⟨6⟩
  resultTy := .tuple [.tensor, .tensor]
  vars :=
    [⟨⟨1⟩, .tuple [.tensor, .tensor, .tensor, .tensor]⟩, ⟨⟨2⟩, .tensor⟩, ⟨⟨3⟩, .tensor⟩,
      ⟨⟨4⟩, .tensor⟩, ⟨.empty, .tensor⟩, ⟨.empty, .tensor⟩, ⟨⟨5⟩, .tuple [.tensor, .tensor]⟩]
  attrs := []

def tensorOperators : OperatorTable := [(⟨6⟩, Operator.neg), (⟨7⟩, Operator.pack)]

end Sample

namespace Func

open Sample in
/-- The negation of the first input equals the second input, so its release drops the resident that
the second variable stands for.  The store then holds two values where the code holds three. -/
theorem residency_bound_packedTensors : ∃ g plain names v s,
    packedTensors.stream tensorNames true = (.ok g, names) ∧ packedTensors.Independent names ∧
      g.runFrom names tensorOperators [.int 1, .int (-1), .int 7, .int 8] = .ok v s ∧
      packedTensors.stream tensorNames false = (.ok plain, names) ∧
      s.resident = [] ∧ s.peak = 2 ∧ s.peak ≤ peak names plain.bindings ∧
      peak names plain.bindings = 3 := by
  have streamed : packedTensors.stream tensorNames true = (.ok _, _) := rfl
  have independent : packedTensors.Independent (StoreCalls.intern tensorNames).2 := by decide
  obtain ⟨at_end, plain, streamed_plain, bounded⟩ := residency_bound streamed independent
    tensorOperators [.int 1, .int (-1), .int 7, .int 8]
  obtain ⟨rfl⟩ : Except.ok plain = (packedTensors.stream tensorNames false).1 := by
    rw [streamed_plain]
  exact ⟨_, _, _, _, _, streamed, independent, rfl, rfl, (at_end _ _ rfl).1, rfl, bounded,
    by decide⟩

end Func

end ParamStream
