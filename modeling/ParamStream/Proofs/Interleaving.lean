import ParamStream.Parallel
import ParamStream.Proofs.Atomicity

/-!
# Workers side by side

Workers that transform functions side by side race for the symbol table: between the look that does
not find a string and the step that appends it, another worker may append it, or a later one.  The
outcome is nevertheless the one of doing all work in order.

The reason is that all workers intern the same strings in the same order, as far as they go.  So
whoever appends next, the table is always the one at the outset with a first part of those strings
interned in order: its *stage*.  A worker may be behind the stage, and then finds its next string
where the sequential run has put it; or it is at the stage, and then it is the one to take it
further.  In no case is it ahead.

## Main definitions

* `Worker.HeadsFor` — what a worker has interned, what it will intern, and its result;
* `Pool.OnCourse` — the table is at a stage, and no worker is ahead of it;
* `Pass.interns` — the item is a selected function that passes its checks.

## Main statements

* `SymbolTable.intern_at_stage` — interning at a stage;
* `Pool.OnCourse.turn`, `Pool.OnCourse.run` — what a turn and a schedule preserve;
* `Pool.OnCourse.exists_results` — every schedule can be continued until all workers are done;
* `Pass.run_interleaved` — the pass has one outcome under all schedules.
-/

namespace ParamStream

/-! ### Stages of a table -/

namespace SymbolTable

/-- **Interning at a stage.**  Some first strings of `all` have been interned, and `done`, which
is no more than those, is followed by `s`.  Then `s` gets the symbol that it gets right after
`done`, and the table is again at a stage, which includes `s`. -/
theorem intern_at_stage {t : SymbolTable} {all stage done : List String} {s : String}
    (stage_le : stage <+: all) (behind : done <+: stage) (next_le : done ++ [s] <+: all) :
    ((t.internAll stage).2.intern s).1 = ((t.internAll done).2.intern s).1 ∧
      ∃ stage', stage <+: stage' ∧ done ++ [s] <+: stage' ∧ stage' <+: all ∧
        ((t.internAll stage).2.intern s).2 = (t.internAll stage').2 := by
  have step_snd : (t.internAll (done ++ [s])).2 = ((t.internAll done).2.intern s).2 :=
    t.internAll_append_snd done [s]
  have within : done ++ [s] <+: stage → ((t.internAll stage).2.intern s) =
      (((t.internAll done).2.intern s).1, (t.internAll stage).2) :=
    fun past => intern_of_prefix (step_snd ▸ t.strings_internAll_prefix past)
  rcases List.prefix_or_prefix_of_prefix next_le stage_le with past | ⟨more, rest⟩
  · rw [within past]
    exact ⟨rfl, stage, List.prefix_rfl, past, stage_le, rfl⟩
  · -- Between `done` and `done ++ [s]` there is no other stage.
    obtain ⟨between, rfl⟩ := behind
    rw [List.append_assoc, List.append_cancel_left_eq] at rest
    cases between with
    | nil =>
      rw [List.append_nil]
      exact ⟨rfl, done ++ [s], List.prefix_append _ _, List.prefix_rfl, next_le, step_snd.symm⟩
    | cons s' between =>
      obtain ⟨rfl, nothing⟩ := List.cons.inj rest
      obtain ⟨rfl, rfl⟩ := List.append_eq_nil_iff.mp nothing
      rw [within List.prefix_rfl]
      exact ⟨rfl, _, List.prefix_rfl, List.prefix_rfl, stage_le, rfl⟩

end SymbolTable

/-! ### Workers on their way -/

namespace Worker

variable {α β : Type} {t : SymbolTable}

/-- The worker has interned `done`, goes on to intern `rest` and ends with `a`, provided that each
string has the symbol that it gets when they are interned in order from `t`. -/
inductive HeadsFor (t : SymbolTable) (a : α) : List String → List String → Worker α → Prop
  | done {done : List String} : HeadsFor t a done [] (.done a)
  | lookup {done rest : List String} {s : String} {next : Option Symbol → Worker α}
      (hit : HeadsFor t a (done ++ [s]) rest (next (some ((t.internAll done).2.intern s).1)))
      (miss : HeadsFor t a done (s :: rest) (next none)) :
      HeadsFor t a done (s :: rest) (.lookup s next)
  | append {done rest : List String} {s : String} {next : Symbol → Worker α}
      (added : HeadsFor t a (done ++ [s]) rest (next ((t.internAll done).2.intern s).1)) :
      HeadsFor t a done (s :: rest) (.append s next)

/-- Work that starts by interning a string. -/
theorem HeadsFor.intern {a : α} {done rest : List String} {s : String} {k : Symbol → Worker α}
    (then_rest : HeadsFor t a (done ++ [s]) rest (k ((t.internAll done).2.intern s).1)) :
    HeadsFor t a done (s :: rest) (Worker.intern s >>= k) :=
  .lookup then_rest (.append then_rest)

/-- One piece of work after another. -/
theorem HeadsFor.bind {a : α} {b : β} {done rest more : List String} {w : Worker α}
    {k : α → Worker β} (first : HeadsFor t a done rest w)
    (second : HeadsFor t b (done ++ rest) more (k a)) :
    HeadsFor t b done (rest ++ more) (w >>= k) := by
  induction first with
  | done =>
    rw [List.append_nil] at second
    exact second
  | lookup hit miss ih_hit ih_miss =>
    exact .lookup (ih_hit (List.append_cons .. ▸ second)) (ih_miss second)
  | append added ih => exact .append (ih (List.append_cons .. ▸ second))

/-- The worker is on its way to a result and to having interned a list of strings, and it is not
ahead of the stage; or it has crashed, which it does only where `all` exceeds the capacity. -/
def OnWay (t : SymbolTable) (all stage : List String) (goal : α × List String) (w : Worker α) :
    Prop :=
  (∃ done rest, done ++ rest = goal.2 ∧ done <+: stage ∧ HeadsFor t goal.1 done rest w) ∨
    (∃ e, w = .crashed e) ∧ SymbolTable.capacity < (t.internAll all).2.size

namespace OnWay

variable {all stage stage' : List String} {goal : α × List String} {w : Worker α}

/-- A worker stays on its way when others move the stage on. -/
theorem mono (on_way : w.OnWay t all stage goal) (later : stage <+: stage') :
    w.OnWay t all stage' goal := by
  rcases on_way with ⟨done, rest, split, behind, heads⟩ | crashed
  · exact .inl ⟨done, rest, split, behind.trans later, heads⟩
  · exact .inr crashed

/-- A worker that is done has reached its goal. -/
theorem of_done {a : α} (on_way : (Worker.done a).OnWay t all stage goal) :
    a = goal.1 ∧ goal.2 <+: stage := by
  rcases on_way with ⟨done, rest, split, behind, heads⟩ | ⟨⟨e, crashed⟩, -⟩
  · cases heads
    rw [List.append_nil] at split
    exact ⟨rfl, split ▸ behind⟩
  · cases crashed

/-- Interning the next string moves the worker on, and the stage if the worker is at it. -/
theorem of_intern {done rest : List String} {s : String} {k : Symbol → Worker α}
    (stage_le : stage <+: all) (goal_le : goal.2 <+: all)
    (split : done ++ s :: rest = goal.2) (behind : done <+: stage)
    (heads : HeadsFor t goal.1 (done ++ [s]) rest (k ((t.internAll done).2.intern s).1)) :
    ∃ stage', stage <+: stage' ∧ stage' <+: all ∧
      ((t.internAll stage).2.intern s).2 = (t.internAll stage').2 ∧
      (k ((t.internAll stage).2.intern s).1).OnWay t all stage' goal := by
  rw [List.append_cons] at split
  have next_le : done ++ [s] <+: all := (split ▸ List.prefix_append _ _).trans goal_le
  obtain ⟨symbol, stage', later, includes, stage_le', table⟩ :=
    SymbolTable.intern_at_stage (t := t) stage_le behind next_le
  rw [← symbol] at heads
  exact ⟨stage', later, stage_le', table, .inl ⟨_, rest, split, includes, heads⟩⟩

/-- **One step of one worker.**  It keeps the worker on its way and the table at a stage. -/
theorem step (on_way : w.OnWay t all stage goal) (stage_le : stage <+: all)
    (goal_le : goal.2 <+: all) :
    ∃ stage', stage <+: stage' ∧ stage' <+: all ∧
      (w.step (t.internAll stage).2).2 = (t.internAll stage').2 ∧
      (w.step (t.internAll stage).2).1.OnWay t all stage' goal := by
  rcases on_way with ⟨done, rest, split, behind, heads⟩ | ⟨⟨e, rfl⟩, full⟩
  · cases heads with
    | done => exact ⟨stage, List.prefix_rfl, stage_le, rfl, .inl ⟨done, [], split, behind, .done⟩⟩
    | @lookup _ rest s next hit miss =>
      cases found : (t.internAll stage).2.find? s with
      | none =>
        rw [Worker.step, found]
        exact ⟨stage, List.prefix_rfl, stage_le, rfl, .inl ⟨done, s :: rest, split, behind, miss⟩⟩
      | some n =>
        have moved := of_intern (k := fun n => next (some n)) stage_le goal_le split behind hit
        rw [SymbolTable.intern_of_find? found] at moved
        rw [Worker.step, found]
        exact moved
    | @append _ rest s next added =>
      have moved := of_intern stage_le goal_le split behind added
      cases interned : (t.internAll stage).2.tryIntern s with
      | error e =>
        obtain ⟨stage', -, stage_le', table, -⟩ := moved
        have full := SymbolTable.capacity_lt_of_tryIntern interned
        rw [table] at full
        rw [Worker.step, interned]
        exact ⟨stage, List.prefix_rfl, stage_le, rfl, .inr ⟨⟨e, rfl⟩,
          Nat.lt_of_lt_of_le full (t.strings_internAll_prefix stage_le').length_le⟩⟩
      | ok r =>
        rw [SymbolTable.intern_of_tryIntern interned] at moved
        rw [Worker.step, interned]
        exact moved
  · exact ⟨stage, List.prefix_rfl, stage_le, rfl, .inr ⟨⟨e, rfl⟩, full⟩⟩

end OnWay

/-- The worker takes no more steps. -/
def Ended (w : Worker α) : Prop := (∃ a, w = .done a) ∨ ∃ e, w = .crashed e

theorem results?_eq_some_iff {ws : List (Worker α)} {results : List α} :
    results? ws = some results ↔ ws = results.map .done := by
  induction ws generalizing results with
  | nil => cases results <;> simp [results?]
  | cons w ws ih =>
    cases w with
    | done a =>
      simp only [results?, Option.map_eq_some_iff, ih]
      constructor
      · rintro ⟨rest, rfl, rfl⟩
        rfl
      · intro same
        cases results with
        | nil => cases same
        | cons b rest =>
          simp only [List.map_cons, List.cons.injEq, Worker.done.injEq] at same
          exact ⟨rest, same.2, by rw [same.1]⟩
    | _ => cases results <;> simp [results?]

theorem exists_results? {ws : List (Worker α)} (all_done : ∀ w ∈ ws, ∃ a, w = .done a) :
    ∃ results, results? ws = some results := by
  induction ws with
  | nil => exact ⟨[], rfl⟩
  | cons w ws ih =>
    obtain ⟨⟨a, rfl⟩, rest⟩ := List.forall_mem_cons.mp all_done
    obtain ⟨results, complete⟩ := ih rest
    exact ⟨a :: results, by rw [results?, complete, Option.map_some]⟩

end Worker

/-! ### Pools on course -/

namespace Pool

variable {α : Type} {t : SymbolTable} {all stage : List String} {goals : List (α × List String)}
variable {p : Pool α}

/-- The table is at a stage of interning `all`, and each worker is on the way to its goal without
being ahead of that stage. -/
structure OnCourse (t : SymbolTable) (all : List String) (goals : List (α × List String))
    (stage : List String) (p : Pool α) : Prop where
  stage_le : stage <+: all
  table : p.table = (t.internAll stage).2
  length : p.workers.length = goals.length
  each : ∀ (i : Nat) (goal : α × List String) (w : Worker α), goals[i]? = some goal →
    p.workers[i]? = some w → w.OnWay t all stage goal

namespace OnCourse

/-- **One turn** keeps a pool on course. -/
theorem turn (on_course : OnCourse t all goals stage p) (goals_le : ∀ goal ∈ goals, goal.2 <+: all)
    (i : Nat) : ∃ stage', OnCourse t all goals stage' (p.turn i) := by
  unfold Pool.turn
  cases at_i : p.workers[i]? with
  | none => exact ⟨stage, on_course⟩
  | some w =>
    obtain ⟨inside, -⟩ := List.getElem?_eq_some_iff.mp at_i
    obtain ⟨goal, goal_at_i⟩ : ∃ goal, goals[i]? = some goal :=
      ⟨_, List.getElem?_eq_getElem (on_course.length ▸ inside)⟩
    obtain ⟨stage', later, stage_le', table', on_way'⟩ :=
      (on_course.each i goal w goal_at_i at_i).step on_course.stage_le
        (goals_le goal (List.mem_of_getElem? goal_at_i))
    rw [← on_course.table] at table' on_way'
    refine ⟨stage', stage_le', table', ?_, ?_⟩
    · rw [List.length_set, on_course.length]
    · intro j goal' w' goal_at_j at_j
      by_cases same : i = j
      · subst same
        rw [List.getElem?_set_self inside] at at_j
        obtain rfl := Option.some.inj at_j
        obtain rfl := Option.some.inj (goal_at_i.symm.trans goal_at_j)
        exact on_way'
      · rw [List.getElem?_set_ne same] at at_j
        exact (on_course.each j goal' w' goal_at_j at_j).mono later

/-- **A schedule** keeps a pool on course. -/
theorem run (on_course : OnCourse t all goals stage p) (goals_le : ∀ goal ∈ goals, goal.2 <+: all)
    (schedule : List Nat) : ∃ stage', OnCourse t all goals stage' (p.run schedule) := by
  induction schedule generalizing p stage with
  | nil => exact ⟨stage, on_course⟩
  | cons i schedule ih =>
    obtain ⟨_, on_course'⟩ := on_course.turn goals_le i
    exact ih on_course'

/-- When all workers are done, they have reached their goals. -/
theorem of_results (on_course : OnCourse t all goals stage p) {results : List α}
    (complete : p.results? = some results) :
    results = goals.map Prod.fst ∧ ∀ goal ∈ goals, goal.2 <+: stage := by
  have workers := Worker.results?_eq_some_iff.mp complete
  have length : results.length = goals.length := by
    rw [← on_course.length, workers, List.length_map]
  have reached : ∀ (i : Nat) (a : α) (goal : α × List String), results[i]? = some a →
      goals[i]? = some goal → a = goal.1 ∧ goal.2 <+: stage := by
    intro i a goal at_i goal_at_i
    refine (on_course.each i goal (.done a) goal_at_i ?_).of_done
    rw [workers, List.getElem?_map, at_i]
    rfl
  constructor
  · refine List.ext_getElem? fun i => ?_
    rw [List.getElem?_map]
    cases goal_at_i : goals[i]? with
    | none =>
      rw [List.getElem?_eq_none_iff] at goal_at_i
      exact List.getElem?_eq_none (length ▸ goal_at_i)
    | some goal =>
      obtain ⟨inside, -⟩ := List.getElem?_eq_some_iff.mp goal_at_i
      have at_i := List.getElem?_eq_getElem (length.symm ▸ inside : i < results.length)
      rw [at_i, (reached i _ goal at_i goal_at_i).1]
      rfl
  · intro goal mem
    obtain ⟨i, goal_at_i⟩ := List.getElem?_of_mem mem
    obtain ⟨inside, -⟩ := List.getElem?_eq_some_iff.mp goal_at_i
    exact (reached i _ goal (List.getElem?_eq_getElem (length.symm ▸ inside)) goal_at_i).2

/-- When all workers are done, the table is at the last stage that a goal asks for. -/
theorem table_of_results (on_course : OnCourse t all goals stage p) {results : List α}
    (complete : p.results? = some results) (asked : all = [] ∨ ∃ goal ∈ goals, goal.2 = all) :
    p.table = (t.internAll all).2 := by
  have last : all <+: stage := by
    rcases asked with rfl | ⟨goal, mem, rfl⟩
    · exact List.nil_prefix
    · exact (on_course.of_results complete).2 goal mem
  rw [on_course.table, on_course.stage_le.eq_of_length_le last.length_le]

end OnCourse

/-! ### Schedules that complete -/

theorem run_append (p : Pool α) (schedule more : List Nat) :
    p.run (schedule ++ more) = (p.run schedule).run more := List.foldl_append

theorem workers_turn {i : Nat} {w : Worker α} (at_i : p.workers[i]? = some w) :
    (p.turn i).workers = p.workers.set i (w.step p.table).1 := by
  rw [turn, at_i]

theorem getElem?_workers_turn {i : Nat} {w : Worker α} (at_i : p.workers[i]? = some w) :
    (p.turn i).workers[i]? = some (w.step p.table).1 := by
  obtain ⟨inside, -⟩ := List.getElem?_eq_some_iff.mp at_i
  rw [workers_turn at_i, List.getElem?_set_self inside]

/-- With enough turns in a row, the worker at position `i` comes to its end. -/
def Finishes (p : Pool α) (i : Nat) : Prop :=
  ∃ k w, w.Ended ∧ (p.run (List.replicate k i)).workers = p.workers.set i w

theorem finishes_of_ended {i : Nat} {w : Worker α} (at_i : p.workers[i]? = some w)
    (ended : w.Ended) : p.Finishes i := by
  refine ⟨0, w, ended, ?_⟩
  obtain ⟨inside, rfl⟩ := List.getElem?_eq_some_iff.mp at_i
  exact (List.set_getElem_self inside).symm

theorem finishes_of_turn {i : Nat} {w : Worker α} (at_i : p.workers[i]? = some w)
    (finishes : (p.turn i).Finishes i) : p.Finishes i := by
  obtain ⟨k, w', ended, ran⟩ := finishes
  refine ⟨k + 1, w', ended, ran.trans ?_⟩
  rw [workers_turn at_i, List.set_set]

/-- Each step leads from a worker to a part of it, so every worker finishes. -/
theorem finishes {i : Nat} {w : Worker α} (at_i : p.workers[i]? = some w) : p.Finishes i := by
  induction w generalizing p with
  | done a => exact finishes_of_ended at_i (.inl ⟨a, rfl⟩)
  | crashed e => exact finishes_of_ended at_i (.inr ⟨e, rfl⟩)
  | lookup s next ih => exact finishes_of_turn at_i (ih _ (getElem?_workers_turn at_i))
  | append s next ih =>
    refine finishes_of_turn at_i ?_
    have at_i' := getElem?_workers_turn at_i
    cases interned : p.table.tryIntern s with
    | ok r =>
      rw [Worker.step, interned] at at_i'
      exact ih r.1 at_i'
    | error e =>
      rw [Worker.step, interned] at at_i'
      exact finishes_of_ended at_i' (.inr ⟨e, rfl⟩)

/-- Some schedule lets the first `n` workers come to their end. -/
theorem exists_run_ended (p : Pool α) (n : Nat) :
    ∃ schedule, ∀ (i : Nat) (w : Worker α), i < n →
      (p.run schedule).workers[i]? = some w → w.Ended := by
  induction n with
  | zero => exact ⟨[], fun i w below => absurd below (Nat.not_lt_zero i)⟩
  | succ n ih =>
    obtain ⟨schedule, ended⟩ := ih
    cases at_n : (p.run schedule).workers[n]? with
    | none =>
      refine ⟨schedule, fun i w below at_i => ?_⟩
      rcases Nat.lt_succ_iff_lt_or_eq.mp below with below | rfl
      · exact ended i w below at_i
      · rw [at_n] at at_i
        cases at_i
    | some w =>
      obtain ⟨k, w', ended', ran⟩ := finishes at_n
      refine ⟨schedule ++ List.replicate k n, fun i w below at_i => ?_⟩
      rw [run_append, ran] at at_i
      rcases Nat.lt_succ_iff_lt_or_eq.mp below with below | rfl
      · rw [List.getElem?_set_ne (Nat.ne_of_gt below)] at at_i
        exact ended i w below at_i
      · obtain ⟨inside, -⟩ := List.getElem?_eq_some_iff.mp at_n
        rw [List.getElem?_set_self inside] at at_i
        exact Option.some.inj at_i ▸ ended'

/-- **Progress.**  A pool on course is never stuck: if all strings fit the table, some schedule gets
all workers done. -/
theorem OnCourse.exists_results (on_course : OnCourse t all goals stage p)
    (goals_le : ∀ goal ∈ goals, goal.2 <+: all)
    (fits : (t.internAll all).2.size ≤ SymbolTable.capacity) :
    ∃ schedule results, (p.run schedule).results? = some results := by
  obtain ⟨schedule, ended⟩ := p.exists_run_ended goals.length
  obtain ⟨stage', on_course'⟩ := on_course.run goals_le schedule
  refine ⟨schedule, Worker.exists_results? fun w mem => ?_⟩
  obtain ⟨i, at_i⟩ := List.getElem?_of_mem mem
  obtain ⟨inside, -⟩ := List.getElem?_eq_some_iff.mp at_i
  rw [on_course'.length] at inside
  rcases ended i w inside at_i with done | ⟨e, rfl⟩
  · exact done
  · rcases on_course'.each i _ _ (List.getElem?_eq_getElem inside) at_i with
      ⟨_, _, -, -, heads⟩ | ⟨-, full⟩
    · cases heads
    · exact absurd fits (Nat.not_le_of_gt full)

end Pool

/-! ### The workers of the pass -/

/-- The names of the services, in the order in which they are interned. -/
def StoreService.names : List String := [fetch.name, commit.name, release.name]

namespace StoreCalls

theorem intern_snd (t : SymbolTable) :
    (StoreCalls.intern t).2 = (t.internAll StoreService.names).2 := rfl

theorem internAll_names_twice (t : SymbolTable) :
    ((t.internAll StoreService.names).2.internAll StoreService.names).2 =
      (t.internAll StoreService.names).2 := by
  rw [← intern_snd, ← intern_snd, intern_intern]

theorem interning_headsFor (t : SymbolTable) :
    interning.HeadsFor t (StoreCalls.intern t).1 [] StoreService.names :=
  .intern (.intern (.intern .done))

end StoreCalls

namespace Pass

variable {o : PassOptions}

/-- Whether the work on an item comes to intern the names of the services: the item is a selected
function that passes its checks. -/
def interns (o : PassOptions) (name : String) : Item → Bool
  | .func f => o.selects name && (f.plan o.releaseIntermediates).isOk
  | .external _ => false

/-- The strings that the work on an item interns. -/
def wanted (o : PassOptions) (name : String) (item : Item) : List String :=
  bif interns o name item then StoreService.names else []

/-- What the work on an item comes to when it is done alone. -/
def aloneReport (o : PassOptions) (t : SymbolTable) (name : String) (item : Item) : WorkReport where
  calls? := bif interns o name item then some (StoreCalls.intern t).1 else none
  outcome := (streamItem o name t item).1

theorem interns_of_not_eligible {name : String} {item : Item}
    (ineligible : ¬ Eligible o name item) : interns o name item = false := by
  cases item with
  | func f =>
    have unselected : o.selects name = false :=
      Bool.eq_false_iff.mpr (mt (selects_iff o name).mp ineligible)
    rw [interns, unselected, Bool.false_and]
  | external target => rfl

/-- A worker interns the names of the services in order, or nothing, and ends with the report that
it would give alone. -/
theorem worker_headsFor (o : PassOptions) (t : SymbolTable) (name : String) (item : Item) :
    (worker o name item).HeadsFor t (aloneReport o t name item) [] (wanted o name item) := by
  by_cases eligible : Eligible o name item
  · cases item with
    | external target => exact eligible.elim
    | func f =>
      unfold worker aloneReport wanted interns
      rw [streamItem_of_eligible eligible]
      simp only [(selects_iff o name).mpr eligible, if_true, Bool.true_and, Func.stream]
      cases f.plan o.releaseIntermediates with
      | error e => exact .done
      | ok plan => exact (StoreCalls.interning_headsFor t).bind .done
  · have idle : worker o name item = .done ⟨none, .ok item⟩ := by
      cases item with
      | func f =>
        have unselected : ¬ o.selects name = true := mt (selects_iff o name).mp eligible
        simp only [worker, unselected]
        rfl
      | external target => rfl
    rw [idle, wanted, aloneReport, streamItem_of_not_eligible eligible,
      interns_of_not_eligible eligible]
    exact .done

/-! ### The work in order -/

/-- The strings that the work on all items interns. -/
def wantedByAll (o : PassOptions) (t : SymbolTable) (items : Assoc Symbol Item) : List String :=
  bif items.any fun (n, item) => interns o (t.resolve n) item then StoreService.names else []

theorem streamItem_snd (o : PassOptions) (name : String) (u : SymbolTable) (item : Item) :
    (streamItem o name u item).2 = (u.internAll (wanted o name item)).2 := by
  by_cases eligible : Eligible o name item
  · cases item with
    | external target => exact eligible.elim
    | func f =>
      rw [streamItem_of_eligible eligible, wanted, interns, (selects_iff o name).mpr eligible,
        Bool.true_and, Func.stream]
      cases f.plan o.releaseIntermediates <;> rfl
  · rw [streamItem_of_not_eligible eligible, wanted, interns_of_not_eligible eligible]
    rfl

/-- The work in order leaves the table with the names of the services if any item needs them. -/
theorem streamItems_snd (o : PassOptions) (t u : SymbolTable) (items : Assoc Symbol Item) :
    (streamItems o t u items).2 = (u.internAll (wantedByAll o t items)).2 := by
  induction items generalizing u with
  | nil => rfl
  | cons entry items ih =>
    obtain ⟨n, item⟩ := entry
    rw [streamItems, ih, streamItem_snd]
    simp only [wanted, wantedByAll, List.any_cons]
    cases interns o (t.resolve n) item with
    | false => rfl
    | true =>
      cases items.any fun (n, item) => interns o (t.resolve n) item with
      | false => rfl
      | true => exact StoreCalls.internAll_names_twice u

theorem symbols_run (o : PassOptions) (p : Program) :
    (run o p).2.symbols = (streamItems o p.symbols p.symbols p.items).2 := by
  unfold run conclude
  dsimp only
  split <;> rfl

/-! ### The pass under a schedule -/

/-- What each worker is to report and to intern. -/
def goals (o : PassOptions) (p : Program) : List (WorkReport × List String) :=
  p.items.map fun (n, item) =>
    (aloneReport o p.symbols (p.symbols.resolve n) item, wanted o (p.symbols.resolve n) item)

theorem goals_le {p : Program} {goal : WorkReport × List String} (mem : goal ∈ goals o p) :
    goal.2 <+: wantedByAll o p.symbols p.items := by
  obtain ⟨⟨n, item⟩, of_program, rfl⟩ := List.mem_map.mp mem
  cases needed : interns o (p.symbols.resolve n) item with
  | false =>
    simp only [wanted, needed]
    exact List.nil_prefix
  | true =>
    have any : (p.items.any fun (n, item) => interns o (p.symbols.resolve n) item) = true :=
      List.any_eq_true.mpr ⟨(n, item), of_program, needed⟩
    simp only [wanted, wantedByAll, needed, any]
    exact List.prefix_rfl

/-- What is interned at all is interned by one of the workers. -/
theorem wantedByAll_asked (o : PassOptions) (p : Program) :
    wantedByAll o p.symbols p.items = [] ∨
      ∃ goal ∈ goals o p, goal.2 = wantedByAll o p.symbols p.items := by
  unfold wantedByAll
  cases any : p.items.any fun (n, item) => interns o (p.symbols.resolve n) item with
  | false => exact .inl rfl
  | true =>
    obtain ⟨⟨n, item⟩, mem, needed⟩ := List.any_eq_true.mp any
    exact .inr ⟨_, List.mem_map_of_mem mem, by simp only [wanted, needed]⟩

theorem pool_onCourse (o : PassOptions) (p : Program) :
    (pool o p).OnCourse p.symbols (wantedByAll o p.symbols p.items) (goals o p) [] where
  stage_le := List.nil_prefix
  table := rfl
  length := by rw [pool, goals, List.length_map, List.length_map]
  each := by
    intro i goal w goal_at_i at_i
    rw [goals, List.getElem?_map] at goal_at_i
    rw [pool, List.getElem?_map] at at_i
    cases entry : p.items[i]? with
    | none =>
      rw [entry] at at_i
      cases at_i
    | some entry' =>
      rw [entry] at at_i goal_at_i
      cases at_i
      cases goal_at_i
      exact .inl ⟨[], _, rfl, List.prefix_rfl, worker_headsFor ..⟩

theorem reported_goals (o : PassOptions) (p : Program) :
    reported p ((goals o p).map Prod.fst) = (streamItems o p.symbols p.symbols p.items).1 := by
  rw [(streamItems_of_reaches o (.refl p.symbols) p.items).1, reported, goals, List.map_map,
    List.zipWith_map_right, List.zipWith_self]
  rfl

section Complete

variable {p : Program} {schedule : List Nat} {reports : List WorkReport}

theorem reports_eq (complete : ((pool o p).run schedule).results? = some reports) :
    reports = (goals o p).map Prod.fst := by
  obtain ⟨stage, on_course⟩ := (pool_onCourse o p).run (fun _ => goals_le) schedule
  exact (on_course.of_results complete).1

theorem table_eq (complete : ((pool o p).run schedule).results? = some reports) :
    ((pool o p).run schedule).table = (run o p).2.symbols := by
  obtain ⟨stage, on_course⟩ := (pool_onCourse o p).run (fun _ => goals_le) schedule
  rw [symbols_run, streamItems_snd]
  exact on_course.table_of_results complete (wantedByAll_asked o p)

theorem runUnder_eq (complete : ((pool o p).run schedule).results? = some reports) :
    runUnder o schedule p = some (run o p) := by
  simp only [runUnder, complete, Option.map_some, table_eq complete, reports_eq complete,
    reported_goals, symbols_run]
  rfl

end Complete

/-- **One outcome under all schedules.**  Let the workers take their steps in any order that gets
all of them done.  Then those that pass their checks have all obtained the same three symbols, each
item has the outcome that it has when the work is done in order, the shared table has become the
same, and so has the whole result.  And no schedule runs into a dead end: as long as the names fit
the table, it can be continued to one that gets all workers done. -/
theorem run_interleaved (o : PassOptions) (p : Program) :
    (∀ schedule reports, ((pool o p).run schedule).results? = some reports →
      reports.map (·.calls?) = (p.items.map fun (n, item) =>
        bif interns o (p.symbols.resolve n) item then some (StoreCalls.intern p.symbols).1
        else none) ∧
      reported p reports = (streamItems o p.symbols p.symbols p.items).1 ∧
      ((pool o p).run schedule).table = (run o p).2.symbols ∧
      runUnder o schedule p = some (run o p)) ∧
    ((run o p).2.symbols.size ≤ SymbolTable.capacity →
      ∀ schedule, ∃ more, runUnder o (schedule ++ more) p = some (run o p)) := by
  constructor
  · intro schedule reports complete
    refine ⟨?_, ?_, table_eq complete, runUnder_eq complete⟩
    · rw [reports_eq complete, goals, List.map_map, List.map_map]
      rfl
    · rw [reports_eq complete, reported_goals]
  · intro fits schedule
    rw [symbols_run, streamItems_snd] at fits
    obtain ⟨stage, on_course⟩ := (pool_onCourse o p).run (fun _ => goals_le) schedule
    obtain ⟨more, reports, complete⟩ := on_course.exists_results (fun _ => goals_le) fits
    rw [← Pool.run_append] at complete
    exact ⟨more, runUnder_eq complete⟩

end Pass

/-- Three selected functions.  The parameter escapes in the second one. -/
def Sample.racingProgram : Program where
  symbols :=
    ⟨["params", "x", "y", "z", "out", "neg", "sub", "a_params", "b_params", "c_params"], by decide⟩
  items :=
    [(⟨8⟩, .func difference), (⟨9⟩, .func (negatedTensor (.var ⟨0⟩))), (⟨10⟩, .func difference)]

/-- The first worker looks for a name, is overtaken by the last one, and looks for it again. -/
def Sample.overtaking : List Nat := [0, 2, 2, 2, 2, 0, 0, 0, 2, 2, 0]

namespace Pass

open Sample in
/-- The workers of the two functions that pass their checks race for the names. -/
theorem run_interleaved_overtaking :
    (∃ reports, ((pool { suffix := "_params" } racingProgram).run overtaking).results? =
        some reports ∧
      reports.map (·.calls?) =
        [some ⟨⟨11⟩, ⟨12⟩, ⟨13⟩⟩, none, some ⟨⟨11⟩, ⟨12⟩, ⟨13⟩⟩]) ∧
    runUnder { suffix := "_params" } overtaking racingProgram =
      some (run { suffix := "_params" } racingProgram) ∧
    ∃ more, runUnder { suffix := "_params" } ([0, 2, 2] ++ more) racingProgram =
      some (run { suffix := "_params" } racingProgram) := by
  have complete : ((pool { suffix := "_params" } racingProgram).run overtaking).results? =
      some _ := rfl
  have fits : (run { suffix := "_params" } racingProgram).2.symbols.size ≤
      SymbolTable.capacity := by decide
  obtain ⟨agree, continues⟩ := run_interleaved { suffix := "_params" } racingProgram
  obtain ⟨calls, -, -, same⟩ := agree overtaking _ complete
  exact ⟨⟨_, complete, calls⟩, same, continues fits [0, 2, 2]⟩

end Pass

end ParamStream
