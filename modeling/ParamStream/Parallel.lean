import ParamStream.Pass

/-!
# The pass, side by side

Functions that are transformed side by side share nothing but the symbol table, which is behind a
lock for readers and writers.  Interning takes the lock once to look a string up, and if the string
is not there once more, to look again and append it.  Between the two, others may have changed the
table.

A `Worker` is a piece of such work, cut into the steps that it takes under a lock; all that it
computes for itself in between belongs to the step before.  A `Pool` is a list of workers that take
turns, and a schedule says whose turn it is.

## Main definitions

* `Worker`, `Worker.step` — work on a shared table, one locked step after the other;
* `Worker.intern` — intern a string in up to two steps;
* `Pool.run` — let workers take turns;
* `Pass.worker` — the work on one item of a program;
* `Pass.runUnder` — the pass under a schedule.
-/

namespace ParamStream

/-- Work that uses a shared symbol table. -/
inductive Worker (α : Type) where
  | done (result : α)
  /-- look a string up, and go on with its symbol if it has one -/
  | lookup (s : String) (next : Option Symbol → Worker α)
  /-- look a string up once more, append it if it has no symbol, and go on with its symbol -/
  | append (s : String) (next : Symbol → Worker α)
  /-- the table was full -/
  | crashed (e : CapacityError)

namespace Worker

variable {α β : Type}

/-- Do one piece of work after another. -/
def bind : Worker α → (α → Worker β) → Worker β
  | .done a, k => k a
  | .lookup s next, k => .lookup s fun n => (next n).bind k
  | .append s next, k => .append s fun n => (next n).bind k
  | .crashed e, _ => .crashed e

instance : Monad Worker where
  pure := .done
  bind := bind

/-- Intern a string: append it only when a first look has not found it. -/
def intern (s : String) : Worker Symbol :=
  .lookup s fun
    | some n => .done n
    | none => .append s .done

/-- One step under the lock, with the table after it.  A worker that is done or has crashed takes
no more steps. -/
def step (table : SymbolTable) : Worker α → Worker α × SymbolTable
  | .done a => (.done a, table)
  | .lookup s next => (next (table.find? s), table)
  | .append s next =>
    match table.tryIntern s with
    | .ok (n, table) => (next n, table)
    | .error e => (.crashed e, table)
  | .crashed e => (.crashed e, table)

/-- The results of workers that are all done. -/
def results? : List (Worker α) → Option (List α)
  | [] => some []
  | .done a :: workers => (results? workers).map (a :: ·)
  | _ :: _ => none

end Worker

/-- Workers and the table that they share. -/
structure Pool (α : Type) where
  table : SymbolTable
  workers : List (Worker α)

namespace Pool

variable {α : Type}

/-- The worker at position `i` takes a step, if there is one. -/
def turn (p : Pool α) (i : Nat) : Pool α :=
  match p.workers[i]? with
  | none => p
  | some w =>
    let (w, table) := w.step p.table
    ⟨table, p.workers.set i w⟩

/-- Workers take turns in the order of a schedule. -/
def run (p : Pool α) (schedule : List Nat) : Pool α := schedule.foldl turn p

/-- The results of all workers, once they are done. -/
def results? (p : Pool α) : Option (List α) := Worker.results? p.workers

end Pool

/-- Intern the names of the services. -/
def StoreCalls.interning : Worker StoreCalls := do
  let fetchName ← Worker.intern StoreService.fetch.name
  let commitName ← Worker.intern StoreService.commit.name
  let releaseName ← Worker.intern StoreService.release.name
  pure ⟨fetchName, commitName, releaseName⟩

namespace Pass

/-- What a worker reports. -/
structure WorkReport where
  /-- the symbols of the services, if it came to intern them -/
  calls? : Option StoreCalls
  /-- what it made of its item -/
  outcome : Except PassError Item

/-- The work on an item called `name`.  An item that is not selected needs none. -/
def worker (o : PassOptions) (name : String) (item : Item) : Worker WorkReport :=
  match item with
  | .func f =>
    if o.selects name then
      match f.plan o.releaseIntermediates with
      | .error e => pure ⟨none, .error ⟨Pass.name, name, e⟩⟩
      | .ok plan => do
        let calls ← StoreCalls.interning
        pure ⟨some calls, ((f.lower calls plan).map Item.func).mapError (⟨Pass.name, name, ·⟩)⟩
    else pure ⟨none, .ok item⟩
  | .external _ => pure ⟨none, .ok item⟩

/-- A worker for each item, and the table of the program. -/
def pool (o : PassOptions) (p : Program) : Pool WorkReport :=
  ⟨p.symbols, p.items.map fun (n, item) => worker o (p.symbols.resolve n) item⟩

/-- The outcomes that workers report, item by item. -/
def reported (p : Program) (reports : List WorkReport) :
    List (Except PassError (Symbol × Item)) :=
  p.items.zipWith (fun (n, _) report => report.outcome.map (n, ·)) reports

/-- Run the pass with a worker for each item, if all are done under the schedule. -/
def runUnder (o : PassOptions) (schedule : List Nat) (p : Program) :
    Option (Except PassError PassReport × Program) :=
  let pool := (pool o p).run schedule
  pool.results?.map fun reports => conclude o p (reported p reports) pool.table

end Pass

end ParamStream
