import ParamStream.Proofs.Symbols
import ParamStream.Streaming.Form

/-!
# Which host functions code refers to

A host function is called through a symbol, so whether a call is one of the store's services
depends on the table that resolves its name.  This module says when an expression refers to a
service at all, and that the three symbols which `StoreCalls.intern` hands out resolve to the
services they are meant for, in the table it returns.

## Main definitions

* `Expr.hosts` — the host functions that an expression refers to, called or not;
* `Expr.service?` — the service that an expression calls, if it is a call of one;
* `Expr.argsOf?`, `Func.callArgs` — the arguments with which a service is called;
* `Func.Independent` — the function refers to no service under the names of a table;
* `Func.Avoids` — it does not refer to one given service;
* `StoreCalls.Resolved` — the three symbols resolve to the names of the services.
-/

namespace ParamStream

/-! ### References to host functions -/

namespace Expr

mutual

/-- The symbols of the host functions that an expression refers to, in visit order. -/
def hosts : Expr → List Symbol
  | .tuple fields => hostsAll fields
  | .proj base _ => base.hosts
  | .call callee args _ => callee.hosts ++ hostsAll args
  | .host name => [name]
  | .var _ | .lit _ | .op _ => []

/-- `hosts` of a list of expressions, from left to right. -/
def hostsAll : List Expr → List Symbol
  | [] => []
  | e :: es => e.hosts ++ hostsAll es

end

theorem hostsAll_eq_flatMap (es : List Expr) : hostsAll es = es.flatMap hosts := by
  induction es with
  | nil => rfl
  | cons e es ih => simp [hostsAll, ih]

/-- The service that an expression calls under the names of `table`. -/
def service? (table : SymbolTable) : Expr → Option StoreService
  | .call (.host name) _ _ => StoreService.ofName? (table.resolve name)
  | _ => none

/-- No host function that the expression refers to is a service under the names of `table`. -/
def Independent (table : SymbolTable) (e : Expr) : Prop :=
  ∀ name ∈ e.hosts, StoreService.ofName? (table.resolve name) = none

instance (table : SymbolTable) (e : Expr) : Decidable (e.Independent table) :=
  inferInstanceAs (Decidable (∀ name ∈ e.hosts, StoreService.ofName? (table.resolve name) = none))

/-- An expression that refers to no service calls none. -/
theorem Independent.service?_eq_none {table : SymbolTable} {e : Expr}
    (independent : e.Independent table) : e.service? table = none := by
  cases e with
  | call callee args ty =>
    cases callee with
    | host name => exact independent name (by simp [hosts])
    | _ => rfl
  | _ => rfl

/-- The arguments of an expression that calls the service under the names of `table`. -/
def argsOf? (table : SymbolTable) (service : StoreService) : Expr → Option (List Expr)
  | .call (.host name) args _ => if table.resolve name = service.name then some args else none
  | _ => none

/-- The expression does not refer to the service under the names of `table`. -/
def Avoids (table : SymbolTable) (service : StoreService) (e : Expr) : Prop :=
  ∀ name ∈ e.hosts, table.resolve name ≠ service.name

instance (table : SymbolTable) (service : StoreService) (e : Expr) :
    Decidable (e.Avoids table service) :=
  inferInstanceAs (Decidable (∀ name ∈ e.hosts, table.resolve name ≠ service.name))

theorem Avoids.mono {table : SymbolTable} {service : StoreService} {e e' : Expr}
    (avoids : e.Avoids table service) (sub : e'.hosts ⊆ e.hosts) : e'.Avoids table service :=
  fun name mem => avoids name (sub mem)

/-- An expression that does not refer to a service does not call it. -/
theorem Avoids.argsOf?_eq_none {table : SymbolTable} {service : StoreService} {e : Expr}
    (avoids : e.Avoids table service) : e.argsOf? table service = none := by
  cases e with
  | call callee args ty =>
    cases callee with
    | host name => exact if_neg (avoids name (by simp [hosts]))
    | _ => rfl
  | _ => rfl

end Expr

namespace Func

/-- No binding of `f`, and not its result, refers to a service under the names of `table`. -/
def Independent (table : SymbolTable) (f : Func) : Prop :=
  (∀ b ∈ f.bindings, b.value.Independent table) ∧ f.result.Independent table

instance (table : SymbolTable) (f : Func) : Decidable (f.Independent table) :=
  inferInstanceAs
    (Decidable ((∀ b ∈ f.bindings, b.value.Independent table) ∧ f.result.Independent table))

/-- No binding of `f`, and not its result, refers to the service under the names of `table`. -/
def Avoids (table : SymbolTable) (service : StoreService) (f : Func) : Prop :=
  (∀ b ∈ f.bindings, b.value.Avoids table service) ∧ f.result.Avoids table service

instance (table : SymbolTable) (service : StoreService) (f : Func) :
    Decidable (f.Avoids table service) :=
  inferInstanceAs
    (Decidable ((∀ b ∈ f.bindings, b.value.Avoids table service) ∧ f.result.Avoids table service))

/-- The arguments of the bindings that call the service, in order. -/
def callArgs (table : SymbolTable) (service : StoreService) (f : Func) : List (List Expr) :=
  f.bindings.filterMap fun b => b.value.argsOf? table service

end Func

/-! ### The symbols of the services -/

/-- Different services have different names. -/
theorem StoreService.name_inj {a b : StoreService} (same : a.name = b.name) : a = b := by
  have found := ofName?_name a
  rw [same, ofName?_name] at found
  exact (Option.some.inj found).symm

/-- An expression whose only host function is one service does not refer to another. -/
theorem Expr.avoids_of_hosts {table : SymbolTable} {service other : StoreService} {e : Expr}
    {name : Symbol} (only : e.hosts = [name]) (resolves : table.resolve name = other.name)
    (differ : other ≠ service) : e.Avoids table service := by
  intro symbol mem same
  rw [only, List.mem_singleton] at mem
  rw [mem, resolves] at same
  exact differ (StoreService.name_inj same)

namespace StoreCalls

/-- The three symbols resolve in `table` to the names of the services. -/
structure Resolved (calls : StoreCalls) (table : SymbolTable) : Prop where
  fetch : table.resolve calls.fetchName = StoreService.fetch.name
  commit : table.resolve calls.commitName = StoreService.commit.name
  release : table.resolve calls.releaseName = StoreService.release.name

/-- The symbols that `intern` hands out resolve in the table that it returns.  Each is fixed when
its own name is interned, and the names interned after it only extend the table. -/
theorem resolved_intern (table : SymbolTable) :
    (StoreCalls.intern table).1.Resolved (StoreCalls.intern table).2 := by
  let first := table.intern StoreService.fetch.name
  let second := first.2.intern StoreService.commit.name
  let third := second.2.intern StoreService.release.name
  have second_extends : first.2.strings <+: second.2.strings := first.2.strings_prefix_intern _
  have third_extends : second.2.strings <+: third.2.strings := second.2.strings_prefix_intern _
  refine ⟨?_, ?_, second.2.resolve_intern _⟩
  · calc third.2.resolve first.1
        = first.2.resolve first.1 :=
          SymbolTable.resolve_of_prefix (second_extends.trans third_extends)
            (table.intern_lt_size _)
      _ = StoreService.fetch.name := table.resolve_intern _
  · calc third.2.resolve second.1
        = second.2.resolve second.1 :=
          SymbolTable.resolve_of_prefix third_extends (first.2.intern_lt_size _)
      _ = StoreService.commit.name := first.2.resolve_intern _

/-- The names of the services are appended to the table. -/
theorem strings_prefix_intern (table : SymbolTable) :
    table.strings <+: (StoreCalls.intern table).2.strings :=
  ((table.strings_prefix_intern _).trans (SymbolTable.strings_prefix_intern _ _)).trans
    (SymbolTable.strings_prefix_intern _ _)

/-- Interning the names again finds the symbols they have. -/
theorem intern_intern (table : SymbolTable) :
    StoreCalls.intern (StoreCalls.intern table).2 = StoreCalls.intern table := by
  let first := table.intern StoreService.fetch.name
  let second := first.2.intern StoreService.commit.name
  let third := second.2.intern StoreService.release.name
  have third_extends : second.2.strings <+: third.2.strings := second.2.strings_prefix_intern _
  have second_extends : first.2.strings <+: third.2.strings :=
    (first.2.strings_prefix_intern _).trans third_extends
  have fetch : third.2.intern StoreService.fetch.name = (first.1, third.2) :=
    SymbolTable.intern_of_prefix second_extends
  have commit : third.2.intern StoreService.commit.name = (second.1, third.2) :=
    SymbolTable.intern_of_prefix third_extends
  have release : third.2.intern StoreService.release.name = (third.1, third.2) :=
    SymbolTable.intern_of_prefix List.prefix_rfl
  show StoreCalls.intern third.2 = (⟨first.1, second.1, third.1⟩, third.2)
  simp only [StoreCalls.intern, fetch, commit, release]

namespace Resolved

variable {calls : StoreCalls} {table : SymbolTable}

theorem service?_fetch (resolved : calls.Resolved table) (i : Nat) :
    (calls.fetch i).service? table = some .fetch := by
  simp [StoreCalls.fetch, Expr.service?, resolved.fetch]

theorem service?_commit (resolved : calls.Resolved table) (v : VarId) (slot : Nat) :
    (calls.commit v slot).service? table = some .commit := by
  simp [StoreCalls.commit, Expr.service?, resolved.commit]

theorem service?_release (resolved : calls.Resolved table) (v : VarId) :
    (calls.release v).service? table = some .release := by
  simp [StoreCalls.release, Expr.service?, resolved.release]

/-! The services have different names, so each of the calls is one of its own service only. -/

theorem argsOf?_fetch (resolved : calls.Resolved table) (i : Nat) (service : StoreService) :
    (calls.fetch i).argsOf? table service =
      if service = .fetch then some [.lit (.int i)] else none := by
  cases service <;> simp [StoreCalls.fetch, Expr.argsOf?, resolved.fetch, StoreService.name]

theorem argsOf?_commit (resolved : calls.Resolved table) (v : VarId) (slot : Nat)
    (service : StoreService) :
    (calls.commit v slot).argsOf? table service =
      if service = .commit then some [.lit (.int slot), .var v] else none := by
  cases service <;> simp [StoreCalls.commit, Expr.argsOf?, resolved.commit, StoreService.name]

theorem argsOf?_release (resolved : calls.Resolved table) (v : VarId) (service : StoreService) :
    (calls.release v).argsOf? table service =
      if service = .release then some [.var v] else none := by
  cases service <;> simp [StoreCalls.release, Expr.argsOf?, resolved.release, StoreService.name]

end Resolved

/-! ### What the calls read and refer to -/

@[simp] theorem reads_fetch (calls : StoreCalls) (i : Nat) : (calls.fetch i).reads = [] := rfl

@[simp] theorem reads_commit (calls : StoreCalls) (v : VarId) (slot : Nat) :
    (calls.commit v slot).reads = [v] := rfl

@[simp] theorem reads_release (calls : StoreCalls) (v : VarId) :
    (calls.release v).reads = [v] := rfl

@[simp] theorem hosts_fetch (calls : StoreCalls) (i : Nat) :
    (calls.fetch i).hosts = [calls.fetchName] := rfl

@[simp] theorem hosts_commit (calls : StoreCalls) (v : VarId) (slot : Nat) :
    (calls.commit v slot).hosts = [calls.commitName] := rfl

@[simp] theorem hosts_release (calls : StoreCalls) (v : VarId) :
    (calls.release v).hosts = [calls.releaseName] := rfl

end StoreCalls

end ParamStream
