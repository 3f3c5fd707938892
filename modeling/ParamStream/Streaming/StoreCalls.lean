import ParamStream.Expr
import ParamStream.StoreService

/-!
# Calls to the parameter store

The expressions through which a function in streaming form uses the store.  They refer to the
services by symbol, so the three names are interned first.
-/

namespace ParamStream

/-- The symbols of the store's services. -/
structure StoreCalls where
  fetchName : Symbol
  commitName : Symbol
  releaseName : Symbol

namespace StoreCalls

/-- Intern the names of the services. -/
def intern (table : SymbolTable) : StoreCalls × SymbolTable :=
  let (fetchName, table) := table.intern StoreService.fetch.name
  let (commitName, table) := table.intern StoreService.commit.name
  let (releaseName, table) := table.intern StoreService.release.name
  (⟨fetchName, commitName, releaseName⟩, table)

/-- Fetch the input at an index. -/
def fetch (calls : StoreCalls) (i : Nat) : Expr :=
  .call (.host calls.fetchName) [.lit (.int i)] .object

/-- Commit the value of `v` to a slot. -/
def commit (calls : StoreCalls) (v : VarId) (slot : Nat) : Expr :=
  .call (.host calls.commitName) [.lit (.int slot), .var v] .unit

/-- Release the value of `v`. -/
def release (calls : StoreCalls) (v : VarId) : Expr :=
  .call (.host calls.releaseName) [.var v] .unit

end StoreCalls

end ParamStream
