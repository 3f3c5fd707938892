import ParamStream.Func.Basic

/-!
# Scoping

A function is well scoped when each of its variables is in the variable table, is defined once and
is read only after its definition.  `Func.checkScope` walks the function once, with the list of
variables defined so far, and reports the first violation: parameters first, then for each binding
its reads before the variable it defines, then the reads of the result.  Where one occurrence
breaks two rules, being outside the table is the one reported.
-/

namespace ParamStream

/-- Violations of scoping. -/
inductive ScopeError where
  /-- the variable is not in the table, which has `size` entries -/
  | unknown (v : VarId) (size : Nat)
  | redefined (v : VarId)
  | readBeforeDefinition (v : VarId)
deriving DecidableEq

namespace ScopeError

def message : ScopeError → String
  | .unknown v size => s!"variable %{v.index} is not in the variable table ({size} entries)"
  | .redefined v => s!"variable %{v.index} is defined more than once"
  | .readBeforeDefinition v => s!"variable %{v.index} is used before its definition"

end ScopeError

namespace Scope

/-- Check one definition against the variables defined before it, and add it to them. -/
def define (size : Nat) (defined : List VarId) (v : VarId) : Except ScopeError (List VarId) :=
  if size ≤ v.index then throw (.unknown v size)
  else if v ∈ defined then throw (.redefined v)
  else pure (v :: defined)

/-- Check definitions from left to right. -/
def defineAll (size : Nat) : List VarId → List VarId → Except ScopeError (List VarId)
  | defined, [] => pure defined
  | defined, v :: vs => do
    let defined ← define size defined v
    defineAll size defined vs

/-- Check reads from left to right. -/
def checkReads (size : Nat) (defined : List VarId) : List VarId → Except ScopeError Unit
  | [] => pure ()
  | v :: vs =>
    if size ≤ v.index then throw (.unknown v size)
    else if v ∈ defined then checkReads size defined vs
    else throw (.readBeforeDefinition v)

/-- Check bindings in program order, returning the variables defined after them. -/
def checkBindings (size : Nat) : List VarId → List Binding → Except ScopeError (List VarId)
  | defined, [] => pure defined
  | defined, b :: bs => do
    checkReads size defined b.value.reads
    let defined ← define size defined b.var
    checkBindings size defined bs

end Scope

/-- Check that every variable is in the table, defined once and read after its definition. -/
def Func.checkScope (f : Func) : Except ScopeError Unit := do
  let size := f.vars.length
  let defined ← Scope.defineAll size [] f.params
  let defined ← Scope.checkBindings size defined f.bindings
  Scope.checkReads size defined f.result.reads

end ParamStream
