import ParamStream.Eval.Error
import ParamStream.Eval.Operator
import ParamStream.StoreService

/-!
# Hosts

A host answers the calls that an evaluation makes to host functions.  It is a state machine: a
call takes the host from one state to the next and yields a value or an error, and the state
reached is kept in either case.

* `Host.absent` — no host functions at all;
* `Host.synthetic` — answers every call, inventing inputs from their index;
* `Host.recording` — a host together with a log of the calls made to it.

The host that serves the streaming form has a module of its own, `ParamStream.Eval.ParamStore`.
-/

namespace ParamStream

/-- Computations that talk to a host with states in `σ`; an error keeps the state reached. -/
abbrev EvalM (σ : Type) := EStateM EvalError σ

structure Host (σ : Type) where
  call : String → List Value → EvalM σ Value

/-- A call made to a host. -/
structure HostCall where
  name : String
  args : List Value
deriving DecidableEq

/-- A host state with the calls made so far, oldest first. -/
structure Recorded (σ : Type) where
  calls : List HostCall := []
  state : σ

namespace Host

variable {σ : Type}

/-- No host: every function is unknown. -/
def absent : Host Unit where
  call name _ := throw (.unknownHost name)

/-- Input `i` is the number `10 * i`, and every other call yields the unit value. -/
def synthetic : Host Unit where
  call name args :=
    match StoreService.ofName? name, args with
    | some .fetch, [.int i] => pure (.int (Operator.wrap (10 * i)))
    | _, _ => pure .unit

/-- Log each call before `host` answers it, so that a failing call is logged too. -/
def recording (host : Host σ) : Host (Recorded σ) where
  call name args := fun s =>
    let calls := s.calls ++ [⟨name, args⟩]
    match host.call name args s.state with
    | .ok v state => .ok v ⟨calls, state⟩
    | .error e state => .error e ⟨calls, state⟩

end Host

end ParamStream
