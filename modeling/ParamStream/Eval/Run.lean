import ParamStream.Eval.Host
import ParamStream.Func.Basic

/-!
# Evaluation

The reference semantics of functions.  A run keeps a frame with one cell per entry of the variable
table; bindings are evaluated in program order and fill their cells, and the value of the run is
the value of the result expression.

Operands are evaluated from left to right, and before a call is looked at: a call through anything
but an operator or a host function is an error that comes after the errors of its operands.  The
callee itself is never evaluated.

A binding to a variable outside the table has no cell and its value is lost, so that a later read
of it is the error.
-/

namespace ParamStream

/-- Values of the variables of a running function; a cell is empty until its variable is bound. -/
abbrev Frame := List (Option Value)

namespace Frame

def blank (size : Nat) : Frame := List.replicate size none

/-- Fill the cell of `v`, if it has one. -/
def bind (frame : Frame) (v : VarId) (value : Value) : Frame := frame.set v.index (some value)

/-- The value of `v`, if it has been bound. -/
def get? (frame : Frame) (v : VarId) : Option Value := frame[v.index]?.join

/-- Bind parameters to arguments, from left to right. -/
def bindAll (frame : Frame) (params : List VarId) (args : List Value) : Frame :=
  (params.zip args).foldl (fun frame (v, value) => frame.bind v value) frame

@[simp] theorem length_bind (frame : Frame) (v : VarId) (value : Value) :
    (frame.bind v value).length = frame.length := by
  simp [bind]

@[simp] theorem get?_blank (size : Nat) (v : VarId) : (blank size).get? v = none := by
  by_cases inside : v.index < size <;> simp [blank, get?, inside]

theorem get?_bind_self {frame : Frame} {v : VarId} (inside : v.index < frame.length)
    (value : Value) : (frame.bind v value).get? v = some value := by
  simp [bind, get?, inside]

theorem get?_bind_of_ne {v w : VarId} (differ : v ≠ w) (frame : Frame) (value : Value) :
    (frame.bind v value).get? w = frame.get? w := by
  have index_ne : v.index ≠ w.index := fun same => differ (congrArg VarId.mk same)
  simp [bind, get?, index_ne]

end Frame

/-- What evaluation needs besides a host: names and operators. -/
structure Evaluator where
  symbols : SymbolTable
  operators : OperatorTable

namespace Evaluator

variable {σ : Type}

/-- Apply an operator. -/
def applyOp (m : Evaluator) (op : Symbol) (args : List Value) : Except EvalError Value :=
  let name := m.symbols.resolve op
  match Assoc.get? m.operators op with
  | none => throw (.unknownOp name)
  | some apply =>
    match apply args with
    | .ok v => pure v
    | .error reason => throw (.opFailed name reason)

/-- The field of a tuple value. -/
def project (index : Nat) : Value → Except EvalError Value
  | .tuple fields =>
    match fields[index]? with
    | some v => pure v
    | none => throw (.indexOutOfRange index fields.length)
  | _ => throw .notATuple

/-- Apply a callee to evaluated operands. -/
def apply (m : Evaluator) (host : Host σ) (callee : Expr) (args : List Value) : EvalM σ Value :=
  match callee with
  | .op name => MonadExcept.ofExcept (m.applyOp name args)
  | .host name => host.call (m.symbols.resolve name) args
  | _ => throw .unsupportedCallee

mutual

/-- The value of an expression in a frame. -/
def eval (m : Evaluator) (host : Host σ) (frame : Frame) : Expr → EvalM σ Value
  | .var v =>
    match frame.get? v with
    | some value => pure value
    | none => throw (.unbound v)
  | .tuple fields => do
    let values ← evalAll m host frame fields
    pure (.tuple values)
  | .proj base i => do
    let value ← eval m host frame base
    MonadExcept.ofExcept (project i value)
  | .call callee args _ => do
    let values ← evalAll m host frame args
    m.apply host callee values
  | .lit (.int n) => pure (.int n)
  | .lit (.bool b) => pure (.bool b)
  | .lit .unit => pure .unit
  | .host _ | .op _ => throw .unsupportedReference

/-- The values of a list of expressions, evaluated from left to right. -/
def evalAll (m : Evaluator) (host : Host σ) (frame : Frame) : List Expr → EvalM σ (List Value)
  | [] => pure []
  | e :: es => do
    let value ← eval m host frame e
    let values ← evalAll m host frame es
    pure (value :: values)

end

/-- Evaluate bindings in order, returning the frame after them. -/
def evalBindings (m : Evaluator) (host : Host σ) : Frame → List Binding → EvalM σ Frame
  | frame, [] => pure frame
  | frame, b :: bs => do
    let value ← m.eval host frame b.value
    evalBindings m host (frame.bind b.var value) bs

/-- Run a function on arguments. -/
def run (m : Evaluator) (host : Host σ) (f : Func) (args : List Value) : EvalM σ Value :=
  if args.length = f.params.length then do
    let frame := (Frame.blank f.vars.length).bindAll f.params args
    let frame ← m.evalBindings host frame f.bindings
    m.eval host frame f.result
  else throw (.argCount f.params.length args.length)

end Evaluator

end ParamStream
