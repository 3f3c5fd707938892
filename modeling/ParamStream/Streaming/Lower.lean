import ParamStream.Func.Builder
import ParamStream.Streaming.LastUse
import ParamStream.Streaming.StoreCalls

/-!
# Lowering to streaming form

Lowering rebuilds a function without its parameter.  Block by block and binding by binding it
emits, for a binding of `v`:

1. a fetch for each input that the value reads in a nested position;
2. the value itself, over the new variables (a value that is exactly `param.i` becomes the fetch);
3. if `v` is an output, a commit of its value to each of its slots;
4. a release of each variable that dies here, then of each fetch of the first step.

The output tuple becomes the tuple of the commits' results.

Two maps tie the function to the one under construction.  `values` takes a variable to the new
variable that holds its value, and `commits` takes a slot to the variable that holds the result of
its commit.  Where lowering needs an entry that is not there, the analyses it was given do not
belong to the function, and it stops with `StreamError.unmapped`.

## Main definitions

* `Plan` — the analyses that lowering follows;
* `Expr.reroute` — an expression over the new variables;
* `Lowering` — a function under construction with the two maps;
* `Func.lower` — the streaming form of a function under a plan.
-/

namespace ParamStream

/-- The analyses that lowering follows. -/
structure Plan where
  convention : Convention
  interface : Interface
  lastUses : LastUses

/-! ### Expressions -/

namespace Expr

/-- The new variable that holds the value of `v`, which must not be the parameter. -/
def lookup (param : VarId) (values : Assoc VarId VarId) (v : VarId) : Except StreamError VarId :=
  if v = param then throw (.paramEscapes param)
  else
    match values.get? v with
    | some w => pure w
    | none => throw (.unmapped v)

mutual

/-- An expression over the new variables.  Its projections `param.i` are read from the variables
`fresh`, `fresh + 1`, and so on, in visit order. -/
def reroute (param : VarId) (values : Assoc VarId VarId) (fresh : Nat) :
    Expr → Except StreamError Expr
  | .var v => do
    let w ← lookup param values v
    pure (.var w)
  | .tuple fields => do
    let fields ← rerouteAll param values fresh fields
    pure (.tuple fields)
  | .proj base i =>
    if base.asVar? = some param then pure (.var ⟨fresh⟩)
    else do
      let base ← base.reroute param values fresh
      pure (.proj base i)
  | .call callee args ty => do
    let callee' ← callee.reroute param values fresh
    let args ← rerouteAll param values (fresh + (callee.inputReads param).length) args
    pure (.call callee' args ty)
  | .lit l => pure (.lit l)
  | .host name => pure (.host name)
  | .op name => pure (.op name)

/-- `reroute` for a list of expressions, from left to right. -/
def rerouteAll (param : VarId) (values : Assoc VarId VarId) (fresh : Nat) :
    List Expr → Except StreamError (List Expr)
  | [] => pure []
  | e :: es => do
    let e' ← e.reroute param values fresh
    let es ← rerouteAll param values (fresh + (e.inputReads param).length) es
    pure (e' :: es)

end

end Expr

/-! ### Bindings -/

/-- A function under construction, and what of the old function it already holds. -/
structure Lowering where
  builder : Builder
  /-- the variable that holds the value of an old variable -/
  values : Assoc VarId VarId := []
  /-- the variable that holds the result of the commit to a slot -/
  commits : Assoc Nat VarId := []

namespace Lowering

/-- Emit unnamed bindings. -/
def emitAll (s : Lowering) (values : List Expr) : Lowering :=
  { s with builder := s.builder.emitAll values }

/-- Emit the value of the old variable `v`, under its name hint. -/
def define (s : Lowering) (v : VarId) (hint : Symbol) (value : Expr) : Lowering :=
  { s with
    builder := s.builder.emit hint value
    values := s.values.insert v s.builder.next }

/-- Commit the value of the new variable `v` to slots. -/
def commitTo (s : Lowering) (calls : StoreCalls) (v : VarId) (slots : List Nat) : Lowering :=
  { s with
    builder := s.builder.emitAll (slots.map (calls.commit v))
    commits := s.commits.insertAll (slots.zip (s.builder.upcoming slots.length)) }

/-- The new variable that holds the value of `v`. -/
def valueOf (s : Lowering) (v : VarId) : Except StreamError VarId :=
  match s.values.get? v with
  | some w => pure w
  | none => throw (.unmapped v)

/-- The result of the commit that stands for a field of the output tuple. -/
def commitOf (s : Lowering) (field : Expr) (slot : Nat) : Except StreamError Expr :=
  match field.asVar? with
  | none => throw (.outputFieldNotVar slot)
  | some v =>
    match s.commits.get? slot with
    | some w => pure (.var w)
    | none => throw (.unmapped v)

/-- The inputs that have to be fetched before a value is computed: those it reads, unless it is
itself an input. -/
def hoisted (param : VarId) (value : Expr) : List Nat :=
  if (value.inputIndex? param).isSome then [] else value.inputReads param

/-- The value of a binding over the new variables, once its nested inputs are fetched into
`fresh` and the variables after it. -/
def valueFor (calls : StoreCalls) (param : VarId) (values : Assoc VarId VarId) (fresh : Nat)
    (value : Expr) : Except StreamError Expr :=
  match value.inputIndex? param with
  | some i => pure (calls.fetch i)
  | none => value.reroute param values fresh

/-- Lower a binding other than that of the output. -/
def lowerValue (f : Func) (calls : StoreCalls) (plan : Plan) (s : Lowering) (b : Binding) :
    Except StreamError Lowering := do
  let param := plan.convention.param
  let inputs := hoisted param b.value
  -- The fetches come first, so their variables are known before they are emitted.
  let fetched := s.builder.upcoming inputs.length
  let value ← valueFor calls param s.values s.builder.next.index b.value
  let s := s.emitAll (inputs.map calls.fetch)
  let new := s.builder.next
  let s := s.define b.var (f.hint b.var) value
  let s := s.commitTo calls new ((plan.interface.outputs.get? b.var).getD [])
  -- A variable may die at its own binding, so its value is looked up only now.
  let dying ← (plan.lastUses.dyingAt b.var).mapM s.valueOf
  pure (s.emitAll ((dying ++ fetched).map calls.release))

/-- Lower the binding of the output: the tuple of the commits' results. -/
def lowerOutput (f : Func) (s : Lowering) (b : Binding) : Except StreamError Lowering :=
  match b.value with
  | .tuple fields => do
    let fields ← fields.zipIdx.mapM fun (field, slot) => s.commitOf field slot
    pure
      { s with
        builder := s.builder.emitTyped (f.hint b.var) (.tuple fields) .object
        values := s.values.insert b.var s.builder.next }
  | _ => throw (.outputNotTuple b.var)

def lowerBinding (f : Func) (calls : StoreCalls) (plan : Plan) (s : Lowering) (b : Binding) :
    Except StreamError Lowering :=
  if b.var = plan.convention.output then s.lowerOutput f b else s.lowerValue f calls plan b

def lowerBlock (f : Func) (calls : StoreCalls) (plan : Plan) (s : Lowering) (block : Block) :
    Except StreamError Lowering :=
  block.bindings.foldlM (lowerBinding f calls plan)
    { s with builder := s.builder.beginBlock block.kind }

/-- Nothing lowered yet: the attributes only. -/
def start (f : Func) : Lowering where
  builder := f.attrs.foldl (fun b (name, value) => b.setAttr name value) .empty

end Lowering

/-! ### Functions -/

/-- The streaming form of `f` under a plan.  Inputs read by the result expression are fetched last
and stay resident. -/
def Func.lower (f : Func) (calls : StoreCalls) (plan : Plan) : Except StreamError Func := do
  let s ← f.blocks.foldlM (Lowering.lowerBlock f calls plan) (Lowering.start f)
  let param := plan.convention.param
  let result ← f.result.reroute param s.values s.builder.next.index
  let s := s.emitAll ((f.result.inputReads param).map calls.fetch)
  pure (s.builder.finish result .object)

end ParamStream
