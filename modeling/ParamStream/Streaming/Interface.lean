import ParamStream.Streaming.Error

/-!
# Inputs and outputs of a function

Lowering has to know, at the binding of a variable, whether the variable is an output and to which
slots it goes.  `OutputSlots` is the output tuple turned inside out: for each variable the
positions at which it stands.  A variable that stands at several positions feeds all of them.

`Func.interface` collects this index together with the variables that are bound directly to an
input.
-/

namespace ParamStream

/-- For each variable of the output tuple, its positions. -/
structure OutputSlots where
  index : Assoc VarId (List Nat) := []
  /-- number of fields of the output tuple -/
  arity : Nat := 0

namespace OutputSlots

/-- The slots fed by `v`, if it stands in the output tuple. -/
def get? (s : OutputSlots) (v : VarId) : Option (List Nat) := Assoc.get? s.index v

/-- Number of distinct variables in the output tuple. -/
def size (s : OutputSlots) : Nat := s.index.length

def isEmpty (s : OutputSlots) : Bool := s.index.isEmpty

/-- Add one position to the slots of `v`. -/
def addSlot (index : Assoc VarId (List Nat)) (v : VarId) (slot : Nat) : Assoc VarId (List Nat) :=
  index.insert v ((index.get? v).getD [] ++ [slot])

/-- Index the fields of a tuple, the first of which has the position `slot`. -/
def indexFrom (slot : Nat) (index : Assoc VarId (List Nat)) :
    List Expr → Except StreamError (Assoc VarId (List Nat))
  | [] => pure index
  | field :: fields =>
    match field.asVar? with
    | some v => indexFrom (slot + 1) (addSlot index v slot) fields
    | none => throw (.outputFieldNotVar slot)

/-- The slots of an output binding, whose value has to be a tuple of variables. -/
def ofBinding (b : Binding) : Except StreamError OutputSlots :=
  match b.value with
  | .tuple fields => do
    let index ← indexFrom 0 [] fields
    pure ⟨index, fields.length⟩
  | _ => throw (.outputNotTuple b.var)

end OutputSlots

/-- Where a function takes its inputs and leaves its outputs. -/
structure Interface where
  outputs : OutputSlots := {}
  /-- variables bound to an input, in program order -/
  projections : List VarId := []

namespace Func

/-- The variables other than `output` that are bound to exactly `param.i` for some `i`. -/
def projections (f : Func) (param output : VarId) : List VarId :=
  (f.bindings.filter fun b => b.var ≠ output ∧ (b.value.inputIndex? param).isSome).map Binding.var

/-- The output slots and input projections of a function.  Each binding of the output has to be a
tuple of variables, and the last one counts. -/
def interface (f : Func) (param output : VarId) : Except StreamError Interface := do
  let bound ← (f.bindings.filter (·.var = output)).mapM OutputSlots.ofBinding
  match bound.getLast? with
  | some outputs => pure ⟨outputs, f.projections param output⟩
  | none => throw (.outputUnbound output)

end Func

end ParamStream
