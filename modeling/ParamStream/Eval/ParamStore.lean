import ParamStream.Eval.Host

/-!
# The parameter store

A host that holds a list of inputs.  Fetching an input makes its value resident; committing stores
a value in an output slot; releasing a value drops the first resident equal to it, if there is
one.  The store remembers how many values were resident at once.
-/

namespace ParamStream

structure ParamStore where
  inputs : List Value
  /-- fetched and not yet released, in the order of fetching -/
  resident : List Value := []
  /-- the largest number of residents so far -/
  peak : Nat := 0
  /-- committed values by slot -/
  outputs : Assoc Nat Value := []

namespace ParamStore

/-- The input at an index that may be negative. -/
def input? (s : ParamStore) (i : Int) : Option Value :=
  if 0 ≤ i then s.inputs[i.toNat]? else none

/-- Make a value resident. -/
def hold (s : ParamStore) (v : Value) : ParamStore :=
  let resident := s.resident ++ [v]
  { s with resident, peak := max s.peak resident.length }

/-- Store a value in an output slot. -/
def commit (s : ParamStore) (slot : Nat) (v : Value) : ParamStore :=
  { s with outputs := s.outputs.insert slot v }

/-- Drop the first resident equal to `v`. -/
def release (s : ParamStore) (v : Value) : ParamStore :=
  { s with resident := s.resident.erase v }

/-- The outputs in ascending order of their slots. -/
def outputsBySlot (s : ParamStore) : List (Nat × Value) :=
  s.outputs.mergeSort fun a b => a.1 ≤ b.1

/-- What comes of a call made to the store in state `s`, if the call is one of its services with
operands of the right number and kind. -/
def answer? (s : ParamStore) (name : String) (args : List Value) :
    Option (EStateM.Result EvalError ParamStore Value) :=
  match StoreService.ofName? name, args with
  | some .fetch, [.int i] =>
    match s.input? i with
    | some v => some (.ok v (s.hold v))
    | none => some (.error (.hostFailed name "index out of range") s)
  | some .commit, [.int slot, v] =>
    if slot < 0 then some (.error (.hostFailed name "negative slot") s)
    else some (.ok .unit (s.commit slot.toNat v))
  | some .release, [v] => some (.ok .unit (s.release v))
  | _, _ => none

/-- The store as a host; it knows no other functions. -/
def host : Host ParamStore where
  call name args := fun s => (s.answer? name args).getD (.error (.unknownHost name) s)

/-! ### The three services -/

theorem host_fetch_of_input {s : ParamStore} {i : Int} {v : Value} (found : s.input? i = some v) :
    host.call StoreService.fetch.name [.int i] s = .ok v (s.hold v) := by
  simp [host, answer?, found]

theorem host_fetch_of_missing {s : ParamStore} {i : Int} (missing : s.input? i = none) :
    host.call StoreService.fetch.name [.int i] s =
      .error (.hostFailed StoreService.fetch.name "index out of range") s := by
  simp [host, answer?, missing]

@[simp] theorem host_commit (s : ParamStore) (slot : Nat) (v : Value) :
    host.call StoreService.commit.name [.int slot, v] s = .ok .unit (s.commit slot v) := by
  have notNegative : ¬ (slot : Int) < 0 := by omega
  simp [host, answer?, notNegative]

@[simp] theorem host_release (s : ParamStore) (v : Value) :
    host.call StoreService.release.name [v] s = .ok .unit (s.release v) := by
  simp [host, answer?]

@[simp] theorem input?_natCast (s : ParamStore) (i : Nat) : s.input? i = s.inputs[i]? := by
  simp [input?]

end ParamStore

end ParamStream
