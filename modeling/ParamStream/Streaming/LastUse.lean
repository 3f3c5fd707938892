import ParamStream.Streaming.Convention
import ParamStream.Streaming.Interface

/-!
# Last uses

The streaming form releases a variable right after the binding that uses it last.  Which variables
are released at all is the *tracked* set: the input projections, and on request every other
variable that may own storage.

`Func.lastUses` scans each block from its last binding to its first.  A variable met for the first
time on that way is met at its last use, so it dies there and leaves the tracked set; a variable
that is still tracked at its own binding is never used and dies at once.  The binding of the
output is passed over: it reads commit results and not the values themselves.
-/

namespace ParamStream

namespace Func

/-- The variables other than `output` that are bound and not known to be scalars. -/
def storageVars (f : Func) (output : VarId) : List VarId :=
  (f.bindings.map Binding.var).filter fun v => v ≠ output ∧ !(f.varTy? v).any Ty.isScalar

/-- The variables to be released, without repetition. -/
def tracked (f : Func) (c : Convention) (i : Interface) (intermediates : Bool) : List VarId :=
  (i.projections ++ if intermediates then f.storageVars c.output else []).eraseDups

end Func

/-- For each analysed binding, by its variable, the variables whose last use it is. -/
structure LastUses where
  dying : Assoc VarId (List VarId) := []

namespace LastUses

/-- The variables that die at the binding of `v`, in the order of their release. -/
def dyingAt (u : LastUses) (v : VarId) : List VarId := (Assoc.get? u.dying v).getD []

/-- Whether the binding of `v` was analysed. -/
def contains (u : LastUses) (v : VarId) : Bool := (Assoc.get? u.dying v).isSome

/-- The number of releases asked for. -/
def releases (u : LastUses) : Nat := (u.dying.flatMap Prod.snd).length

/-- The number of analysed bindings. -/
def size (u : LastUses) : Nat := u.dying.length

def isEmpty (u : LastUses) : Bool := u.dying.isEmpty

/-- Take the variables of a list out of the tracked ones, one after the other: those found, and the
tracked ones that remain. -/
def extract : List VarId → List VarId → List VarId × List VarId
  | tracked, [] => ([], tracked)
  | tracked, v :: vs =>
    if v ∈ tracked then
      let (found, rest) := extract (tracked.filter (· ≠ v)) vs
      (v :: found, rest)
    else extract tracked vs

/-- A scan under way: the variables still tracked, and the last uses found so far. -/
structure Scan where
  tracked : List VarId
  found : LastUses := {}

/-- Scan one binding: its reads die first, in visit order, then its own variable. -/
def scanBinding (output : VarId) (b : Binding) (s : Scan) : Scan :=
  if b.var = output then s
  else
    let (dying, tracked) := extract s.tracked (b.value.reads ++ [b.var])
    ⟨tracked, ⟨s.found.dying.insert b.var dying⟩⟩

/-- Scan the bindings of a block from the last to the first. -/
def scanBlock (output : VarId) (s : Scan) (block : Block) : Scan :=
  block.bindings.foldr (scanBinding output) s

end LastUses

/-- Where each tracked variable is used last. -/
def Func.lastUses (f : Func) (output : VarId) (tracked : List VarId) : LastUses :=
  (f.blocks.foldl (LastUses.scanBlock output) ⟨tracked, {}⟩).found

end ParamStream
