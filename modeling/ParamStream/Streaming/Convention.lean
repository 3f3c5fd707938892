import ParamStream.Streaming.Error

/-!
# The calling convention

Streaming applies to functions that take one tuple, read it field by field and return a variable
bound to the tuple of their outputs.  `Func.convention` checks this and names the two variables.

Two further conditions keep every storage decision inside one block: the parameter occurs only as
the base of a projection, and a binding reads variables of its own block only.  The binding of the
output is exempt from the second condition, since it collects the outputs of all blocks.
-/

namespace ParamStream

/-- The two variables that the calling convention singles out. -/
structure Convention where
  /-- the tuple of inputs -/
  param : VarId
  /-- the variable bound to the tuple of outputs -/
  output : VarId
deriving DecidableEq

namespace Convention

/-- Check that the variables read in a block are the parameter or at home in that block.  `homes`
maps each variable bound so far to its block. -/
def checkReads (param : VarId) (homes : Assoc VarId Nat) (block : Nat) :
    List VarId → Except StreamError Unit
  | [] => pure ()
  | v :: vs =>
    if v = param then checkReads param homes block vs
    else
      match homes.get? v with
      | some home =>
        if home = block then checkReads param homes block vs
        else throw (.crossBlockRead v home block)
      | none => checkReads param homes block vs

/-- Check the bindings in program order, the escape of the parameter before the reads. -/
def checkPlaced (c : Convention) :
    Assoc VarId Nat → List (Nat × Binding) → Except StreamError Unit
  | _, [] => pure ()
  | homes, (block, b) :: rest =>
    if b.value.escapes c.param then throw (.paramEscapes c.param)
    else do
      checkReads c.param homes block (if b.var = c.output then [] else b.value.reads)
      checkPlaced c (homes.insert b.var block) rest

/-- The parameter of a function that has exactly one. -/
def soleParam : List VarId → Except StreamError VarId
  | [param] => pure param
  | params => throw (.paramCount params.length)

/-- Check that the parameter is a tuple, given its type in the variable table. -/
def checkParamTy (param : VarId) (ty? : Option Ty) : Except StreamError Unit :=
  let ty := ty?.getD .object
  if ty.isTuple then pure () else throw (.paramNotTuple param ty)

/-- The variable that a function returns. -/
def resultVar (result : Expr) : Except StreamError VarId :=
  match result.asVar? with
  | some v => pure v
  | none => throw .resultNotVar

/-- Check that the output is bound. -/
def checkBound (output : VarId) (binding? : Option (Nat × Binding)) : Except StreamError Unit :=
  if binding?.isSome then pure () else throw (.outputUnbound output)

end Convention

open Convention in
/-- Check that a function follows the calling convention. -/
def Func.convention (f : Func) : Except StreamError Convention := do
  let param ← soleParam f.params
  f.checkScope.mapError .illScoped
  checkParamTy param (f.varTy? param)
  let output ← resultVar f.result
  checkBound output (f.bindingOf? output)
  checkPlaced ⟨param, output⟩ [] f.placed
  pure ⟨param, output⟩

end ParamStream
