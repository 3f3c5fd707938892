import ParamStream.Func.Scope

/-!
# Why a function has no streaming form
-/

namespace ParamStream

/-- The reasons for which a function is not brought into streaming form. -/
inductive StreamError where
  | paramCount (found : Nat)
  | paramNotTuple (param : VarId) (ty : Ty)
  | resultNotVar
  | outputUnbound (output : VarId)
  | outputNotTuple (output : VarId)
  | outputFieldNotVar (position : Nat)
  /-- a variable of the block `definedIn` is read in the block `readIn` -/
  | crossBlockRead (v : VarId) (definedIn readIn : Nat)
  /-- the parameter occurs other than as the base of a projection -/
  | paramEscapes (param : VarId)
  | illScoped (cause : ScopeError)
  /-- lowering met a variable to which nothing corresponds in the new function -/
  | unmapped (v : VarId)

namespace StreamError

/-- Whether an error blames the analyses and not the function. -/
def isInternal : StreamError → Bool
  | .unmapped _ => true
  | _ => false

def message : StreamError → String
  | .paramCount found => s!"expected exactly one parameter, found {found}"
  | .paramNotTuple param ty =>
    s!"parameter %{param.index} must be a tuple, found `{ty.render}`"
  | .resultNotVar => "function result must be the variable bound to the output tuple"
  | .outputUnbound output => s!"no binding defines the output variable %{output.index}"
  | .outputNotTuple output => s!"output variable %{output.index} must be bound to a tuple"
  | .outputFieldNotVar position =>
    s!"output tuple element {position} is not a variable reference"
  | .crossBlockRead v definedIn readIn =>
    s!"variable %{v.index} is defined in block {definedIn} but used in block {readIn}"
  | .paramEscapes param =>
    s!"parameter %{param.index} is used other than as the base of a projection"
  | .illScoped cause => s!"malformed function: {cause.message}"
  | .unmapped v => s!"internal error: no substitution recorded for %{v.index}"

end StreamError

end ParamStream
