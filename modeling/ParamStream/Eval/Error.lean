import ParamStream.Expr

/-!
# Evaluation errors
-/

namespace ParamStream

/-- The ways in which an evaluation ends without a value. -/
inductive EvalError where
  | argCount (expected found : Nat)
  | unbound (v : VarId)
  | notATuple
  | indexOutOfRange (index size : Nat)
  | unknownOp (name : String)
  | unknownHost (name : String)
  /-- a well-formed expression that this evaluator gives no meaning to -/
  | unsupported (what : String)
  | opFailed (name reason : String)
  | hostFailed (name reason : String)
deriving DecidableEq

namespace EvalError

/-- A call whose callee is neither an operator nor a host function. -/
def unsupportedCallee : EvalError := .unsupported "a call through a non-function callee"

/-- An operator or host function that is not being called. -/
def unsupportedReference : EvalError := .unsupported "a first-class function reference"

def message : EvalError → String
  | .argCount expected found => s!"expected {expected} arguments, found {found}"
  | .unbound v => s!"variable %{v.index} read before it was bound"
  | .notATuple => "projection out of a non-tuple value"
  | .indexOutOfRange index size =>
    s!"projection index {index} out of range for tuple of {size}"
  | .unknownOp name => s!"unknown operator `{name}`"
  | .unknownHost name => s!"unknown extern function `{name}`"
  | .unsupported what => s!"{what} cannot be evaluated here"
  | .opFailed name reason => s!"operator `{name}` failed: {reason}"
  | .hostFailed name reason => s!"extern `{name}` failed: {reason}"

end EvalError

end ParamStream
