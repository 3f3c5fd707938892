import ParamStream.Text.Commas

/-!
# Types

Every variable and every call carries a type.  The types are annotations: evaluation never looks
at them, but the streaming form asks whether the parameter is a tuple and which variables are
scalars.
-/

namespace ParamStream

/-- Types of values. -/
inductive Ty where
  /-- anything the host passes around without looking inside -/
  | object
  | tensor
  | int
  | bool
  | tuple (fields : List Ty)

namespace Ty

/-- The type of a value without content: the tuple of no fields. -/
def unit : Ty := .tuple []

instance : Inhabited Ty := ⟨.object⟩

def isTuple : Ty → Bool
  | .tuple _ => true
  | _ => false

def isUnit : Ty → Bool
  | .tuple [] => true
  | _ => false

/-- Integers and booleans: values that occupy no storage of their own. -/
def isScalar : Ty → Bool
  | .int | .bool => true
  | _ => false

/-- The `i`-th field of a tuple type. -/
def field? : Ty → Nat → Option Ty
  | .tuple fields, i => fields[i]?
  | _, _ => none

/-! ### Written form -/

mutual

/-- The written form of a type. -/
def render : Ty → String
  | .object => "object"
  | .tensor => "tensor"
  | .int => "int"
  | .bool => "bool"
  | .tuple fields => Text.tuple (renderAll fields)

/-- The written forms of the fields of a tuple. -/
def renderAll : List Ty → List String
  | [] => []
  | ty :: tys => ty.render :: renderAll tys

end

theorem renderAll_eq_map (tys : List Ty) : renderAll tys = tys.map render := by
  induction tys with
  | nil => rfl
  | cons ty tys ih => simp [renderAll, ih]

end Ty

end ParamStream
