/-!
# Values

What expressions evaluate to.  Equality of values is decidable: a parameter store tells values
apart by equality alone.
-/

namespace ParamStream

inductive Value where
  | int (n : Int)
  | bool (b : Bool)
  | tuple (fields : List Value)
  | unit

namespace Value

instance : Inhabited Value := ⟨.unit⟩

mutual

/-- Decide whether two values are equal. -/
def decEq : (a b : Value) → Decidable (a = b)
  | .int m, .int n => decidable_of_iff (m = n) (by simp)
  | .bool a, .bool b => decidable_of_iff (a = b) (by simp)
  | .tuple as, .tuple bs =>
    match decEqAll as bs with
    | isTrue same => isTrue (congrArg _ same)
    | isFalse differ => isFalse (by simpa using differ)
  | .unit, .unit => isTrue rfl
  | .int _, .bool _ | .int _, .tuple _ | .int _, .unit => isFalse nofun
  | .bool _, .int _ | .bool _, .tuple _ | .bool _, .unit => isFalse nofun
  | .tuple _, .int _ | .tuple _, .bool _ | .tuple _, .unit => isFalse nofun
  | .unit, .int _ | .unit, .bool _ | .unit, .tuple _ => isFalse nofun

/-- Decide whether two lists of values are equal. -/
def decEqAll : (as bs : List Value) → Decidable (as = bs)
  | [], [] => isTrue rfl
  | [], _ :: _ | _ :: _, [] => isFalse nofun
  | a :: as, b :: bs =>
    match decEq a b, decEqAll as bs with
    | isTrue head, isTrue tail => isTrue (by rw [head, tail])
    | isFalse head, _ => isFalse (by simp [head])
    | _, isFalse tail => isFalse (by simp [tail])

end

instance : DecidableEq Value := decEq

end Value

end ParamStream
