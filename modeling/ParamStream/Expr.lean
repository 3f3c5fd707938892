import ParamStream.Symbol
import ParamStream.Ty

/-!
# Expressions

The right-hand sides of bindings.  Expressions nest, so a call may take calls and projections as
operands; the variables an expression reads are visited depth first, from left to right, with a
callee before its arguments, and `Expr.reads` lists them in that order.

## Main definitions

* `VarId`, `Literal`, `Expr`;
* `Expr.reads` — the variables read, in visit order;
* `Expr.asVar?` — the variable that an expression is, if it is one;
* `Expr.inputIndex?` — the index `i` when an expression is exactly the projection `param.i`;
* `Expr.inputReads` — the indices of all projections `param.i` inside an expression;
* `Expr.escapes` — whether the parameter occurs other than as the base of a projection.
-/

namespace ParamStream

/-- A variable: its position in the variable table of the function it belongs to. -/
structure VarId where
  index : Nat
deriving DecidableEq, Inhabited

/-- Constants. -/
inductive Literal where
  | int (n : Int)
  | bool (b : Bool)
  | unit
deriving DecidableEq

/-- Expressions.  A call carries the type of its result. -/
inductive Expr where
  | var (v : VarId)
  | tuple (fields : List Expr)
  | proj (base : Expr) (index : Nat)
  | call (callee : Expr) (args : List Expr) (ty : Ty)
  | lit (l : Literal)
  /-- a function provided by the host -/
  | host (name : Symbol)
  /-- a built-in operator -/
  | op (name : Symbol)

namespace Expr

instance : Inhabited Expr := ⟨.tuple []⟩

/-- The variable that an expression is, if it is a bare variable. -/
def asVar? : Expr → Option VarId
  | .var v => some v
  | _ => none

theorem asVar?_eq_some_iff {e : Expr} {v : VarId} : e.asVar? = some v ↔ e = .var v := by
  cases e <;> simp [asVar?]

/-! ### Variables read -/

mutual

/-- The variables read by an expression, in visit order and with repetitions. -/
def reads : Expr → List VarId
  | .var v => [v]
  | .tuple fields => readsAll fields
  | .proj base _ => base.reads
  | .call callee args _ => callee.reads ++ readsAll args
  | .lit _ | .host _ | .op _ => []

/-- The variables read by a list of expressions, from left to right. -/
def readsAll : List Expr → List VarId
  | [] => []
  | e :: es => e.reads ++ readsAll es

end

theorem readsAll_eq_flatMap (es : List Expr) : readsAll es = es.flatMap reads := by
  induction es with
  | nil => rfl
  | cons e es ih => simp [readsAll, ih]

/-! ### Occurrences of the tuple parameter -/

/-- The index `i` of an expression that is exactly `param.i`. -/
def inputIndex? (param : VarId) : Expr → Option Nat
  | .proj base i => if base.asVar? = some param then some i else none
  | _ => none

mutual

/-- The indices of the projections `param.i` in an expression, in visit order. -/
def inputReads (param : VarId) : Expr → List Nat
  | .tuple fields => inputReadsAll param fields
  | .proj base i => if base.asVar? = some param then [i] else base.inputReads param
  | .call callee args _ => callee.inputReads param ++ inputReadsAll param args
  | .var _ | .lit _ | .host _ | .op _ => []

/-- `inputReads` of a list of expressions, from left to right. -/
def inputReadsAll (param : VarId) : List Expr → List Nat
  | [] => []
  | e :: es => e.inputReads param ++ inputReadsAll param es

end

mutual

/-- Whether `param` occurs anywhere other than directly under a projection. -/
def escapes (param : VarId) : Expr → Bool
  | .var v => v = param
  | .tuple fields => escapesAny param fields
  | .proj base _ => if base.asVar? = some param then false else base.escapes param
  | .call callee args _ => callee.escapes param || escapesAny param args
  | .lit _ | .host _ | .op _ => false

/-- Whether `param` escapes in one of the expressions. -/
def escapesAny (param : VarId) : List Expr → Bool
  | [] => false
  | e :: es => e.escapes param || escapesAny param es

end

theorem inputReadsAll_eq_flatMap (param : VarId) (es : List Expr) :
    inputReadsAll param es = es.flatMap (inputReads param) := by
  induction es with
  | nil => rfl
  | cons e es ih => simp [inputReadsAll, ih]

theorem escapesAny_eq_any (param : VarId) (es : List Expr) :
    escapesAny param es = es.any (escapes param) := by
  induction es with
  | nil => rfl
  | cons e es ih => simp [escapesAny, ih]

end Expr

end ParamStream
