import ParamStream.Assoc
import ParamStream.Expr

/-!
# Functions

A function is straight-line code: blocks of bindings over variables, then a result.  Its variable
table gives a name hint and a type to each variable, and a variable is the position of its entry.
Nothing forces a function to be sensible; whether every variable is in the table, defined once and
read only after its definition is a question for `ParamStream.Func.Scope`.
-/

namespace ParamStream

/-- A variable and the expression whose value it takes. -/
structure Binding where
  var : VarId
  value : Expr
deriving Inhabited

inductive BlockKind where
  | dataflow
  | plain
deriving DecidableEq, Inhabited

structure Block where
  kind : BlockKind
  bindings : List Binding
deriving Inhabited

/-- An entry of the variable table. -/
structure VarDecl where
  name : Symbol
  ty : Ty

inductive AttrValue where
  | int (n : Int)
  | bool (b : Bool)
  | str (s : Symbol)
deriving DecidableEq

structure Func where
  params : List VarId
  blocks : List Block
  result : Expr
  resultTy : Ty
  vars : List VarDecl
  attrs : Assoc Symbol AttrValue
deriving Inhabited

/-! ### Types of expressions -/

namespace Expr

mutual

/-- The type of an expression over the variable table `vars`.  What the table does not settle,
an unknown variable or a missing field, is an object. -/
def typeIn (vars : List VarDecl) : Expr → Ty
  | .var v => (vars[v.index]?.map VarDecl.ty).getD .object
  | .tuple fields => .tuple (typesIn vars fields)
  | .proj base i => ((base.typeIn vars).field? i).getD .object
  | .call _ _ ty => ty
  | .lit (.int _) => .int
  | .lit (.bool _) => .bool
  | .lit .unit => .unit
  | .host _ | .op _ => .object

/-- The types of a list of expressions. -/
def typesIn (vars : List VarDecl) : List Expr → List Ty
  | [] => []
  | e :: es => e.typeIn vars :: typesIn vars es

end

end Expr

namespace Func

/-- All bindings, in program order. -/
def bindings (f : Func) : List Binding := f.blocks.flatMap Block.bindings

/-- The table entry of a variable. -/
def decl? (f : Func) (v : VarId) : Option VarDecl := f.vars[v.index]?

/-- The type of a variable, if it is in the table. -/
def varTy? (f : Func) (v : VarId) : Option Ty := (f.decl? v).map VarDecl.ty

/-- The name hint of a variable; a variable outside the table is unnamed. -/
def hint (f : Func) (v : VarId) : Symbol := ((f.decl? v).map VarDecl.name).getD .empty

/-- The type of an expression over the variable table of `f`. -/
def typeOf (f : Func) (e : Expr) : Ty := e.typeIn f.vars

/-- The value of the first attribute called `name`. -/
def attr? (f : Func) (name : Symbol) : Option AttrValue := Assoc.get? f.attrs name

/-- All bindings in program order, each with the position of its block. -/
def placed (f : Func) : List (Nat × Binding) :=
  f.blocks.zipIdx.flatMap fun (block, k) => block.bindings.map fun b => (k, b)

/-- The first binding of `v`, with the position of its block. -/
def bindingOf? (f : Func) (v : VarId) : Option (Nat × Binding) :=
  f.placed.find? fun (_, b) => b.var = v

end Func

end ParamStream
