import ParamStream.Program.Basic

/-!
# Structural dumps

One-line texts that show every constructor and field of a type, an expression, a function or a
program.  Symbols and variables appear as numbers, so a dump needs no symbol table.
-/

namespace ParamStream

namespace Dump

/-- A constructor with named fields. -/
def record (tag : String) (fields : List (String × String)) : String :=
  tag ++ " \x7b " ++ Text.commas (fields.map fun (name, text) => name ++ ": " ++ text) ++ " \x7d"

/-- A constructor with one positional field. -/
def tagged (tag text : String) : String := tag ++ "(" ++ text ++ ")"

def list (items : List String) : String := "[" ++ Text.commas items ++ "]"

def pair (first second : String) : String := "(" ++ first ++ ", " ++ second ++ ")"

def bool (b : Bool) : String := if b then "true" else "false"

end Dump

open Dump

def Symbol.dump (s : Symbol) : String := tagged "Name" (toString s.index)

def VarId.dump (v : VarId) : String := tagged "VarId" (toString v.index)

mutual

def Ty.dump : Ty → String
  | .object => "Object"
  | .tensor => "Tensor"
  | .int => tagged "Prim" "Int"
  | .bool => tagged "Prim" "Bool"
  | .tuple fields => tagged "Tuple" (list (Ty.dumpAll fields))

def Ty.dumpAll : List Ty → List String
  | [] => []
  | ty :: tys => ty.dump :: Ty.dumpAll tys

end

def Literal.dump : Literal → String
  | .int n => tagged "Int" (toString n)
  | .bool b => tagged "Bool" (Dump.bool b)
  | .unit => "Unit"

mutual

def Expr.dump : Expr → String
  | .var v => tagged "Var" v.dump
  | .tuple fields => tagged "Tuple" (list (Expr.dumpAll fields))
  | .proj base i => record "TupleGetItem" [("tuple", base.dump), ("index", toString i)]
  | .call callee args ty =>
    record "Call" [("callee", callee.dump), ("args", list (Expr.dumpAll args)), ("ty", ty.dump)]
  | .lit l => tagged "Literal" l.dump
  | .host name => tagged "ExternFunc" name.dump
  | .op name => tagged "Op" name.dump

def Expr.dumpAll : List Expr → List String
  | [] => []
  | e :: es => e.dump :: Expr.dumpAll es

end

def Binding.dump (b : Binding) : String :=
  record "Binding" [("var", b.var.dump), ("value", b.value.dump)]

def BlockKind.dump : BlockKind → String
  | .dataflow => "Dataflow"
  | .plain => "Plain"

def Block.dump (block : Block) : String :=
  record "Block" [("kind", block.kind.dump), ("bindings", list (block.bindings.map Binding.dump))]

def VarDecl.dump (d : VarDecl) : String :=
  record "VarDecl" [("name", d.name.dump), ("ty", d.ty.dump)]

def AttrValue.dump : AttrValue → String
  | .int n => tagged "Int" (toString n)
  | .bool b => tagged "Bool" (Dump.bool b)
  | .str s => tagged "Str" s.dump

def Func.dump (f : Func) : String :=
  record "Function"
    [("params", list (f.params.map VarId.dump)),
     ("blocks", list (f.blocks.map Block.dump)),
     ("result", f.result.dump),
     ("ret_ty", f.resultTy.dump),
     ("vars", list (f.vars.map VarDecl.dump)),
     ("attrs", list (f.attrs.map fun (name, value) => pair name.dump value.dump))]

def Item.dump : Item → String
  | .func f => tagged "Function" f.dump
  | .external target => record "External" [("symbol", target.dump)]

/-- The dump of a program leaves its symbol table out, and says so by two dots. -/
def Program.dump (p : Program) : String :=
  let items := list (p.items.map fun (name, item) => pair name.dump item.dump)
  "Module \x7b items: " ++ items ++ ", .. \x7d"

end ParamStream
