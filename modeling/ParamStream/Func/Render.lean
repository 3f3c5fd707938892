import ParamStream.Expr.Render
import ParamStream.Func.Basic
import ParamStream.Text.Quoted

/-!
# Written form of functions

A function is listed under a name that it does not carry itself: its parameters with their types,
the attributes if there are any, the blocks, and the returned expression.
-/

namespace ParamStream

/-- The written form of an attribute value. -/
def AttrValue.render (table : SymbolTable) : AttrValue → String
  | .int n => toString n
  | .bool true => "true"
  | .bool false => "false"
  | .str s => Text.quoted (table.resolve s)

/-- A binding, on a line of its own. -/
def Binding.render (table : SymbolTable) (b : Binding) : String :=
  "    " ++ b.var.render ++ " = " ++ b.value.render table ++ "\n"

/-- The line that opens a block. -/
def BlockKind.header : BlockKind → String
  | .dataflow => "  dataflow \x7b\n"
  | .plain => "  block \x7b\n"

def Block.render (table : SymbolTable) (block : Block) : String :=
  block.kind.header ++ String.join (block.bindings.map (Binding.render table)) ++ "  \x7d\n"

namespace Func

/-- A parameter, with its type if the variable table has one. -/
def renderParam (f : Func) (v : VarId) : String :=
  match f.varTy? v with
  | some ty => v.render ++ ": " ++ ty.render
  | none => v.render

/-- The line of attributes, absent when there are none. -/
def renderAttrs (table : SymbolTable) (attrs : Assoc Symbol AttrValue) : String :=
  if attrs.isEmpty then ""
  else
    let entries := attrs.map fun (name, value) => table.resolve name ++ " = " ++ value.render table
    "  attrs \x7b " ++ Text.commas entries ++ " \x7d\n"

/-- The listing of `f` under the name `name`. -/
def render (table : SymbolTable) (name : String) (f : Func) : String :=
  "fn " ++ name ++ "(" ++ Text.commas (f.params.map f.renderParam) ++ ") -> " ++ f.resultTy.render
    ++ " \x7b\n" ++ renderAttrs table f.attrs ++ String.join (f.blocks.map (Block.render table))
    ++ "  return " ++ f.result.render table ++ "\n\x7d"

end Func

end ParamStream
