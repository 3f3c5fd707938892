import ParamStream.Func.Render
import ParamStream.Program.Basic

/-!
# Written form of programs

The items in order, with an empty line between neighbours.
-/

namespace ParamStream

/-- The listing of an item under the name `name`. -/
def Item.render (table : SymbolTable) (name : String) : Item → String
  | .func f => f.render table name
  | .external target => "extern " ++ name ++ " = " ++ Text.quoted (table.resolve target)

/-- The listing of a program. -/
def Program.render (p : Program) : String :=
  "\n\n".intercalate
    (p.items.map fun (name, item) => item.render p.symbols (p.symbols.resolve name))

end ParamStream
