import ParamStream.Expr

/-!
# Written form of expressions

Variables are written `%n`, host functions `@name` and operators by their bare name.  A call shows
the type of its result, which would swallow a projection after it; so the base of a projection is
put in parentheses when it is a call, and only then.
-/

namespace ParamStream

/-- The written form of a variable. -/
def VarId.render (v : VarId) : String := "%" ++ toString v.index

/-- The written form of a literal; the unit literal looks like the empty tuple. -/
def Literal.render : Literal → String
  | .int n => toString n
  | .bool true => "true"
  | .bool false => "false"
  | .unit => "()"

namespace Expr

def isCall : Expr → Bool
  | .call .. => true
  | _ => false

mutual

/-- The written form of an expression, with names resolved in `table`. -/
def render (table : SymbolTable) : Expr → String
  | .var v => v.render
  | .tuple fields => Text.tuple (renderAll table fields)
  | .proj base i =>
    let text := base.render table
    (if base.isCall then "(" ++ text ++ ")" else text) ++ "." ++ toString i
  | .call callee args ty =>
    callee.render table ++ "(" ++ Text.commas (renderAll table args) ++ ") : " ++ ty.render
  | .lit l => l.render
  | .host name => "@" ++ table.resolve name
  | .op name => table.resolve name

/-- The written forms of a list of expressions. -/
def renderAll (table : SymbolTable) : List Expr → List String
  | [] => []
  | e :: es => e.render table :: renderAll table es

end

theorem renderAll_eq_map (table : SymbolTable) (es : List Expr) :
    renderAll table es = es.map (render table) := by
  induction es with
  | nil => rfl
  | cons e es ih => simp [renderAll, ih]

end Expr

end ParamStream
