import ParamStream.Archive.Data
import ParamStream.Func.Basic

/-!
# Archived functions

Functions are written to archive data by `Func.toData` and read back by `Func.ofData?`.  Reading
checks the shape and the range of every number: variables, symbols and projection indices are
32-bit words, integers have 64 bits.  Fields that a structure does not know are passed over.

Reading an expression goes through its data once, from the outside in.  The content of a call or of
a projection is a record, and each of its fields is read both as an expression and as a list of
expressions before the ones asked for are picked by name.
-/

namespace ParamStream

/-! ### Symbols, variables and types -/

def Symbol.toData (s : Symbol) : Data := .num s.index

def Symbol.ofData? (d : Data) : Option Symbol := d.word?.map Symbol.mk

def VarId.toData (v : VarId) : Data := .num v.index

def VarId.ofData? (d : Data) : Option VarId := d.word?.map VarId.mk

namespace Ty

mutual

def toData : Ty → Data
  | .object => .str "Object"
  | .tensor => .str "Tensor"
  | .int => .tagged "Prim" (.str "Int")
  | .bool => .tagged "Prim" (.str "Bool")
  | .tuple fields => .tagged "Tuple" (.list (toDataAll fields))

def toDataAll : List Ty → List Data
  | [] => []
  | ty :: tys => ty.toData :: toDataAll tys

end

/-- The scalar type of a tag without content. -/
def scalarOfData? (d : Data) : Option Ty :=
  match d.variant? with
  | some ("Int", .null) => some .int
  | some ("Bool", .null) => some .bool
  | _ => none

/-- A type given by a tag that has no nested types in its content. -/
def flatOfData? (tag : String) (content : Data) : Option Ty :=
  match tag, content with
  | "Object", .null => some .object
  | "Tensor", .null => some .tensor
  | "Prim", content => scalarOfData? content
  | _, _ => none

mutual

def ofData? : Data → Option Ty
  | .str tag => flatOfData? tag .null
  | .record [(tag, content)] => ofVariant? tag content
  | _ => none

/-- The type with the given tag and content. -/
def ofVariant? (tag : String) : Data → Option Ty
  | .list items => if tag = "Tuple" then (ofDataAll? items).map .tuple else none
  | content => flatOfData? tag content

def ofDataAll? : List Data → Option (List Ty)
  | [] => some []
  | d :: ds => do
    let ty ← ofData? d
    let tys ← ofDataAll? ds
    some (ty :: tys)

end

end Ty

/-! ### Expressions -/

def Literal.toData : Literal → Data
  | .int n => .tagged "Int" (.num n)
  | .bool b => .tagged "Bool" (.bool b)
  | .unit => .str "Unit"

def Literal.ofData? (d : Data) : Option Literal :=
  match d.variant? with
  | some ("Int", content) => content.int64?.map .int
  | some ("Bool", content) => content.bool?.map .bool
  | some ("Unit", .null) => some .unit
  | _ => none

namespace Expr

mutual

def toData : Expr → Data
  | .var v => .tagged "Var" v.toData
  | .tuple fields => .tagged "Tuple" (.list (toDataAll fields))
  | .proj base i => .tagged "TupleGetItem" (.record [("tuple", base.toData), ("index", .num i)])
  | .call callee args ty =>
    .tagged "Call"
      (.record [("callee", callee.toData), ("args", .list (toDataAll args)), ("ty", ty.toData)])
  | .lit l => .tagged "Literal" l.toData
  | .host name => .tagged "ExternFunc" name.toData
  | .op name => .tagged "Op" name.toData

def toDataAll : List Expr → List Data
  | [] => []
  | e :: es => e.toData :: toDataAll es

end

/-- An expression given by a tag that has no nested expressions in its content. -/
def flatOfData? (tag : String) (content : Data) : Option Expr :=
  match tag with
  | "Var" => (VarId.ofData? content).map .var
  | "Literal" => (Literal.ofData? content).map .lit
  | "ExternFunc" => (Symbol.ofData? content).map .host
  | "Op" => (Symbol.ofData? content).map .op
  | _ => none

/-- A field of a record, with its readings as an expression and as a list of expressions. -/
structure Operand where
  raw : Data
  expr? : Option Expr
  list? : Option (List Expr)

/-- A projection or a call, from the fields of its content. -/
def compound? (tag : String) (operands : List (String × Operand)) : Option Expr :=
  match tag with
  | "TupleGetItem" => do
    let base ← (← operands.lookup "tuple").expr?
    let index ← (← operands.lookup "index").raw.word?
    some (.proj base index)
  | "Call" => do
    let callee ← (← operands.lookup "callee").expr?
    let args ← (← operands.lookup "args").list?
    let ty ← Ty.ofData? (← operands.lookup "ty").raw
    some (.call callee args ty)
  | _ => none

mutual

def ofData? : Data → Option Expr
  | .record [(tag, content)] => ofVariant? tag content
  | _ => none

/-- The expression with the given tag and content. -/
def ofVariant? (tag : String) : Data → Option Expr
  | .list items => if tag = "Tuple" then (ofDataAll? items).map .tuple else none
  | .record fields =>
    (flatOfData? tag (.record fields)).or (compound? tag (operands fields))
  | content => flatOfData? tag content

def ofDataAll? : List Data → Option (List Expr)
  | [] => some []
  | d :: ds => do
    let e ← ofData? d
    let es ← ofDataAll? ds
    some (e :: es)

/-- The expressions of a list of expressions. -/
def ofList? : Data → Option (List Expr)
  | .list items => ofDataAll? items
  | _ => none

/-- The fields of a record with their readings. -/
def operands : List (String × Data) → List (String × Operand)
  | [] => []
  | (name, d) :: fields => (name, ⟨d, ofData? d, ofList? d⟩) :: operands fields

end

end Expr

/-! ### Functions -/

def Binding.toData (b : Binding) : Data :=
  .record [("var", b.var.toData), ("value", b.value.toData)]

def Binding.ofData? (d : Data) : Option Binding :=
  match d.fields? ["var", "value"] with
  | some [var, value] => do
    let var ← VarId.ofData? var
    let value ← Expr.ofData? value
    some ⟨var, value⟩
  | _ => none

def BlockKind.toData : BlockKind → Data
  | .dataflow => .str "Dataflow"
  | .plain => .str "Plain"

def BlockKind.ofData? (d : Data) : Option BlockKind :=
  match d.variant? with
  | some ("Dataflow", .null) => some .dataflow
  | some ("Plain", .null) => some .plain
  | _ => none

def Block.toData (block : Block) : Data :=
  .record [("kind", block.kind.toData), ("bindings", .list (block.bindings.map Binding.toData))]

def Block.ofData? (d : Data) : Option Block :=
  match d.fields? ["kind", "bindings"] with
  | some [kind, bindings] => do
    let kind ← BlockKind.ofData? kind
    let bindings ← bindings.listOf? Binding.ofData?
    some ⟨kind, bindings⟩
  | _ => none

def VarDecl.toData (decl : VarDecl) : Data :=
  .record [("name", decl.name.toData), ("ty", decl.ty.toData)]

def VarDecl.ofData? (d : Data) : Option VarDecl :=
  match d.fields? ["name", "ty"] with
  | some [name, ty] => do
    let name ← Symbol.ofData? name
    let ty ← Ty.ofData? ty
    some ⟨name, ty⟩
  | _ => none

def AttrValue.toData : AttrValue → Data
  | .int n => .tagged "Int" (.num n)
  | .bool b => .tagged "Bool" (.bool b)
  | .str s => .tagged "Str" s.toData

def AttrValue.ofData? (d : Data) : Option AttrValue :=
  match d.variant? with
  | some ("Int", content) => content.int64?.map .int
  | some ("Bool", content) => content.bool?.map .bool
  | some ("Str", content) => (Symbol.ofData? content).map .str
  | _ => none

namespace Func

/-- An attribute: the pair of its name and its value. -/
def attrToData : Symbol × AttrValue → Data
  | (name, value) => .list [name.toData, value.toData]

def attrOfData? : Data → Option (Symbol × AttrValue)
  | .list [name, value] => do
    let name ← Symbol.ofData? name
    let value ← AttrValue.ofData? value
    some (name, value)
  | _ => none

/-- The archived form of a function. -/
def toData (f : Func) : Data :=
  .record
    [("params", .list (f.params.map VarId.toData)),
     ("blocks", .list (f.blocks.map Block.toData)),
     ("result", f.result.toData),
     ("ret_ty", f.resultTy.toData),
     ("vars", .list (f.vars.map VarDecl.toData)),
     ("attrs", .list (f.attrs.map attrToData))]

/-- Read a function from its archived form. -/
def ofData? (d : Data) : Option Func :=
  match d.fields? ["params", "blocks", "result", "ret_ty", "vars", "attrs"] with
  | some [params, blocks, result, resultTy, vars, attrs] => do
    let params ← params.listOf? VarId.ofData?
    let blocks ← blocks.listOf? Block.ofData?
    let result ← Expr.ofData? result
    let resultTy ← Ty.ofData? resultTy
    let vars ← vars.listOf? VarDecl.ofData?
    let attrs ← attrs.listOf? attrOfData?
    some { params, blocks, result, resultTy, vars, attrs }
  | _ => none

end Func

end ParamStream
