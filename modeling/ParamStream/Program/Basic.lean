import ParamStream.Func.Basic

/-!
# Programs

A program is a collection of named items that share one symbol table.  An item is a function or a
reference to an external symbol.  Items keep the order in which their names were first inserted,
and storing an item under a name in use replaces the old item where it stands.
-/

namespace ParamStream

inductive Item where
  | func (f : Func)
  /-- defined elsewhere, under the given symbol -/
  | external (target : Symbol)

structure Program where
  symbols : SymbolTable := .empty
  items : Assoc Symbol Item := []

namespace Program

def empty : Program := {}

/-- Store an item under a symbol of the program's table. -/
def insert (p : Program) (name : Symbol) (item : Item) : Program :=
  { p with items := p.items.insert name item }

/-- Store a function under a name, interning the name. -/
def addFunc (p : Program) (name : String) (f : Func) : Program :=
  let (n, symbols) := p.symbols.intern name
  insert { p with symbols } n (.func f)

/-- Store an external reference under a name, interning the name before the target. -/
def addExternal (p : Program) (name target : String) : Program :=
  let (n, symbols) := p.symbols.intern name
  let (s, symbols) := symbols.intern target
  insert { p with symbols } n (.external s)

/-- The item stored under a name. -/
def get? (p : Program) (name : String) : Option Item := do
  let n ← p.symbols.find? name
  p.items.get? n

/-- The function stored under a name. -/
def func? (p : Program) (name : String) : Option Func := do
  match ← p.get? name with
  | .func f => some f
  | .external _ => none

def size (p : Program) : Nat := p.items.length

def isEmpty (p : Program) : Bool := p.items.isEmpty

/-- The names of the items, in order. -/
def names (p : Program) : List String := p.items.map fun (name, _) => p.symbols.resolve name

end Program

end ParamStream
