import ParamStream.Program.Basic
import ParamStream.Streaming.Form

/-!
# The streaming pass

The pass brings every selected function of a program into streaming form.  Functions are selected
by the ending of their name.  It is all or nothing: when one of them has no streaming form, the
first such function in program order is reported and no item changes.  The symbol table may have
grown by then, since it is shared by all functions and never shrinks.
-/

namespace ParamStream

structure PassOptions where
  /-- functions whose name ends in this are selected -/
  suffix : String := "transform_params"
  /-- release computed values as well as inputs -/
  releaseIntermediates : Bool := false
  /-- allow the selected functions to be transformed side by side; the outcome is the same -/
  parallel : Bool := false

namespace PassOptions

/-- Whether a function of the given name is selected. -/
def selects (o : PassOptions) (name : String) : Bool := o.suffix.toList.isSuffixOf name.toList

end PassOptions

/-- A pass failed on a function. -/
structure PassError where
  pass : String
  func : String
  cause : StreamError

namespace PassError

def message (e : PassError) : String :=
  s!"pass '{e.pass}' failed on `{e.func}`: {e.cause.message}"

end PassError

/-- What a pass did. -/
structure PassReport where
  changed : Bool
  /-- number of items transformed -/
  items : Nat
deriving DecidableEq

namespace Pass

def name : String := "LazyTransformParams"

/-- The optimisation level from which on the pass runs. -/
def level : Nat := 0

/-- Whether an item is a function of a selected name. -/
def selected (o : PassOptions) (name : String) : Item → Bool
  | .func _ => o.selects name
  | .external _ => false

/-- Transform an item called `name` if it is selected. -/
def streamItem (o : PassOptions) (name : String) (table : SymbolTable) (item : Item) :
    Except PassError Item × SymbolTable :=
  match item with
  | .func f =>
    if o.selects name then
      match f.stream table o.releaseIntermediates with
      | (.ok g, table) => (.ok (.func g), table)
      | (.error e, table) => (.error ⟨Pass.name, name, e⟩, table)
    else (.ok item, table)
  | .external _ => (.ok item, table)

/-- Transform items in order, each with its own outcome.  `names` is the table that item names are
resolved in. -/
def streamItems (o : PassOptions) (names : SymbolTable) :
    SymbolTable → Assoc Symbol Item → List (Except PassError (Symbol × Item)) × SymbolTable
  | table, [] => ([], table)
  | table, (n, item) :: rest =>
    let (outcome, table) := streamItem o (names.resolve n) table item
    let (outcomes, table) := streamItems o names table rest
    (outcome.map (n, ·) :: outcomes, table)

/-- Install the outcomes, or report the first failure among them. -/
def conclude (o : PassOptions) (p : Program) (outcomes : List (Except PassError (Symbol × Item)))
    (symbols : SymbolTable) : Except PassError PassReport × Program :=
  match outcomes.mapM id with
  | .ok items =>
    let count := p.items.countP fun (n, item) => selected o (p.symbols.resolve n) item
    (.ok ⟨0 < count, count⟩, ⟨symbols, items⟩)
  | .error e => (.error e, { p with symbols })

/-- Run the pass: a report or the first failure, and the program after it. -/
def run (o : PassOptions) (p : Program) : Except PassError PassReport × Program :=
  -- Items are selected under the names they have before the table grows.
  let (outcomes, symbols) := streamItems o p.symbols p.symbols p.items
  conclude o p outcomes symbols

end Pass

end ParamStream
