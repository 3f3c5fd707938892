import ParamStream.Streaming.Lower

/-!
# The streaming form of a function

`Func.plan` runs the analyses and `Func.stream` lowers a function under them.  The names of the
store's services enter the symbol table only when the analyses succeed.
-/

namespace ParamStream

namespace Func

/-- Analyse a function.  With `intermediates`, computed values are released as well as inputs. -/
def plan (f : Func) (intermediates : Bool) : Except StreamError Plan := do
  let convention ← f.convention
  let interface ← f.interface convention.param convention.output
  let tracked := f.tracked convention interface intermediates
  pure ⟨convention, interface, f.lastUses convention.output tracked⟩

/-- The streaming form of a function, and the symbol table after it. -/
def stream (f : Func) (table : SymbolTable) (intermediates : Bool) :
    Except StreamError Func × SymbolTable :=
  match f.plan intermediates with
  | .error e => (.error e, table)
  | .ok plan =>
    let (calls, table) := StoreCalls.intern table
    (f.lower calls plan, table)

end Func

end ParamStream
