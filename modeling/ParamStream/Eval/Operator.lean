import ParamStream.Assoc
import ParamStream.Eval.Value
import ParamStream.Symbol

/-!
# Operators

An operator maps operand values to a value or to a reason why it cannot.  The evaluator takes the
operators it knows from an `OperatorTable`, keyed by symbol.

The standard operators compute on 64-bit two's complement integers: a result outside that range
wraps around.  An operator looks at the number of its operands before their kinds.
-/

namespace ParamStream

abbrev Operator := List Value → Except String Value

abbrev OperatorTable := Assoc Symbol Operator

namespace Operator

/-- The integer in `[-2^63, 2^63)` that agrees with `n` modulo `2^64`. -/
def wrap (n : Int) : Int := n.bmod 18446744073709551616

def wrongCount (expected : Nat) (args : List Value) : Except String Value :=
  throw s!"expected {expected} operands, got {args.length}"

/-- An operator on one integer. -/
def unary (f : Int → Int) : Operator
  | [.int n] => pure (.int (wrap (f n)))
  | [_] => throw "non-int operand"
  | args => wrongCount 1 args

/-- An operator on two integers. -/
def binary (f : Int → Int → Int) : Operator
  | [.int m, .int n] => pure (.int (wrap (f m n)))
  | [_, _] => throw "non-int operand"
  | args => wrongCount 2 args

def add : Operator := binary (· + ·)

def mul : Operator := binary (· * ·)

def neg : Operator := unary (- ·)

/-- Three times the operand. -/
def scale : Operator := unary (3 * ·)

/-- The tuple of all operands. -/
def pack : Operator := fun args => pure (.tuple args)

/-- Whether two values are equal. -/
def eq : Operator
  | [a, b] => pure (.bool (a = b))
  | args => wrongCount 2 args

/-- The unit value, whatever the operands. -/
def unit : Operator := fun _ => pure .unit

/-- The standard operators under their usual names. -/
def standard : List (String × Operator) :=
  [("add", add), ("mul", mul), ("neg", neg), ("scale", scale), ("pack", pack), ("eq", eq),
   ("unit", unit)]

end Operator

namespace OperatorTable

/-- Register operators by name, from left to right; a later one replaces an earlier one. -/
def register : OperatorTable → SymbolTable → List (String × Operator) → OperatorTable × SymbolTable
  | ops, table, [] => (ops, table)
  | ops, table, (name, op) :: rest =>
    let (n, table) := table.intern name
    register (Assoc.insert ops n op) table rest

end OperatorTable

end ParamStream
