/-!
# Comma-separated text

Operand lists and tuples are written the same way for types and for expressions.  A tuple of one
field keeps a trailing comma, so that it differs from the field in parentheses.
-/

namespace ParamStream.Text

/-- The items in order, separated by `", "`. -/
def commas : List String → String
  | [] => ""
  | [item] => item
  | item :: next :: rest => item ++ ", " ++ commas (next :: rest)

/-- A tuple with the given fields. -/
def tuple : List String → String
  | [] => "()"
  | [item] => "(" ++ item ++ ",)"
  | items => "(" ++ commas items ++ ")"

@[simp] theorem commas_nil : commas [] = "" := rfl

@[simp] theorem commas_singleton (item : String) : commas [item] = item := rfl

theorem commas_cons_cons (item next : String) (rest : List String) :
    commas (item :: next :: rest) = item ++ ", " ++ commas (next :: rest) := rfl

end ParamStream.Text
