/-!
# Archive data

The shape of archived functions: trees of null, booleans, numbers, strings, lists and records.
A value of a sum type is archived as a record with one field, whose name is the tag; a tag without
content may also stand as a bare string.

Integers and decimals are kept apart by how they are written, not by their value: `5.0` is a decimal
and is never read as the integer `5`.  No part of a function is a decimal, but the fields that a
reader passes over may hold any data.
-/

namespace ParamStream

inductive Data where
  | null
  | bool (b : Bool)
  | num (n : Int)
  /-- The number `mantissa / 10 ^ places`, written with a fraction or an exponent. -/
  | decimal (mantissa : Int) (places : Nat)
  | str (s : String)
  | list (items : List Data)
  | record (fields : List (String × Data))

namespace Data

/-- A tag with content. -/
def tagged (tag : String) (content : Data) : Data := .record [(tag, content)]

/-- Tag and content; a bare tag has the content `null`. -/
def variant? : Data → Option (String × Data)
  | .str tag => some (tag, .null)
  | .record [(tag, content)] => some (tag, content)
  | _ => none

/-- Whether a number fits into an unsigned word of 32 bits. -/
def IsWord (n : Int) : Prop := 0 ≤ n ∧ n < 4294967296

/-- Whether a number fits into a signed word of 64 bits. -/
def IsInt64 (n : Int) : Prop := -9223372036854775808 ≤ n ∧ n < 9223372036854775808

instance (n : Int) : Decidable (IsWord n) := inferInstanceAs (Decidable (_ ∧ _))

instance (n : Int) : Decidable (IsInt64 n) := inferInstanceAs (Decidable (_ ∧ _))

/-- An integer of 32 bits without sign. -/
def word? : Data → Option Nat
  | .num n => if IsWord n then some n.toNat else none
  | _ => none

/-- A signed integer of 64 bits. -/
def int64? : Data → Option Int
  | .num n => if IsInt64 n then some n else none
  | _ => none

def bool? : Data → Option Bool
  | .bool b => some b
  | _ => none

def list? : Data → Option (List Data)
  | .list items => some items
  | _ => none

/-- The items of a list, each read by `read`. -/
def listOf? {α : Type} (read : Data → Option α) (d : Data) : Option (List α) := do
  (← d.list?).mapM read

/-- The fields of a structure in the order of `names`.  A structure is a record with at least
these fields, or the list of their contents. -/
def fields? (names : List String) : Data → Option (List Data)
  | .record fields => names.mapM fun name => fields.lookup name
  | .list items => if items.length = names.length then some items else none
  | _ => none

end Data

end ParamStream
