import ParamStream.Assoc
import ParamStream.Symbol

/-!
# Interning with an index

Looking a string up in a `SymbolTable` means to search its strings.  An `Interner` keeps the symbols
by string as well, in an index that is extended whenever a string is appended, so that neither way
of asking needs a search.

Nothing in the type ties the index to the strings.  They agree because every call leaves them in
agreement, and then an interner answers as the symbol table with the same strings does.
-/

namespace ParamStream

/-- Interned strings, by symbol and indexed by string. -/
structure Interner where
  strings : List String
  index : Assoc String Symbol

namespace Interner

/-- The interner that holds the empty string only. -/
def empty : Interner := ⟨[""], [("", .empty)]⟩

def size (i : Interner) : Nat := i.strings.length

/-- Whether nothing but the empty string has been interned. -/
def isEmpty (i : Interner) : Bool := i.size ≤ 1

/-- The symbol of `s`, if `s` is interned. -/
def find? (i : Interner) (s : String) : Option Symbol := i.index.get? s

/-- The string of `n`, or a placeholder when `n` was never given out. -/
def resolve (i : Interner) (n : Symbol) : String := i.strings[n.index]?.getD "<unknown>"

/-- Append a string, after another look at whether it has a symbol by now. -/
def append (i : Interner) (s : String) : Except CapacityError (Symbol × Interner) :=
  match i.find? s with
  | some n => pure (n, i)
  | none =>
    if SymbolTable.capacity ≤ i.size then throw ⟨i.size⟩
    else pure (⟨i.size⟩, ⟨i.strings ++ [s], i.index.insert s ⟨i.size⟩⟩)

/-- The symbol of `s`, and the interner extended by `s` if it was new and there is room. -/
def tryIntern (i : Interner) (s : String) : Except CapacityError (Symbol × Interner) :=
  match i.find? s with
  | some n => pure (n, i)
  | none => i.append s

variable {i : Interner} {s : String}

theorem tryIntern_of_find? {n : Symbol} (found : i.find? s = some n) :
    i.tryIntern s = .ok (n, i) := by
  unfold tryIntern
  rw [found]
  rfl

theorem tryIntern_of_full (absent : i.find? s = none) (full : SymbolTable.capacity ≤ i.size) :
    i.tryIntern s = .error ⟨i.size⟩ := by
  unfold tryIntern append
  rw [absent, if_pos full]
  rfl

theorem tryIntern_of_room (absent : i.find? s = none) (room : ¬ SymbolTable.capacity ≤ i.size) :
    i.tryIntern s = .ok (⟨i.size⟩, ⟨i.strings ++ [s], i.index.insert s ⟨i.size⟩⟩) := by
  unfold tryIntern append
  rw [absent, if_neg room]
  rfl

end Interner

end ParamStream
