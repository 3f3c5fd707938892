/-!
# Symbols

Names of variables, attributes, operators and program items are *symbols*: positions in a table
of distinct strings.  The empty string is always symbol `0`, so an unnamed variable needs no entry
of its own.

* `SymbolTable` — the strings interned so far; that no string occurs twice is part of the type;
* `SymbolTable.find?` — the symbol of a string that is already interned;
* `SymbolTable.intern` — the symbol of a string, appended when it is new;
* `SymbolTable.resolve` — the string of a symbol.

A symbol is a plain number, so a table can be asked about symbols it never gave out; `resolve`
answers those with a placeholder.
-/

namespace ParamStream

/-- A position in a symbol table. -/
structure Symbol where
  index : Nat
deriving DecidableEq

namespace Symbol

/-- The symbol of the empty string, in every table. -/
def empty : Symbol := ⟨0⟩

end Symbol

/-- The interned strings: the empty string followed by `named`, without repetition. -/
structure SymbolTable where
  named : List String
  nodup : ("" :: named).Nodup

/-- Interning a new string would need a symbol beyond the last representable one. -/
structure CapacityError where
  count : Nat
deriving DecidableEq

namespace CapacityError

def message (e : CapacityError) : String :=
  s!"interner exceeded capacity: {e.count} strings, max is 4294967295"

end CapacityError

namespace SymbolTable

/-- The table that holds the empty string only. -/
def empty : SymbolTable := ⟨[], by simp⟩

instance : Inhabited SymbolTable := ⟨empty⟩

/-- All interned strings; symbol `i` is the `i`-th of them. -/
def strings (t : SymbolTable) : List String := "" :: t.named

theorem nodup_strings (t : SymbolTable) : t.strings.Nodup := t.nodup

def size (t : SymbolTable) : Nat := t.strings.length

/-- Whether nothing but the empty string has been interned. -/
def isEmpty (t : SymbolTable) : Bool := t.size ≤ 1

/-- The symbol of `s`, if `s` is interned. -/
def find? (t : SymbolTable) (s : String) : Option Symbol :=
  if s ∈ t.strings then some ⟨t.strings.idxOf s⟩ else none

/-- The string of `n`, or a placeholder when the table never gave `n` out. -/
def resolve (t : SymbolTable) (n : Symbol) : String :=
  t.strings[n.index]?.getD "<unknown>"

/-- Append a new string. -/
def push (t : SymbolTable) (s : String) (h : s ∉ t.strings) : SymbolTable where
  named := t.named ++ [s]
  nodup := by
    have hd := t.nodup
    rw [← List.cons_append, List.nodup_append]
    refine ⟨hd, by simp, ?_⟩
    intro a ha b hb hab
    rw [List.mem_singleton] at hb
    exact h (hb ▸ hab ▸ ha)

/-- The symbol of `s`, and the table extended by `s` if it was new. -/
def intern (t : SymbolTable) (s : String) : Symbol × SymbolTable :=
  if h : s ∈ t.strings then (⟨t.strings.idxOf s⟩, t) else (⟨t.size⟩, t.push s h)

/-- Number of symbols that can be represented: those below `2 ^ 32`. -/
def capacity : Nat := 4294967296

/-- `intern` for callers that have to survive a full table. -/
def tryIntern (t : SymbolTable) (s : String) : Except CapacityError (Symbol × SymbolTable) :=
  if s ∉ t.strings ∧ capacity ≤ t.size then throw ⟨t.size⟩ else pure (t.intern s)

/-- Intern the strings of a list from left to right. -/
def internAll (t : SymbolTable) : List String → List Symbol × SymbolTable
  | [] => ([], t)
  | s :: ss =>
    let (n, t) := t.intern s
    let (ns, t) := t.internAll ss
    (n :: ns, t)

@[simp] theorem strings_empty : empty.strings = [""] := rfl

@[simp] theorem strings_push (t : SymbolTable) (s : String) (h : s ∉ t.strings) :
    (t.push s h).strings = t.strings ++ [s] := rfl

theorem intern_of_mem {t : SymbolTable} {s : String} (h : s ∈ t.strings) :
    t.intern s = (⟨t.strings.idxOf s⟩, t) := by
  simp [intern, h]

theorem intern_of_notMem {t : SymbolTable} {s : String} (h : s ∉ t.strings) :
    t.intern s = (⟨t.size⟩, t.push s h) := by
  simp [intern, h]

/-- Interning appends the string exactly when it is new. -/
theorem strings_intern (t : SymbolTable) (s : String) :
    (t.intern s).2.strings = if s ∈ t.strings then t.strings else t.strings ++ [s] := by
  by_cases h : s ∈ t.strings
  · simp [intern_of_mem h, h]
  · simp [intern_of_notMem h, h]

/-- The symbol handed out resolves to the interned string. -/
theorem resolve_intern (t : SymbolTable) (s : String) :
    (t.intern s).2.resolve (t.intern s).1 = s := by
  by_cases h : s ∈ t.strings
  · have hi : t.strings.idxOf s < t.strings.length := List.idxOf_lt_length_of_mem h
    simp [intern_of_mem h, resolve, List.getElem?_eq_getElem hi]
  · simp [intern_of_notMem h, resolve, size]

end SymbolTable

end ParamStream
