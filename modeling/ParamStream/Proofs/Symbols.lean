import ParamStream.Proofs.Outcome
import ParamStream.Proofs.Sequences
import ParamStream.Symbol

/-!
# Symbols keep their meaning

A symbol table only ever grows at its end.  So a symbol that has been given out resolves to the same
string from then on, and its string is found under the same symbol, whatever is interned later.  The
strings of a table do not repeat, and therefore looking a string up and resolving a symbol undo each
other.

## Main statements

* `SymbolTable.find?_eq_some_iff` — a string is found where it stands;
* `SymbolTable.resolve_of_prefix`, `SymbolTable.find?_of_prefix` — growth changes nothing;
* `SymbolTable.strings_internAll` — the strings of a table stand in the order of their first
  interning.
-/

namespace ParamStream

namespace SymbolTable

/-! ### Finding and resolving -/

/-- A string is found exactly where it stands. -/
theorem find?_eq_some_iff {t : SymbolTable} {s : String} {n : Symbol} :
    t.find? s = some n ↔ t.strings[n.index]? = some s := by
  constructor
  · intro found
    unfold find? at found
    split at found
    · next present =>
      obtain rfl := Option.some.inj found
      exact List.getElem?_idxOf present
    · cases found
  · intro at_n
    obtain ⟨inside, is_s⟩ := List.getElem?_eq_some_iff.mp at_n
    have present : s ∈ t.strings := List.mem_of_getElem? at_n
    have position : t.strings.idxOf s = n.index := by
      rw [← is_s]
      exact t.nodup_strings.idxOf_getElem _ inside
    rw [find?, if_pos present, position]

theorem find?_eq_none_iff {t : SymbolTable} {s : String} : t.find? s = none ↔ s ∉ t.strings := by
  simp [find?]

theorem resolve_of_getElem? {t : SymbolTable} {s : String} {n : Symbol}
    (at_n : t.strings[n.index]? = some s) : t.resolve n = s := by
  rw [resolve, at_n, Option.getD_some]

theorem getElem?_resolve {t : SymbolTable} {n : Symbol} (known : n.index < t.size) :
    t.strings[n.index]? = some (t.resolve n) := by
  have at_n : t.strings[n.index]? = some _ := List.getElem?_eq_getElem known
  rw [at_n, resolve_of_getElem? at_n]

/-- Symbols of the table are told apart by their strings. -/
theorem resolve_inj {t : SymbolTable} {m n : Symbol} (known : m.index < t.size)
    (known' : n.index < t.size) (same : t.resolve m = t.resolve n) : m = n := by
  have at_m := find?_eq_some_iff.mpr (getElem?_resolve known)
  have at_n := find?_eq_some_iff.mpr (getElem?_resolve known')
  rw [same, at_n] at at_m
  exact (Option.some.inj at_m).symm

/-- A string that is appended is found at the end, and the others where they were. -/
theorem find?_push (t : SymbolTable) {s : String} (absent : s ∉ t.strings) (s' : String) :
    (t.push s absent).find? s' = if s = s' then some ⟨t.size⟩ else t.find? s' := by
  split
  · next same =>
    subst same
    rw [find?_eq_some_iff, strings_push, size, List.getElem?_concat_length]
  · next differ =>
    ext n
    rw [find?_eq_some_iff, find?_eq_some_iff, strings_push]
    by_cases inside : n.index < t.strings.length
    · rw [List.getElem?_append_left inside]
    · have beyond : t.strings[n.index]? = none := List.getElem?_eq_none (by omega)
      rw [List.getElem?_append_right (by omega), beyond, List.getElem?_singleton]
      split <;> simp [differ]

/-! ### Growth -/

/-- Interning only ever appends. -/
theorem strings_prefix_intern (t : SymbolTable) (s : String) :
    t.strings <+: (t.intern s).2.strings := by
  rw [strings_intern]
  split
  · exact List.prefix_rfl
  · exact List.prefix_append _ _

/-- A symbol that a table has given out resolves to the same string in every extension of it. -/
theorem resolve_of_prefix {t u : SymbolTable} (extension : t.strings <+: u.strings) {n : Symbol}
    (known : n.index < t.size) : u.resolve n = t.resolve n := by
  obtain ⟨more, split⟩ := extension
  rw [resolve, resolve, ← split, List.getElem?_append_left known]

/-- The symbol handed out is one of the table returned. -/
theorem intern_lt_size (t : SymbolTable) (s : String) :
    (t.intern s).1.index < (t.intern s).2.size := by
  by_cases present : s ∈ t.strings
  · rw [intern_of_mem present]
    exact List.idxOf_lt_length_of_mem present
  · rw [intern_of_notMem present]
    simp [size]

/-- A string is found under the symbol handed out for it. -/
theorem find?_intern (t : SymbolTable) (s : String) :
    (t.intern s).2.find? s = some (t.intern s).1 := by
  rw [find?_eq_some_iff, getElem?_resolve (t.intern_lt_size s), resolve_intern]

/-- A string that is found is found under the same symbol in every extension of the table. -/
theorem find?_of_prefix {t u : SymbolTable} (extension : t.strings <+: u.strings) {s : String}
    {n : Symbol} (found : t.find? s = some n) : u.find? s = some n := by
  obtain ⟨more, split⟩ := extension
  have at_n := find?_eq_some_iff.mp found
  rw [find?_eq_some_iff, ← split,
    List.getElem?_append_left (List.getElem?_eq_some_iff.mp at_n).1, at_n]

/-- A string that is found is interned without a change. -/
theorem intern_of_find? {t : SymbolTable} {s : String} {n : Symbol} (found : t.find? s = some n) :
    t.intern s = (n, t) := by
  unfold find? at found
  split at found
  · next present =>
    obtain rfl := Option.some.inj found
    exact intern_of_mem present
  · cases found

/-- Interning a string once more, in an extension of the table, hands out the same symbol. -/
theorem intern_of_prefix {t u : SymbolTable} {s : String}
    (extension : (t.intern s).2.strings <+: u.strings) : u.intern s = ((t.intern s).1, u) := by
  have found : u.find? s = some (t.intern s).1 := find?_of_prefix extension (t.find?_intern s)
  exact intern_of_find? found

theorem internAll_append_snd (t : SymbolTable) (ss us : List String) :
    (t.internAll (ss ++ us)).2 = ((t.internAll ss).2.internAll us).2 := by
  induction ss generalizing t with
  | nil => rfl
  | cons s ss ih => exact ih (t.intern s).2

theorem strings_prefix_internAll (t : SymbolTable) (ss : List String) :
    t.strings <+: (t.internAll ss).2.strings := by
  induction ss generalizing t with
  | nil => exact List.prefix_rfl
  | cons s ss ih => exact (t.strings_prefix_intern s).trans (ih _)

/-- Later stages extend earlier ones. -/
theorem strings_internAll_prefix (t : SymbolTable) {ss us : List String} (le : ss <+: us) :
    (t.internAll ss).2.strings <+: (t.internAll us).2.strings := by
  obtain ⟨more, rfl⟩ := le
  rw [internAll_append_snd]
  exact strings_prefix_internAll _ more

/-- A new string is refused when there is no room for it. -/
theorem tryIntern_of_full {t : SymbolTable} {s : String} (absent : s ∉ t.strings)
    (full : capacity ≤ t.size) : t.tryIntern s = .error ⟨t.size⟩ := if_pos ⟨absent, full⟩

theorem tryIntern_of_room {t : SymbolTable} {s : String}
    (room : ¬ (s ∉ t.strings ∧ capacity ≤ t.size)) : t.tryIntern s = .ok (t.intern s) :=
  if_neg room

/-- Where `tryIntern` succeeds, it is `intern`. -/
theorem intern_of_tryIntern {t : SymbolTable} {s : String} {r : Symbol × SymbolTable}
    (interned : t.tryIntern s = .ok r) : t.intern s = r := by
  unfold tryIntern at interned
  split at interned
  · cases interned
  · exact Except.ok.inj interned

/-- Where `tryIntern` fails, `intern` exceeds the capacity. -/
theorem capacity_lt_of_tryIntern {t : SymbolTable} {s : String} {e : CapacityError}
    (failed : t.tryIntern s = .error e) : capacity < (t.intern s).2.size := by
  unfold tryIntern at failed
  split at failed
  · next full =>
    obtain ⟨absent, at_capacity⟩ := full
    rw [intern_of_notMem absent, size, strings_push, List.length_append]
    exact Nat.lt_succ_of_le at_capacity
  · cases failed

/-! ### Order of first interning -/

/-- A table lists what it had and what is interned, each string where it first occurs. -/
theorem strings_internAll (t : SymbolTable) (ss : List String) :
    (t.internAll ss).2.strings = (t.strings ++ ss).eraseDups := by
  induction ss generalizing t with
  | nil =>
    rw [List.append_nil, t.nodup_strings.eraseDups_eq]
    rfl
  | cons s ss ih =>
    show ((t.intern s).2.internAll ss).2.strings = _
    rw [ih, strings_intern, List.eraseDups_append_cons]

end SymbolTable

end ParamStream
