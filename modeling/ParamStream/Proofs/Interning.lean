import ParamStream.Interner
import ParamStream.Proofs.Symbols

/-!
# Interning is a growing bijection

An interner holds its strings twice, by symbol and in an index by string, and the two have to stay
inverse to each other.  That they do is shown by running a symbol table beside the interner.  The
table finds strings by a search, so it has nothing that could get out of step; the interner
*represents* it when it has the same strings and its index finds what the search finds.  A call
keeps this, and answers as the table does.  What is known of tables then holds of the interner:
strings stand in the order in which they were first interned, and no symbol ever changes its string.

## Main definitions

* `Interner.Call`, `Interner.run` — calls on an interner;
* `Interner.interned` — the strings that calls have interned;
* `Interner.Named` — the symbol that a string was given;
* `Interner.Represents` — the interner has the strings of a table, and finds them as it does.

## Main statements

* `Interner.Represents.tryIntern`, `Interner.Represents.run` — what a call and calls keep;
* `Interner.Represents.interned_eq_requested` — interning succeeds as long as there is room;
* `Interner.growing_bijection`.
-/

namespace ParamStream

namespace Interner

/-! ### Calls -/

inductive Call where
  | tryIntern (s : String)
  | find (s : String)
  | resolve (n : Symbol)

namespace Call

/-- The string that a call asks to intern. -/
def request? : Call → Option String
  | .tryIntern s => some s
  | .find _ | .resolve _ => none

end Call

/-- The interner after a call.  One that fails leaves it as it was. -/
def step (i : Interner) : Call → Interner
  | .tryIntern s =>
    match i.tryIntern s with
    | .ok (_, i) => i
    | .error _ => i
  | .find _ | .resolve _ => i

/-- The interner after calls, in order. -/
def run (i : Interner) (calls : List Call) : Interner := calls.foldl step i

/-- The strings that calls ask to intern, in order. -/
def requested (calls : List Call) : List String := calls.filterMap Call.request?

/-- The strings that calls have interned: those for which they were given a symbol. -/
def interned (i : Interner) : List Call → List String
  | [] => []
  | .tryIntern s :: calls =>
    match i.tryIntern s with
    | .ok (_, i) => s :: i.interned calls
    | .error _ => i.interned calls
  | .find _ :: calls | .resolve _ :: calls => i.interned calls

/-- The symbol of a string: that of the empty string, or the answer to a call that interns it. -/
inductive Named (calls : List Call) : String → Symbol → Prop
  | empty : Named calls "" .empty
  | given {before after : List Call} {s : String} {n : Symbol} {j : Interner}
      (split : calls = before ++ .tryIntern s :: after)
      (answered : (empty.run before).tryIntern s = .ok (n, j)) : Named calls s n

theorem run_append (i : Interner) (calls more : List Call) :
    i.run (calls ++ more) = (i.run calls).run more := List.foldl_append

theorem step_of_ok {i j : Interner} {s : String} {n : Symbol}
    (answered : i.tryIntern s = .ok (n, j)) : i.step (.tryIntern s) = j := by
  rw [step, answered]

theorem step_of_error {i : Interner} {s : String} {e : CapacityError}
    (failed : i.tryIntern s = .error e) : i.step (.tryIntern s) = i := by
  rw [step, failed]

theorem interned_of_ok {i j : Interner} {s : String} {n : Symbol}
    (answered : i.tryIntern s = .ok (n, j)) (calls : List Call) :
    i.interned (.tryIntern s :: calls) = s :: j.interned calls := by
  rw [interned, answered]

theorem interned_of_error {i : Interner} {s : String} {e : CapacityError}
    (failed : i.tryIntern s = .error e) (calls : List Call) :
    i.interned (.tryIntern s :: calls) = i.interned calls := by
  rw [interned, failed]

/-- Only calls that intern matter to the interner. -/
theorem run_filter (i : Interner) (calls : List Call) :
    i.run (calls.filter (·.request?.isSome)) = i.run calls := by
  induction calls generalizing i with
  | nil => rfl
  | cons c calls ih =>
    cases c with
    | tryIntern s => exact ih (i.step (.tryIntern s))
    | find s => exact ih i
    | resolve n => exact ih i

/-! ### Beside a table -/

/-- The interner has the strings of the table, and its index finds them where the table does. -/
structure Represents (i : Interner) (t : SymbolTable) : Prop where
  strings : i.strings = t.strings
  find? : ∀ s, i.find? s = t.find? s

namespace Represents

variable {i : Interner} {t : SymbolTable}

theorem empty : Interner.empty.Represents .empty where
  strings := rfl
  find? s := by
    by_cases same : s = ""
    · subst same
      rfl
    · have absent : s ∉ SymbolTable.empty.strings := by simpa using same
      rw [SymbolTable.find?_eq_none_iff.mpr absent]
      simp [Interner.find?, Interner.empty, Assoc.get?, Ne.symm same]

theorem size (represents : i.Represents t) : i.size = t.size := by
  rw [Interner.size, represents.strings]
  rfl

theorem resolve (represents : i.Represents t) (n : Symbol) : i.resolve n = t.resolve n := by
  rw [Interner.resolve, represents.strings]
  rfl

/-- The index is inverse to the strings. -/
theorem find?_eq_some_iff (represents : i.Represents t) {s : String} {n : Symbol} :
    i.find? s = some n ↔ i.strings[n.index]? = some s := by
  rw [represents.find?, represents.strings]
  exact SymbolTable.find?_eq_some_iff

/-- Interning answers as it does on the table, and the interner then represents the new table. -/
theorem tryIntern (represents : i.Represents t) (s : String) :
    (∃ n i' t', i.tryIntern s = .ok (n, i') ∧ t.tryIntern s = .ok (n, t') ∧ i'.Represents t') ∨
      ∃ e, i.tryIntern s = .error e ∧ t.tryIntern s = .error e := by
  cases found : i.find? s with
  | some n =>
    have found_in_table := represents.find? s ▸ found
    have present : s ∈ t.strings :=
      List.mem_of_getElem? (SymbolTable.find?_eq_some_iff.mp found_in_table)
    refine .inl ⟨n, i, t, tryIntern_of_find? found, ?_, represents⟩
    rw [SymbolTable.tryIntern_of_room (fun full => full.1 present),
      SymbolTable.intern_of_find? found_in_table]
  | none =>
    have absent : s ∉ t.strings :=
      SymbolTable.find?_eq_none_iff.mp (represents.find? s ▸ found)
    have same_size := represents.size
    by_cases full : SymbolTable.capacity ≤ i.size
    · refine .inr ⟨⟨i.size⟩, tryIntern_of_full found full, ?_⟩
      rw [same_size] at full ⊢
      exact SymbolTable.tryIntern_of_full absent full
    · refine .inl ⟨⟨i.size⟩, _, t.push s absent, tryIntern_of_room found full, ?_, ?_, fun s' => ?_⟩
      · rw [same_size] at full ⊢
        rw [SymbolTable.tryIntern_of_room (fun no_room => full no_room.2),
          SymbolTable.intern_of_notMem absent]
      · rw [represents.strings, SymbolTable.strings_push]
      · rw [SymbolTable.find?_push, ← represents.find? s', same_size]
        exact i.index.get?_insert s s' _

/-- What a call keeps, calls keep: the table is the one in which the same strings are interned. -/
theorem run (represents : i.Represents t) (calls : List Call) :
    (i.run calls).Represents (t.internAll (i.interned calls)).2 := by
  induction calls generalizing i t with
  | nil => exact represents
  | cons c calls ih =>
    cases c with
    | find s => exact ih represents
    | resolve n => exact ih represents
    | tryIntern s =>
      show ((i.step (.tryIntern s)).run calls).Represents _
      rcases represents.tryIntern s with ⟨n, i', t', answered, in_table, next⟩ | ⟨e, failed, -⟩
      · rw [step_of_ok answered, interned_of_ok answered]
        have moved : (t.intern s).2 = t' := by rw [SymbolTable.intern_of_tryIntern in_table]
        show (i'.run calls).Represents ((t.intern s).2.internAll (i'.interned calls)).2
        rw [moved]
        exact ih next
      · rw [step_of_error failed, interned_of_error failed]
        exact ih represents

/-- What is found once is found for ever. -/
theorem find?_run (represents : i.Represents t) {s : String} {n : Symbol}
    (found : i.find? s = some n) (calls : List Call) : (i.run calls).find? s = some n := by
  rw [represents.find?] at found
  rw [(represents.run calls).find?]
  exact SymbolTable.find?_of_prefix (t.strings_prefix_internAll (i.interned calls)) found

/-- A string that was interned is found under the symbol that was given for it. -/
theorem find?_of_answered (represents : i.Represents t) {s : String} {n : Symbol} {j : Interner}
    (answered : i.tryIntern s = .ok (n, j)) (calls : List Call) :
    (i.run (.tryIntern s :: calls)).find? s = some n := by
  show ((i.step (.tryIntern s)).run calls).find? s = some n
  rw [step_of_ok answered]
  rcases represents.tryIntern s with ⟨n', j', t', answered', in_table, next⟩ | ⟨e, failed, -⟩
  · rw [answered] at answered'
    cases answered'
    refine next.find?_run ?_ calls
    have found := t.find?_intern s
    rw [SymbolTable.intern_of_tryIntern in_table] at found
    rw [next.find?, found]
  · rw [answered] at failed
    cases failed

/-- As long as there is room for all strings, all are interned. -/
theorem interned_eq_requested (represents : i.Represents t) {calls : List Call}
    (room : (t.strings ++ requested calls).eraseDups.length ≤ SymbolTable.capacity) :
    i.interned calls = requested calls := by
  induction calls generalizing i t with
  | nil => rfl
  | cons c calls ih =>
    cases c with
    | find s => exact ih represents room
    | resolve n => exact ih represents room
    | tryIntern s =>
      have room_next :
          ((t.intern s).2.strings ++ requested calls).eraseDups.length ≤ SymbolTable.capacity := by
        rw [SymbolTable.strings_intern, ← List.eraseDups_append_cons]
        exact room
      rcases represents.tryIntern s with ⟨n, i', t', answered, in_table, next⟩ | ⟨e, -, refused⟩
      · rw [SymbolTable.intern_of_tryIntern in_table] at room_next
        rw [interned_of_ok answered, ih next room_next]
        rfl
      · -- A table that is full already has more strings than there is room for.
        have too_many := SymbolTable.capacity_lt_of_tryIntern refused
        rw [List.eraseDups_append, List.length_append,
          (t.intern s).2.nodup_strings.eraseDups_eq] at room_next
        exact absurd too_many (Nat.not_lt.mpr (Nat.le_of_add_right_le room_next))

end Represents

/-- A string is among those interned if a call was given a symbol for it. -/
theorem exists_of_mem_interned {i : Interner} {calls : List Call} {s : String}
    (mem : s ∈ i.interned calls) :
    ∃ before after n j, calls = before ++ .tryIntern s :: after ∧
      (i.run before).tryIntern s = .ok (n, j) := by
  induction calls generalizing i with
  | nil => cases mem
  | cons c calls ih =>
    -- What a later call was given is found behind the first call.
    have later : s ∈ (i.step c).interned calls → ∃ before after n j,
        c :: calls = before ++ .tryIntern s :: after ∧ (i.run before).tryIntern s = .ok (n, j) := by
      intro mem
      obtain ⟨before, after, n, j, rfl, answered⟩ := ih mem
      exact ⟨c :: before, after, n, j, rfl, answered⟩
    cases c with
    | find s' => exact later mem
    | resolve n => exact later mem
    | tryIntern s' =>
      cases answered : i.tryIntern s' with
      | error e =>
        rw [interned_of_error answered] at mem
        exact later (by rwa [step_of_error answered])
      | ok answer =>
        obtain ⟨n, j⟩ := answer
        rw [interned_of_ok answered] at mem
        rcases List.mem_cons.mp mem with rfl | mem
        · exact ⟨[], calls, n, j, rfl, answered⟩
        · exact later (by rwa [step_of_ok answered])

/-- A string is found under its symbol, and nothing else is found. -/
theorem named_iff {calls : List Call} {s : String} {n : Symbol} :
    Named calls s n ↔ (empty.run calls).find? s = some n := by
  have found_of_named : ∀ {m}, Named calls s m → (empty.run calls).find? s = some m := by
    rintro m (_ | ⟨rfl, answered⟩)
    · exact Represents.empty.find?_run rfl calls
    · rw [run_append]
      exact (Represents.empty.run _).find?_of_answered answered _
  refine ⟨found_of_named, fun found => ?_⟩
  have represents := Represents.empty.run calls
  have present : s ∈ SymbolTable.empty.strings ++ empty.interned calls := by
    rw [represents.find?_eq_some_iff, represents.strings, SymbolTable.strings_internAll] at found
    exact List.mem_eraseDups.mp (List.mem_of_getElem? found)
  have some_name : ∃ m, Named calls s m := by
    rcases List.mem_append.mp present with initial | new
    · obtain rfl : s = "" := by simpa using initial
      exact ⟨.empty, .empty⟩
    · obtain ⟨before, after, m, j, split, answered⟩ := exists_of_mem_interned new
      exact ⟨m, .given split answered⟩
  obtain ⟨m, named⟩ := some_name
  rw [found_of_named named] at found
  exact Option.some.inj found ▸ named

/-- **Interning is a growing bijection.**  After any calls, the strings are the empty one and those
interned, each once and in the order of first interning, and the index is inverse to them.  A string
is found under the symbol that it was given at any time before, this symbol resolves to the string,
and different strings have different symbols.  Calls that do not intern make no difference.  If
there is room for all strings, all are interned.  Finally, the interner represents the symbol table
with these strings. -/
theorem growing_bijection (calls : List Call) :
    let i := empty.run calls
    let known := "" :: empty.interned calls
    (i.strings.Nodup ∧ i.strings = known.eraseDups ∧ i.size = known.toFinset.card) ∧
      (∀ s n, i.index.get? s = some n ↔ i.strings[n.index]? = some s) ∧
      (∀ s n, Named calls s n ↔ i.find? s = some n) ∧
      (∀ s n, Named calls s n → i.resolve n = s) ∧
      (∀ s s' n n', Named calls s n → Named calls s' n' → (n = n' ↔ s = s')) ∧
      i = empty.run (calls.filter (·.request?.isSome)) ∧
      (("" :: requested calls).toFinset.card ≤ SymbolTable.capacity →
        empty.interned calls = requested calls) ∧
      i.Represents (SymbolTable.empty.internAll (empty.interned calls)).2 := by
  intro i known
  have represents := Represents.empty.run calls
  have strings : i.strings = known.eraseDups := by
    rw [represents.strings, SymbolTable.strings_internAll]
    rfl
  have resolves : ∀ s n, Named calls s n → i.resolve n = s := by
    intro s n named
    rw [named_iff, represents.find?, SymbolTable.find?_eq_some_iff] at named
    rw [represents.resolve, SymbolTable.resolve_of_getElem? named]
  refine ⟨⟨?_, strings, ?_⟩, fun s n => represents.find?_eq_some_iff, fun s n => named_iff,
    resolves, ?_, (run_filter empty calls).symm, fun room => ?_, represents⟩
  · rw [strings]
    exact List.nodup_eraseDups known
  · rw [size, strings, List.length_eraseDups]
  · intro s s' n n' named named'
    constructor
    · rintro rfl
      rw [← resolves s n named, resolves s' n named']
    · rintro rfl
      exact Option.some.inj ((named_iff.mp named).symm.trans (named_iff.mp named'))
  · refine Represents.empty.interned_eq_requested ?_
    rw [List.length_eraseDups]
    exact room

end Interner

open Interner in
/-- Three strings are interned, one of them twice and another after it was looked up in vain, and
the empty string once more. -/
def Sample.calls : List Call :=
  [.tryIntern "neg", .find "sub", .tryIntern "x", .tryIntern "neg", .resolve ⟨7⟩, .tryIntern "",
    .tryIntern "sub"]

namespace Interner

open Sample in
/-- The symbols of the strings are 1, 2 and 3, as there is room for all of them. -/
theorem growing_bijection_calls :
    ("" :: requested calls).toFinset.card ≤ SymbolTable.capacity ∧
      (empty.run calls).strings = ["", "neg", "x", "sub"] ∧ Named calls "neg" ⟨1⟩ ∧
      (empty.run calls).resolve ⟨1⟩ = "neg" ∧ (empty.run calls).find? "sub" = some ⟨3⟩ ∧
      (empty.run calls).size = 4 := by
  have room : ("" :: requested calls).toFinset.card ≤ SymbolTable.capacity := by decide
  obtain ⟨⟨-, strings, -⟩, inverse, named, resolves, -, -, all, -⟩ := growing_bijection calls
  rw [all room] at strings
  have listed : ("" :: requested calls).eraseDups = ["", "neg", "x", "sub"] := by decide
  rw [listed] at strings
  have neg_named : Named calls "neg" ⟨1⟩ :=
    (named _ _).mpr ((inverse _ _).mpr (by rw [strings]; rfl))
  refine ⟨room, strings, neg_named, resolves _ _ neg_named, ?_, ?_⟩
  · exact (inverse _ _).mpr (by rw [strings]; rfl)
  · rw [size, strings]
    rfl

end Interner

end ParamStream
