import ParamStream.Proofs.Atomicity
import ParamStream.Proofs.Entries

/-!
# Programs are maps in insertion order

A program stores its items under symbols, but it is asked for them by name, and the symbols come
from a table that grows with every use.  Items are functions or external references and replace each
other freely, and the pass exchanges functions for their streaming forms.  Seen by name, a program
nevertheless remains a map in insertion order (`Program.entries`): storing is an insertion into this
map, the pass revises its values, and all else leaves it alone.

This holds as long as items are stored under symbols of the table, which keeps the symbols of a
program known and distinct (`Program.Sound`).  The table may be shared, so strings may be interned
between any two steps.

## Main definitions

* `Program.Step`, `Program.run` — what can be done to a program;
* `Program.stored?` — the item that a step stores, with its name;
* `Program.revisions` — what the passes among some steps make of an item;
* `Program.entries` — the items by name.

## Main statements

* `Program.exists_step_eq_insert` — what a step that stores an item does;
* `Program.Sound.step`, `Program.Sound.run` — what steps preserve;
* `Program.Sound.get?_step` — what an item becomes in a step;
* `Program.insertion_ordered_map`.
-/

namespace ParamStream

/-! ### What the pass makes of an item -/

namespace Pass

/-- An item called `name` after a pass that succeeds: a function that is selected is in streaming
form, and all else is as it was. -/
def revised (o : PassOptions) (table : SymbolTable) (name : String) (item : Item) : Item :=
  match item with
  | .func f =>
    if Eligible o name (.func f) then
      match (f.stream table o.releaseIntermediates).1 with
      | .ok g => .func g
      | .error _ => item
    else item
  | .external _ => item

variable {o : PassOptions} {name : String} {t : SymbolTable}

theorem eq_revised_of_becomes {item item' : Item} (becomes : Becomes o t name item item') :
    item' = revised o t name item := by
  cases becomes with
  | streamed eligible form => simp [revised, eligible, form]
  | kept ineligible =>
    cases item with
    | func f => simp [revised, ineligible]
    | external target => rfl

/-- The items after the pass: revised if it succeeds, as they were if it fails. -/
theorem items_run (o : PassOptions) (p : Program) :
    (run o p).2.items =
      match (run o p).1 with
      | .ok _ => p.items.map fun e => (e.1, revised o p.symbols (p.symbols.resolve e.1) e.2)
      | .error _ => p.items := by
  obtain ⟨symbols, -, ⟨e, -, ran⟩ | ⟨items, count, traversed, -, ran⟩⟩ := exists_run_eq o p
  · rw [ran]
  · rw [ran]
    refine Except.eq_map_of_mapM_eq_ok traversed fun entry _ entry' succeeds => ?_
    obtain ⟨same_symbol, becomes⟩ := becomes_of_outcome succeeds
    exact Prod.ext same_symbol (eq_revised_of_becomes becomes)

theorem strings_prefix_run (o : PassOptions) (p : Program) :
    p.symbols.strings <+: (run o p).2.symbols.strings := by
  obtain ⟨symbols, reaches, ⟨e, -, ran⟩ | ⟨items, count, -, -, ran⟩⟩ := exists_run_eq o p
  · rw [ran]
    exact reaches.prefix_strings
  · rw [ran]
    exact reaches.prefix_strings

end Pass

namespace Program

/-! ### Steps -/

/-- What can be done to a program. -/
inductive Step where
  | addFunc (name : String) (f : Func)
  | addExternal (name target : String)
  | insert (name : Symbol) (item : Item)
  | pass (o : PassOptions)
  /-- a string is interned in the table, which others use as well -/
  | intern (s : String)

/-- The program after a step. -/
def step (p : Program) : Step → Program
  | .addFunc name f => p.addFunc name f
  | .addExternal name target => p.addExternal name target
  | .insert name item => p.insert name item
  | .pass o => (Pass.run o p).2
  | .intern s => { p with symbols := (p.symbols.intern s).2 }

/-- The program after steps, in order. -/
def run (p : Program) (steps : List Step) : Program := steps.foldl step p

/-- The program without items over a table. -/
def fresh (symbols : SymbolTable) : Program := ⟨symbols, []⟩

theorem run_append (p : Program) (steps more : List Step) :
    p.run (steps ++ more) = (p.run steps).run more := List.foldl_append

/-- A symbol under which an item is stored is one of the table. -/
def Admits (p : Program) : Step → Prop
  | .insert name _ => name.index < p.symbols.size
  | .addFunc .. | .addExternal .. | .pass _ | .intern _ => True

instance (p : Program) : (st : Step) → Decidable (p.Admits st)
  | .insert name _ => inferInstanceAs (Decidable (name.index < p.symbols.size))
  | .addFunc .. | .addExternal .. | .pass _ | .intern _ => isTrue trivial

/-- The symbols under which steps store items are symbols of the table at the time. -/
def AdmitsAll (p : Program) : List Step → Prop
  | [] => True
  | st :: steps => p.Admits st ∧ (p.step st).AdmitsAll steps

instance decidableAdmitsAll : (p : Program) → (steps : List Step) → Decidable (p.AdmitsAll steps)
  | _, [] => isTrue trivial
  | p, st :: steps =>
    have := (p.step st).decidableAdmitsAll steps
    inferInstanceAs (Decidable (_ ∧ _))

theorem admitsAll_append {p : Program} {steps more : List Step} :
    p.AdmitsAll (steps ++ more) ↔ p.AdmitsAll steps ∧ (p.run steps).AdmitsAll more := by
  induction steps generalizing p with
  | nil => simp [AdmitsAll, run]
  | cons st steps ih => simp [AdmitsAll, ih, and_assoc, run]

/-- The item that a step stores, with its name. -/
def stored? (p : Program) : Step → Option (String × Item)
  | .addFunc name f => some (name, .func f)
  | .addExternal name target =>
    some (name, .external ((p.symbols.intern name).2.intern target).1)
  | .insert name item => some (p.symbols.resolve name, item)
  | .pass _ | .intern _ => none

/-- The names under which steps store items, in order. -/
def storedNames (p : Program) : List Step → List String
  | [] => []
  | st :: steps => ((p.stored? st).map Prod.fst).toList ++ (p.step st).storedNames steps

/-- What a step that stores nothing makes of an item called `name`. -/
def revise (p : Program) (name : String) (item : Item) : Step → Item
  | .pass o =>
    match (Pass.run o p).1 with
    | .ok _ => Pass.revised o p.symbols name item
    | .error _ => item
  | .addFunc .. | .addExternal .. | .insert .. | .intern _ => item

theorem revise_of_stored {p : Program} {st : Step} {entry : String × Item}
    (stores : p.stored? st = some entry) (name : String) (item : Item) :
    p.revise name item st = item := by
  cases st with
  | pass o => cases stores
  | addFunc s f => rfl
  | addExternal s target => rfl
  | insert n new => rfl
  | intern s => rfl

/-- What the passes among steps make of an item called `name`. -/
def revisions (p : Program) (name : String) : List Step → Item → Item
  | [], item => item
  | st :: steps, item => (p.step st).revisions name steps (p.revise name item st)

/-! ### The items by name -/

/-- The items with their names, in order. -/
def entries (p : Program) : Assoc String Item := p.items.map (Prod.map p.symbols.resolve id)

theorem keys_entries (p : Program) : p.entries.keys = p.names := by
  simp only [entries, Assoc.keys, names, List.map_map]
  rfl

/-- The items have distinct symbols, all of them from the table. -/
structure Sound (p : Program) : Prop where
  known : ∀ n ∈ p.items.keys, n.index < p.symbols.size
  distinct : p.items.keys.Nodup

theorem sound_fresh (symbols : SymbolTable) : (fresh symbols).Sound where
  known := by simp [fresh, Assoc.keys]
  distinct := List.nodup_nil

namespace Sound

variable {p : Program}

/-- Symbols of the table are told apart by their names. -/
theorem apart (sound : p.Sound) {n : Symbol} (known : n.index < p.symbols.size) :
    ∀ m ∈ p.items.keys, p.symbols.resolve m = p.symbols.resolve n → m = n :=
  fun m mem same => SymbolTable.resolve_inj (sound.known m mem) known same

theorem nodup_names (sound : p.Sound) : p.names.Nodup := by
  have renamed : p.names = p.items.keys.map p.symbols.resolve := by
    simp only [names, Assoc.keys, List.map_map]
    rfl
  rw [renamed, List.nodup_map_iff_inj_on sound.distinct]
  exact fun m mem n mem' same => sound.apart (sound.known n mem') m mem same

/-- An item is found under its name. -/
theorem get?_eq (sound : p.Sound) (s : String) : p.get? s = p.entries.get? s := by
  cases found : p.symbols.find? s with
  | some n =>
    have at_n := SymbolTable.find?_eq_some_iff.mp found
    have known : n.index < p.symbols.size := (List.getElem?_eq_some_iff.mp at_n).1
    obtain rfl : p.symbols.resolve n = s := SymbolTable.resolve_of_getElem? at_n
    rw [entries, Assoc.get?_map_keys (sound.apart known)]
    simp [Program.get?, found]
  | none =>
    -- A name that is not in the table is not the name of an item.
    have absent : s ∉ p.entries.keys := by
      rw [keys_entries]
      intro mem
      obtain ⟨e, e_mem, rfl⟩ := List.mem_map.mp mem
      have known := sound.known e.1 (List.mem_map_of_mem e_mem)
      exact SymbolTable.find?_eq_none_iff.mp found
        (List.mem_of_getElem? (SymbolTable.getElem?_resolve known))
    rw [(Assoc.get?_eq_none_iff _ _).mpr absent]
    simp [Program.get?, found]

/-! ### Growth of the table and insertion -/

variable {symbols : SymbolTable}

theorem grow (sound : p.Sound) (extension : p.symbols.strings <+: symbols.strings) :
    Sound { p with symbols } where
  known n mem := Nat.lt_of_lt_of_le (sound.known n mem) extension.length_le
  distinct := sound.distinct

theorem entries_grow (sound : p.Sound) (extension : p.symbols.strings <+: symbols.strings) :
    entries { p with symbols } = p.entries := by
  refine List.map_congr_left fun e mem => ?_
  have known := sound.known e.1 (List.mem_map_of_mem mem)
  show (symbols.resolve e.1, e.2) = (p.symbols.resolve e.1, e.2)
  rw [SymbolTable.resolve_of_prefix extension known]

theorem insert (sound : p.Sound) {n : Symbol} (known : n.index < p.symbols.size) (item : Item) :
    (p.insert n item).Sound where
  known m mem := by
    rw [Program.insert, Assoc.keys_insert] at mem
    split at mem
    · exact sound.known m mem
    · rcases List.mem_append.mp mem with old | new
      · exact sound.known m old
      · exact List.mem_singleton.mp new ▸ known
  distinct := Assoc.nodup_keys_insertAll [(n, item)] sound.distinct

theorem entries_insert (sound : p.Sound) {n : Symbol} (known : n.index < p.symbols.size)
    (item : Item) :
    (p.insert n item).entries = p.entries.insert (p.symbols.resolve n) item :=
  Assoc.insert_map_keys (sound.apart known) item

end Sound

/-! ### What a step does -/

/-- A step that stores an item inserts it under a symbol of its name, after the table has grown. -/
theorem exists_step_eq_insert {p : Program} {st : Step} {s : String} {item : Item}
    (admits : p.Admits st) (stores : p.stored? st = some (s, item)) :
    ∃ symbols n, p.symbols.strings <+: symbols.strings ∧ n.index < symbols.size ∧
      symbols.resolve n = s ∧ p.step st = Program.insert { p with symbols } n item := by
  cases st with
  | addFunc name f =>
    obtain ⟨rfl, rfl⟩ := Prod.mk.inj (Option.some.inj stores)
    exact ⟨_, _, p.symbols.strings_prefix_intern name, p.symbols.intern_lt_size name,
      p.symbols.resolve_intern name, rfl⟩
  | addExternal name target =>
    obtain ⟨rfl, rfl⟩ := Prod.mk.inj (Option.some.inj stores)
    have known := p.symbols.intern_lt_size name
    have extension := (p.symbols.intern name).2.strings_prefix_intern target
    refine ⟨_, _, (p.symbols.strings_prefix_intern name).trans extension,
      Nat.lt_of_lt_of_le known extension.length_le, ?_, rfl⟩
    rw [SymbolTable.resolve_of_prefix extension known, p.symbols.resolve_intern]
  | insert name item =>
    obtain ⟨rfl, rfl⟩ := Prod.mk.inj (Option.some.inj stores)
    exact ⟨p.symbols, name, List.prefix_rfl, admits, rfl, rfl⟩
  | pass o => cases stores
  | intern s => cases stores

/-- Any other step revises the items where they stand, and the table grows. -/
theorem exists_step_eq_revise {p : Program} {st : Step} (stores_none : p.stored? st = none) :
    ∃ symbols, p.symbols.strings <+: symbols.strings ∧
      p.step st =
        ⟨symbols, p.items.map fun e => (e.1, p.revise (p.symbols.resolve e.1) e.2 st)⟩ := by
  cases st with
  | addFunc name f => cases stores_none
  | addExternal name target => cases stores_none
  | insert name item => cases stores_none
  | pass o =>
    have items : (Pass.run o p).2.items =
        p.items.map fun e => (e.1, p.revise (p.symbols.resolve e.1) e.2 (.pass o)) := by
      rw [Pass.items_run]
      simp only [revise]
      cases (Pass.run o p).1 with
      | ok report => rfl
      | error e => exact (List.map_id _).symm
    exact ⟨_, Pass.strings_prefix_run o p, congrArg (Program.mk _) items⟩
  | intern s =>
    refine ⟨_, p.symbols.strings_prefix_intern s, ?_⟩
    exact congrArg (Program.mk _) (List.map_id _).symm

namespace Sound

variable {p : Program} {st : Step} {s : String} {item : Item}

theorem step (sound : p.Sound) (admits : p.Admits st) : (p.step st).Sound := by
  cases stores : p.stored? st with
  | some entry =>
    obtain ⟨symbols, n, extension, known, -, is_insert⟩ := exists_step_eq_insert admits stores
    rw [is_insert]
    exact (sound.grow extension).insert known entry.2
  | none =>
    obtain ⟨symbols, extension, is_revision⟩ := exists_step_eq_revise stores
    rw [is_revision]
    have same_keys : Assoc.keys (p.items.map fun e =>
        (e.1, p.revise (p.symbols.resolve e.1) e.2 st)) = p.items.keys := by
      simp [Assoc.keys]
    refine ⟨?_, ?_⟩
    · show ∀ n ∈ Assoc.keys (p.items.map _), _
      rw [same_keys]
      exact (sound.grow extension).known
    · show (Assoc.keys (p.items.map _)).Nodup
      rw [same_keys]
      exact sound.distinct

theorem entries_step_of_stored (sound : p.Sound) (admits : p.Admits st)
    (stores : p.stored? st = some (s, item)) : (p.step st).entries = p.entries.insert s item := by
  obtain ⟨symbols, n, extension, known, rfl, is_insert⟩ := exists_step_eq_insert admits stores
  rw [is_insert, (sound.grow extension).entries_insert known, sound.entries_grow extension]

theorem entries_step_of_none (sound : p.Sound) (stores_none : p.stored? st = none) :
    (p.step st).entries = p.entries.map fun e => (e.1, p.revise e.1 e.2 st) := by
  obtain ⟨symbols, extension, is_revision⟩ := exists_step_eq_revise stores_none
  rw [is_revision, entries, entries, List.map_map, List.map_map]
  refine List.map_congr_left fun e mem => ?_
  have known := sound.known e.1 (List.mem_map_of_mem mem)
  show (symbols.resolve e.1, _) = (p.symbols.resolve e.1, _)
  rw [SymbolTable.resolve_of_prefix extension known]
  rfl

/-- A name is added behind the others when it is first stored under. -/
theorem names_step_of_stored (sound : p.Sound) (admits : p.Admits st)
    (stores : p.stored? st = some (s, item)) :
    (p.step st).names = if s ∈ p.names then p.names else p.names ++ [s] := by
  rw [← keys_entries, sound.entries_step_of_stored admits stores, Assoc.keys_insert, keys_entries]

theorem names_step_of_none (sound : p.Sound) (stores_none : p.stored? st = none) :
    (p.step st).names = p.names := by
  rw [← keys_entries, sound.entries_step_of_none stores_none, ← keys_entries]
  simp [Assoc.keys]

/-- An item that is stored is found. -/
theorem get?_step_of_stored (sound : p.Sound) (admits : p.Admits st)
    (stores : p.stored? st = some (s, item)) : (p.step st).get? s = some item := by
  rw [(sound.step admits).get?_eq, sound.entries_step_of_stored admits stores,
    Assoc.get?_insert_self]

/-- An item that is not replaced is revised. -/
theorem get?_step (sound : p.Sound) (admits : p.Admits st)
    (other : ∀ item, p.stored? st ≠ some (s, item)) :
    (p.step st).get? s = (p.get? s).map (p.revise s · st) := by
  rw [(sound.step admits).get?_eq, sound.get?_eq]
  cases stores : p.stored? st with
  | some entry =>
    obtain ⟨s', item⟩ := entry
    have differ : s' ≠ s := fun same => other item (same ▸ stores)
    rw [sound.entries_step_of_stored admits stores, Assoc.get?_insert_of_ne _ differ]
    simp [revise_of_stored stores]
  | none =>
    rw [sound.entries_step_of_none stores]
    exact Assoc.get?_map_values p.entries (fun name old => p.revise name old st) s

/-- The entries of other names stay where they are, under the same names. -/
theorem getElem?_step (sound : p.Sound) (admits : p.Admits st)
    (stores : p.stored? st = some (s, item)) {j : Nat} {n : Symbol} {old : Item}
    (at_j : p.items[j]? = some (n, old)) (other : p.symbols.resolve n ≠ s) :
    (p.step st).items[j]? = some (n, old) ∧
      (p.step st).symbols.resolve n = p.symbols.resolve n := by
  obtain ⟨symbols, m, extension, -, rfl, is_insert⟩ := exists_step_eq_insert admits stores
  have known : n.index < p.symbols.size :=
    sound.known n (List.mem_map_of_mem (List.mem_of_getElem? at_j))
  have same_name : symbols.resolve n = p.symbols.resolve n :=
    SymbolTable.resolve_of_prefix extension known
  have differ : n ≠ m := fun same => other (same ▸ same_name.symm)
  rw [is_insert]
  exact ⟨Assoc.getElem?_insert_of_ne at_j differ item, same_name⟩

/-! ### What steps do -/

/-- What a step preserves, steps preserve. -/
theorem run {steps : List Step} (sound : p.Sound) (admitted : p.AdmitsAll steps) :
    (p.run steps).Sound := by
  induction steps generalizing p with
  | nil => exact sound
  | cons st steps ih => exact ih (sound.step admitted.1) admitted.2

/-- The names are those stored under, in the order in which they first were. -/
theorem names_run {steps : List Step} (sound : p.Sound) (admitted : p.AdmitsAll steps) :
    (p.run steps).names = (p.names ++ p.storedNames steps).eraseDups := by
  induction steps generalizing p with
  | nil =>
    rw [storedNames, List.append_nil, sound.nodup_names.eraseDups_eq]
    rfl
  | cons st steps ih =>
    show ((p.step st).run steps).names = _
    rw [ih (sound.step admitted.1) admitted.2, storedNames]
    cases stores : p.stored? st with
    | some entry =>
      rw [sound.names_step_of_stored admitted.1 stores, ← List.eraseDups_append_cons]
      rfl
    | none =>
      rw [sound.names_step_of_none stores]
      rfl

/-- An item that is not replaced by any step is revised by all of them. -/
theorem get?_run {steps : List Step} (sound : p.Sound) (admitted : p.AdmitsAll steps)
    (kept : s ∉ p.storedNames steps) :
    (p.run steps).get? s = (p.get? s).map (p.revisions s steps) := by
  induction steps generalizing p with
  | nil => exact Option.map_id'.symm
  | cons st steps ih =>
    rw [storedNames, List.mem_append, not_or] at kept
    have other : ∀ item, p.stored? st ≠ some (s, item) := by
      intro item stores
      exact kept.1 (by simp [stores])
    show ((p.step st).run steps).get? s = _
    rw [ih (sound.step admitted.1) admitted.2 kept.2, sound.get?_step admitted.1 other,
      Option.map_map]
    rfl

end Sound

/-- **A program is a map in insertion order.**  Let steps be taken on a program without items, with
items stored under symbols of its table.  The names of the items are then distinct and stand in the
order in which they were first stored under, and a name has no item exactly if none was ever stored
under it.  A step that stores an item leaves all other items and their positions alone, and adds its
name behind the others unless it is there already.  If it is the last to store under its name, the
item is found under it, as revised by the passes that succeed later. -/
theorem insertion_ordered_map (symbols : SymbolTable) {steps : List Step}
    (admitted : (fresh symbols).AdmitsAll steps) :
    let p := (fresh symbols).run steps
    let stored := (fresh symbols).storedNames steps
    (p.names.Nodup ∧ p.names = stored.eraseDups) ∧
      (∀ s, p.get? s = none ↔ s ∉ stored) ∧
      ∀ before st after s item, steps = before ++ st :: after →
        let q := (fresh symbols).run before
        q.stored? st = some (s, item) →
          (s ∉ (q.step st).storedNames after →
            p.get? s = some ((q.step st).revisions s after item)) ∧
          (q.step st).names = (if s ∈ q.names then q.names else q.names ++ [s]) ∧
          ∀ (j : Nat) n old, q.items[j]? = some (n, old) → q.symbols.resolve n ≠ s →
            (q.step st).items[j]? = some (n, old) ∧
              (q.step st).symbols.resolve n = q.symbols.resolve n := by
  intro p stored
  have sound := (sound_fresh symbols).run admitted
  have names : p.names = stored.eraseDups := (sound_fresh symbols).names_run admitted
  refine ⟨⟨sound.nodup_names, names⟩, fun s => ?_, ?_⟩
  · rw [sound.get?_eq, Assoc.get?_eq_none_iff, keys_entries, names, List.mem_eraseDups]
  · rintro before st after s item rfl q stores
    obtain ⟨admitted_before, admits, admitted_after⟩ := admitsAll_append.mp admitted
    have sound_before : q.Sound := (sound_fresh symbols).run admitted_before
    have sound_next := sound_before.step admits
    refine ⟨fun last => ?_, sound_before.names_step_of_stored admits stores, ?_⟩
    · show ((fresh symbols).run (before ++ st :: after)).get? s = _
      rw [run_append]
      show ((q.step st).run after).get? s = _
      rw [sound_next.get?_run admitted_after last, sound_before.get?_step_of_stored admits stores]
      rfl
    · exact fun j n old at_j other => sound_before.getElem?_step admits stores at_j other

end Program

open Sample in
/-- A function and an external reference are stored, and the function is brought into streaming
form.  Then the reference gives way to a function, and the pass runs once more and fails. -/
def Sample.history : List Program.Step :=
  [.addFunc "a_params" difference, .addExternal "kernel" "gemm", .pass { suffix := "_params" },
    .insert ⟨9⟩ (.func difference), .pass { suffix := "_params" }]

namespace Program

open Sample in
/-- The function that took the place of the reference stands where this stood, and the other one is
in the form that the first pass gave it.  The target of the reference is no name of an item. -/
theorem insertion_ordered_map_history :
    (fresh tensorNames).AdmitsAll history ∧
      ((fresh tensorNames).run history).names = ["a_params", "kernel"] ∧
      ((fresh tensorNames).run history).get? "gemm" = none ∧
      ((fresh tensorNames).run history).get? "kernel" = some (.func difference) ∧
      ∃ g, (difference.stream ((fresh tensorNames).run (history.take 2)).symbols false).1 = .ok g ∧
        ((fresh tensorNames).run history).get? "a_params" = some (.func g) := by
  have admitted : (fresh tensorNames).AdmitsAll history := by decide
  obtain ⟨⟨-, names⟩, absent, stored⟩ := insertion_ordered_map tensorNames admitted
  refine ⟨admitted, names.trans (by decide), (absent "gemm").mpr (by decide), ?_, _, rfl, ?_⟩
  · obtain ⟨latest, -, -⟩ := stored (history.take 3) (.insert ⟨9⟩ (.func difference))
      (history.drop 4) "kernel" (.func difference) rfl rfl
    exact latest (by decide)
  · obtain ⟨latest, -, -⟩ := stored [] (.addFunc "a_params" difference) (history.drop 1) "a_params"
      (.func difference) rfl rfl
    exact latest (by decide)

end Program

end ParamStream
