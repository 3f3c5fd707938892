import Mathlib.Data.List.Forall2
import ParamStream.Pass
import ParamStream.Proofs.Releases

/-!
# The pass is all or nothing

The pass transforms one function after another, and the symbol table grows in between.  That growth
does not matter for the outcomes: a table met on the way is the one at the outset or that with the
names of the services (`SymbolTable.Reaches`), and both hand out the same symbols for them.  So the
outcome on an item is that under the table of the program, whatever became of the items before it,
and the pass is a traversal of the items with independent outcomes.

## Main definitions

* `Pass.Eligible` — the item is a function whose name ends in the suffix;
* `Pass.Becomes` — what the pass makes of an item;
* `Pass.FirstFailure` — the error reports the first function that has no streaming form.

## Main statements

* `Pass.streamItems_of_reaches` — the outcomes are independent of each other;
* `Pass.run_all_or_nothing` — the pass replaces every eligible function or changes no item.
-/

namespace ParamStream

/-! ### Tables met on the way -/

/-- The table `t`, as it is or with the names of the services. -/
def SymbolTable.Reaches (t u : SymbolTable) : Prop := u = t ∨ u = (StoreCalls.intern t).2

namespace SymbolTable.Reaches

variable {t u : SymbolTable}

theorem refl (t : SymbolTable) : t.Reaches t := .inl rfl

/-- The names of the services are interned with the same result. -/
theorem intern_eq (reaches : t.Reaches u) : StoreCalls.intern u = StoreCalls.intern t := by
  rcases reaches with rfl | rfl
  · rfl
  · exact StoreCalls.intern_intern t

theorem prefix_strings (reaches : t.Reaches u) : t.strings <+: u.strings := by
  rcases reaches with rfl | rfl
  · exact List.prefix_rfl
  · exact StoreCalls.strings_prefix_intern t

end SymbolTable.Reaches

/-- A function has the same streaming form under every table met on the way. -/
theorem Func.stream_of_reaches {t u : SymbolTable} (f : Func) (reaches : t.Reaches u)
    (intermediates : Bool) :
    (f.stream u intermediates).1 = (f.stream t intermediates).1 ∧
      t.Reaches (f.stream u intermediates).2 := by
  unfold stream
  cases f.plan intermediates with
  | error e => exact ⟨rfl, reaches⟩
  | ok plan =>
    rw [reaches.intern_eq]
    exact ⟨rfl, .inr rfl⟩

namespace Pass

/-! ### Items -/

/-- The item is a function whose name ends in the suffix. -/
def Eligible (o : PassOptions) (name : String) : Item → Prop
  | .func _ => o.suffix.toList <:+ name.toList
  | .external _ => False

instance (o : PassOptions) (name : String) (item : Item) : Decidable (Eligible o name item) :=
  match item with
  | .func _ => inferInstanceAs (Decidable (o.suffix.toList <:+ name.toList))
  | .external _ => inferInstanceAs (Decidable False)

theorem selects_iff (o : PassOptions) (name : String) :
    o.selects name = true ↔ o.suffix.toList <:+ name.toList := by
  unfold PassOptions.selects
  exact List.isSuffixOf_iff_suffix

theorem selected_eq_decide (o : PassOptions) (name : String) (item : Item) :
    selected o name item = decide (Eligible o name item) := by
  cases item with
  | func f =>
    rw [Bool.eq_iff_iff, decide_eq_true_iff]
    exact selects_iff o name
  | external target => rfl

variable {o : PassOptions} {name : String} {t u : SymbolTable}

theorem streamItem_of_eligible {f : Func} (eligible : Eligible o name (.func f)) :
    streamItem o name u (.func f) =
      (((f.stream u o.releaseIntermediates).1.map Item.func).mapError (⟨Pass.name, name, ·⟩),
        (f.stream u o.releaseIntermediates).2) := by
  have selected := (selects_iff o name).mpr eligible
  simp only [streamItem, selected, if_true]
  rcases f.stream u o.releaseIntermediates with ⟨_ | _, _⟩ <;> rfl

theorem streamItem_of_not_eligible {item : Item} (ineligible : ¬ Eligible o name item) :
    streamItem o name u item = (.ok item, u) := by
  cases item with
  | func f =>
    have unselected : ¬ o.selects name = true := mt (selects_iff o name).mp ineligible
    simp only [streamItem, unselected]
    rfl
  | external target => rfl

/-- One item: its outcome is that under the table at the outset. -/
theorem streamItem_of_reaches (o : PassOptions) (name : String) (reaches : t.Reaches u)
    (item : Item) :
    (streamItem o name u item).1 = (streamItem o name t item).1 ∧
      t.Reaches (streamItem o name u item).2 := by
  by_cases eligible : Eligible o name item
  · cases item with
    | func f =>
      obtain ⟨same, reaches_next⟩ := f.stream_of_reaches reaches o.releaseIntermediates
      rw [streamItem_of_eligible eligible, streamItem_of_eligible eligible, same]
      exact ⟨rfl, reaches_next⟩
    | external target => exact eligible.elim
  · rw [streamItem_of_not_eligible eligible, streamItem_of_not_eligible eligible]
    exact ⟨rfl, reaches⟩

/-- The outcome on an entry, under the names and the symbols of `table`. -/
def outcome (o : PassOptions) (table : SymbolTable) (entry : Symbol × Item) :
    Except PassError (Symbol × Item) :=
  (streamItem o (table.resolve entry.1) table entry.2).1.map (entry.1, ·)

/-- All items: the outcome on one does not depend on the others. -/
theorem streamItems_of_reaches (o : PassOptions) (reaches : t.Reaches u)
    (items : Assoc Symbol Item) :
    (streamItems o t u items).1 = items.map (outcome o t) ∧
      t.Reaches (streamItems o t u items).2 := by
  induction items generalizing u with
  | nil => exact ⟨rfl, reaches⟩
  | cons entry items ih =>
    obtain ⟨n, item⟩ := entry
    obtain ⟨same, reaches_next⟩ := streamItem_of_reaches o (t.resolve n) reaches item
    obtain ⟨same_rest, reaches_rest⟩ := ih reaches_next
    refine ⟨?_, reaches_rest⟩
    simp only [streamItems, List.map_cons, same_rest, same]
    rfl

/-! ### Outcomes -/

/-- What the pass makes of an item called `name`, the streaming forms being those under `table`. -/
inductive Becomes (o : PassOptions) (table : SymbolTable) (name : String) : Item → Item → Prop
  | streamed {f g : Func} (eligible : Eligible o name (.func f))
      (form : (f.stream table o.releaseIntermediates).1 = .ok g) :
      Becomes o table name (.func f) (.func g)
  | kept {item : Item} (ineligible : ¬ Eligible o name item) : Becomes o table name item item

theorem becomes_of_outcome {entry entry' : Symbol × Item}
    (succeeds : outcome o t entry = .ok entry') :
    entry'.1 = entry.1 ∧ Becomes o t (t.resolve entry.1) entry.2 entry'.2 := by
  obtain ⟨n, item⟩ := entry
  obtain ⟨item', made, rfl⟩ := Except.map_eq_ok_iff.mp succeeds
  refine ⟨rfl, ?_⟩
  by_cases eligible : Eligible o (t.resolve n) item
  · cases item with
    | func f =>
      rw [streamItem_of_eligible eligible] at made
      obtain ⟨g, form, rfl⟩ := Except.map_eq_ok_iff.mp (Except.mapError_eq_ok_iff.mp made)
      exact .streamed eligible form
    | external target => exact eligible.elim
  · rw [streamItem_of_not_eligible eligible] at made
    obtain rfl := Except.ok.inj made
    exact .kept eligible

theorem of_outcome_eq_error {entry : Symbol × Item} {e : PassError}
    (failed : outcome o t entry = .error e) :
    ∃ f, entry.2 = .func f ∧ Eligible o (t.resolve entry.1) entry.2 ∧
      (f.stream t o.releaseIntermediates).1 = .error e.cause ∧ e.pass = Pass.name ∧
      e.func = t.resolve entry.1 := by
  obtain ⟨n, item⟩ := entry
  unfold outcome at failed
  by_cases eligible : Eligible o (t.resolve n) item
  · cases item with
    | func f =>
      rw [streamItem_of_eligible eligible] at failed
      refine ⟨f, rfl, eligible, ?_⟩
      cases form : (f.stream t o.releaseIntermediates).1 with
      | error cause =>
        rw [form] at failed
        cases failed
        exact ⟨rfl, rfl, rfl⟩
      | ok g =>
        rw [form] at failed
        cases failed
    | external target => exact eligible.elim
  · rw [streamItem_of_not_eligible eligible] at failed
    cases failed

/-! ### The pass -/

/-- The error reports an eligible function without a streaming form, and why it has none.  All
eligible functions before it have one. -/
def FirstFailure (o : PassOptions) (p : Program) (e : PassError) : Prop :=
  ∃ before n f after, p.items = before ++ (n, .func f) :: after ∧
    Eligible o (p.symbols.resolve n) (.func f) ∧
    (f.stream p.symbols o.releaseIntermediates).1 = .error e.cause ∧
    e.pass = Pass.name ∧ e.func = p.symbols.resolve n ∧
    ∀ entry ∈ before, ∃ item, Becomes o p.symbols (p.symbols.resolve entry.1) entry.2 item

/-- The pass is a traversal of the items, after which the table may have grown. -/
theorem exists_run_eq (o : PassOptions) (p : Program) :
    ∃ symbols, p.symbols.Reaches symbols ∧
      ((∃ e, p.items.mapM (outcome o p.symbols) = .error e ∧
          run o p = (.error e, ⟨symbols, p.items⟩)) ∨
        ∃ items count, p.items.mapM (outcome o p.symbols) = .ok items ∧
          count = p.items.countP
            (fun entry => Eligible o (p.symbols.resolve entry.1) entry.2) ∧
          run o p = (.ok ⟨0 < count, count⟩, ⟨symbols, items⟩)) := by
  obtain ⟨outcomes, reaches⟩ := streamItems_of_reaches o (.refl p.symbols) p.items
  refine ⟨_, reaches, ?_⟩
  have traversal : (streamItems o p.symbols p.symbols p.items).1.mapM id =
      p.items.mapM (outcome o p.symbols) := by
    rw [outcomes, List.mapM_map]
    rfl
  unfold run conclude
  simp only [traversal, selected_eq_decide]
  cases p.items.mapM (outcome o p.symbols) with
  | error e => exact .inl ⟨e, rfl, rfl⟩
  | ok items => exact .inr ⟨items, _, rfl, rfl, rfl⟩

/-- **The pass is all or nothing.**  Either it fails, reports the first eligible function without a
streaming form, and leaves the items alone, or it replaces every eligible function by its streaming
form, keeps all else and counts what it replaced.  Symbols keep their strings either way. -/
theorem run_all_or_nothing (o : PassOptions) (p : Program) :
    ((∃ e, (run o p).1 = .error e ∧ (run o p).2.items = p.items ∧ FirstFailure o p e) ∨
      ∃ report, (run o p).1 = .ok report ∧
        List.Forall₂ (fun entry entry' => entry'.1 = entry.1 ∧
            Becomes o p.symbols (p.symbols.resolve entry.1) entry.2 entry'.2)
          p.items (run o p).2.items ∧
        report.items = p.items.countP
          (fun entry => Eligible o (p.symbols.resolve entry.1) entry.2) ∧
        (report.changed = true ↔ 0 < report.items)) ∧
    p.symbols.strings <+: (run o p).2.symbols.strings ∧
    ∀ n : Symbol, n.index < p.symbols.size →
      (run o p).2.symbols.resolve n = p.symbols.resolve n := by
  obtain ⟨symbols, reaches, ran⟩ := exists_run_eq o p
  have same_symbols : (run o p).2.symbols = symbols := by
    rcases ran with ⟨e, -, ran⟩ | ⟨items, count, -, -, ran⟩ <;> rw [ran]
  have extension : p.symbols.strings <+: (run o p).2.symbols.strings :=
    same_symbols ▸ reaches.prefix_strings
  refine ⟨?_, extension, fun n known => SymbolTable.resolve_of_prefix extension known⟩
  rcases ran with ⟨e, failed, ran⟩ | ⟨items, count, succeeded, counted, ran⟩
  · rw [ran]
    refine .inl ⟨e, rfl, rfl, ?_⟩
    obtain ⟨before, ⟨n, item⟩, after, split, done, fails⟩ := Except.mapM_eq_error failed
    obtain ⟨f, rfl, eligible, cause, pass, func⟩ := of_outcome_eq_error fails
    refine ⟨before, n, f, after, split, eligible, cause, pass, func, fun entry mem => ?_⟩
    obtain ⟨entry', succeeds⟩ := done entry mem
    exact ⟨_, (becomes_of_outcome succeeds).2⟩
  · rw [ran]
    refine .inr ⟨_, rfl, ?_, counted, by simp⟩
    have made := Except.mapM_eq_ok_iff.mp succeeded
    rw [← List.forall₂_eq_eq_eq, List.forall₂_map_left_iff, List.forall₂_map_right_iff] at made
    exact made.imp fun entry entry' succeeds => becomes_of_outcome succeeds

end Pass

/-- Three functions.  The parameter escapes in the first and in the last one, and the name of the
first does not end in `_params`. -/
def Sample.tensorProgram : Program where
  symbols :=
    ⟨["params", "x", "y", "z", "out", "neg", "sub", "a_params", "b_params", "c"], by decide⟩
  items :=
    [(⟨10⟩, .func (negatedTensor (.var ⟨0⟩))), (⟨8⟩, .func difference),
      (⟨9⟩, .func (negatedTensor (.var ⟨0⟩)))]

namespace Pass

open Sample in
/-- The last function fails, so the second one, which has a streaming form, stays as it is. -/
theorem run_all_or_nothing_of_escape : ∃ e,
    (run { suffix := "_params" } tensorProgram).1 = .error e ∧ e.func = "b_params" ∧
      (run { suffix := "_params" } tensorProgram).2.items = tensorProgram.items ∧
      FirstFailure { suffix := "_params" } tensorProgram e := by
  have failed : (run { suffix := "_params" } tensorProgram).1 = .error _ := rfl
  obtain ⟨ran, -, -⟩ := run_all_or_nothing { suffix := "_params" } tensorProgram
  rcases ran with ⟨e, fails, kept, first⟩ | ⟨report, succeeds, -⟩
  · cases failed.symm.trans fails
    exact ⟨_, failed, rfl, kept, first⟩
  · cases failed.symm.trans succeeds

end Pass

end ParamStream
