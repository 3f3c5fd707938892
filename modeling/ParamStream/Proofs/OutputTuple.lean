import ParamStream.Proofs.Convention
import ParamStream.Streaming.Interface

/-!
# The output tuple

A function that follows the convention and has an interface binds its output once, to a tuple of
variables that are all bound before it.  The interface holds this tuple inside out, so the slots
recorded for a variable are exactly the positions at which it stands.

## Main definitions

* `OutputSlots.slots` — the slots of a variable, none if it is no output;
* `positionsFrom` — the positions of a variable in a list, counted from a given number;
* `OutputTuple` — where the output is bound, and over which variables.
-/

namespace ParamStream

/-! ### Positions of a variable -/

/-- The positions of `v` in `xs`, in ascending order, when the first position is `start`. -/
def positionsFrom (start : Nat) (xs : List VarId) (v : VarId) : List Nat :=
  ((xs.zipIdx start).filter fun entry => entry.1 = v).map Prod.snd

@[simp] theorem positionsFrom_nil (start : Nat) (v : VarId) : positionsFrom start [] v = [] := rfl

theorem positionsFrom_cons (start : Nat) (x : VarId) (xs : List VarId) (v : VarId) :
    positionsFrom start (x :: xs) v =
      (if x = v then [start] else []) ++ positionsFrom (start + 1) xs v := by
  by_cases same : x = v <;> simp [positionsFrom, same]

theorem mem_positionsFrom_zero {xs : List VarId} {v : VarId} {j : Nat} :
    j ∈ positionsFrom 0 xs v ↔ xs[j]? = some v := by
  simp only [positionsFrom, List.mem_map, List.mem_filter, List.mem_zipIdx_iff_getElem?,
    decide_eq_true_eq, Prod.exists]
  constructor
  · rintro ⟨x, k, ⟨at_k, rfl⟩, rfl⟩
    exact at_k
  · intro at_j
    exact ⟨v, j, ⟨at_j, rfl⟩, rfl⟩

theorem nodup_positionsFrom (start : Nat) (xs : List VarId) (v : VarId) :
    (positionsFrom start xs v).Nodup := by
  have all : ((xs.zipIdx start).map Prod.snd).Nodup := by
    rw [List.zipIdx_map_snd]
    exact List.nodup_range'
  exact all.sublist (List.filter_sublist.map Prod.snd)

theorem positionsFrom_eq_nil {start : Nat} {xs : List VarId} {v : VarId} (absent : v ∉ xs) :
    positionsFrom start xs v = [] := by
  rw [positionsFrom, List.map_eq_nil_iff, List.filter_eq_nil_iff]
  intro entry mem same
  exact absent (of_decide_eq_true same ▸ List.fst_mem_of_mem_zipIdx mem)

/-- All positions of a variable, picked from the positions of the list. -/
theorem positionsFrom_zero_eq_filter (xs : List VarId) (v : VarId) :
    positionsFrom 0 xs v = (List.range xs.length).filter fun k => xs[k]? = some v := by
  have same : ∀ entry ∈ xs.zipIdx, decide (entry.1 = v) = decide (xs[entry.2]? = some v) := by
    rintro ⟨x, k⟩ mem
    simp [List.mem_zipIdx_iff_getElem?.mp mem]
  rw [positionsFrom, List.filter_congr same, List.range_eq_range', ← List.zipIdx_map_snd 0 xs,
    List.filter_map]
  rfl

/-- Before a position of a variable in the list of all of them come the smaller ones. -/
theorem exists_positionsFrom_split {xs : List VarId} {v : VarId} {j : Nat}
    (at_j : xs[j]? = some v) :
    ∃ behind, positionsFrom 0 xs v =
      ((List.range j).filter fun k => xs[k]? = some v) ++ j :: behind := by
  have inside : j < xs.length := (List.getElem?_eq_some_iff.mp at_j).1
  obtain ⟨more, length⟩ : ∃ more, xs.length = j + (more + 1) := ⟨xs.length - j - 1, by omega⟩
  rw [positionsFrom_zero_eq_filter, length, List.range_add, List.filter_append,
    List.range_succ_eq_map, List.map_cons, Nat.add_zero, List.filter_cons_of_pos (by simp [at_j])]
  exact ⟨_, rfl⟩

/-! ### Slots -/

namespace OutputSlots

/-- The slots fed by `v`, none if it does not stand in the output tuple. -/
def slots (s : OutputSlots) (v : VarId) : List Nat := (s.get? v).getD []

/-- Adding a position appends it to the slots of its variable only. -/
theorem getD_get?_addSlot (index : Assoc VarId (List Nat)) (x v : VarId) (slot : Nat) :
    ((addSlot index x slot).get? v).getD [] =
      (index.get? v).getD [] ++ if x = v then [slot] else [] := by
  by_cases same : x = v
  · subst same
    simp [addSlot]
  · simp [addSlot, Assoc.get?_insert, same]

/-- Indexing succeeds on variables only, and appends to each the positions at which it stands. -/
theorem indexFrom_eq_ok {start : Nat} {index result : Assoc VarId (List Nat)}
    {fields : List Expr} (indexed : indexFrom start index fields = .ok result) :
    ∃ xs : List VarId, fields = xs.map .var ∧
      ∀ v, (result.get? v).getD [] = (index.get? v).getD [] ++ positionsFrom start xs v := by
  induction fields generalizing start index with
  | nil =>
    simp only [indexFrom, Except.pure_eq_ok_iff] at indexed
    subst indexed
    exact ⟨[], rfl, by simp⟩
  | cons field fields ih =>
    cases is_var : field.asVar? with
    | none => simp [indexFrom, is_var] at indexed
    | some x =>
      simp only [indexFrom, is_var] at indexed
      obtain ⟨xs, rfl, slots⟩ := ih indexed
      refine ⟨x :: xs, by simp [Expr.asVar?_eq_some_iff.mp is_var], fun v => ?_⟩
      rw [slots v, getD_get?_addSlot, positionsFrom_cons, List.append_assoc]

/-- The slots of an output binding are the positions in its tuple. -/
theorem ofBinding_eq_ok {b : Binding} {s : OutputSlots} (indexed : ofBinding b = .ok s) :
    ∃ xs : List VarId, b.value = .tuple (xs.map .var) ∧ s.arity = xs.length ∧
      ∀ v, s.slots v = positionsFrom 0 xs v := by
  unfold ofBinding at indexed
  split at indexed
  · next fields is_tuple =>
    obtain ⟨index, fields_indexed, whole⟩ := Except.bind_eq_ok_iff.mp indexed
    obtain rfl := Except.pure_eq_ok_iff.mp whole
    obtain ⟨xs, rfl, slots⟩ := indexFrom_eq_ok fields_indexed
    exact ⟨xs, is_tuple, by simp, fun v => by simpa [OutputSlots.slots, get?] using slots v⟩
  · simp at indexed

end OutputSlots

/-! ### Where the output is bound -/

namespace Expr

theorem reads_tuple_vars (xs : List VarId) : (Expr.tuple (xs.map .var)).reads = xs := by
  simp only [reads, readsAll_eq_flatMap, List.flatMap_map]
  exact List.flatMap_singleton' xs

theorem escapes_tuple_vars (param : VarId) (xs : List VarId) :
    (Expr.tuple (xs.map .var)).escapes param = decide (param ∈ xs) := by
  rw [escapes, escapesAny_eq_any, List.any_map, Bool.eq_iff_iff]
  simp [escapes]

end Expr

/-- If no variable is bound twice, a variable that is bound has one binding. -/
theorem Binding.filter_var_eq {bs : List Binding} (distinct : (bs.map Binding.var).Nodup)
    {b : Binding} (mem : b ∈ bs) : bs.filter (·.var = b.var) = [b] := by
  induction bs with
  | nil => cases mem
  | cons c bs ih =>
    rw [List.map_cons, List.nodup_cons] at distinct
    rcases List.mem_cons.mp mem with rfl | mem
    · have no_other : bs.filter (·.var = b.var) = [] := by
        rw [List.filter_eq_nil_iff]
        intro d mem same
        exact distinct.1 (of_decide_eq_true same ▸ List.mem_map_of_mem mem)
      rw [List.filter_cons_of_pos (by simp), no_other]
    · have differ : ¬ c.var = b.var := fun same => distinct.1 (same ▸ List.mem_map_of_mem mem)
      rw [List.filter_cons_of_neg (by simpa using differ), ih distinct.2 mem]

/-- The binding of the output: its place among the bindings, and the variables of its tuple. -/
structure OutputTuple (f : Func) (c : Convention) (i : Interface) where
  before : List Binding
  fields : List VarId
  after : List Binding
  split : f.bindings = before ++ ⟨c.output, .tuple (fields.map .var)⟩ :: after
  arity : i.outputs.arity = fields.length
  slots : ∀ v, i.outputs.slots v = positionsFrom 0 fields v

/-- The interface of a function that follows the convention describes its output tuple. -/
theorem Func.Follows.exists_outputTuple {f : Func} {c : Convention} {i : Interface}
    (follows : f.Follows c) (answered : f.interface c.param c.output = .ok i) :
    Nonempty (OutputTuple f c i) := by
  obtain ⟨b, mem, is_output⟩ := List.mem_map.mp follows.output_bound
  obtain ⟨before, after, split⟩ := List.append_of_mem mem
  have only : f.bindings.filter (·.var = c.output) = [b] :=
    is_output ▸ Binding.filter_var_eq follows.ordered.nodup mem
  simp only [Func.interface, only, List.mapM_cons, List.mapM_nil, Except.bind_eq_ok_iff,
    Except.pure_eq_ok_iff] at answered
  obtain ⟨bound, ⟨s, indexed, _, rfl, rfl⟩, answered⟩ := answered
  simp only [List.getLast?_singleton, Except.pure_eq_ok_iff] at answered
  subst answered
  obtain ⟨xs, is_tuple, arity, slots⟩ := OutputSlots.ofBinding_eq_ok indexed
  have b_eq : b = ⟨c.output, .tuple (xs.map .var)⟩ := by
    rw [← is_output, ← is_tuple]
  exact ⟨⟨before, xs, after, b_eq ▸ split, arity, slots⟩⟩

namespace OutputTuple

variable {f : Func} {c : Convention} {i : Interface}

theorem mem_slots (o : OutputTuple f c i) {v : VarId} {j : Nat} :
    j ∈ i.outputs.slots v ↔ o.fields[j]? = some v := by
  rw [o.slots, mem_positionsFrom_zero]

theorem ordered (o : OutputTuple f c i) (follows : f.Follows c) :
    Scope.Ordered f.vars.length [c.param]
      (o.before ++ ⟨c.output, .tuple (o.fields.map .var)⟩ :: o.after) :=
  o.split ▸ follows.ordered

/-- The outputs are bound before the output tuple. -/
theorem fields_bound (o : OutputTuple f c i) (follows : f.Follows c) :
    ∀ x ∈ o.fields, x ∈ o.before.map Binding.var := by
  intro x mem
  have stays := follows.confined _ (o.split ▸ List.mem_append_right _ List.mem_cons_self)
  rw [Expr.escapes_tuple_vars, decide_eq_false_iff_not] at stays
  have not_param : x ≠ c.param := fun same => stays (same ▸ mem)
  have known := (o.ordered follows).reads_defined x (by rwa [Expr.reads_tuple_vars])
  simpa [not_param] using known

/-- The output is bound nowhere else. -/
theorem var_ne_output (o : OutputTuple f c i) (follows : f.Follows c) :
    ∀ b ∈ o.before ++ o.after, b.var ≠ c.output := by
  have nodup := (o.ordered follows).nodup
  rw [List.map_append, List.map_cons, List.nodup_append, List.nodup_cons] at nodup
  obtain ⟨-, ⟨not_after, -⟩, apart⟩ := nodup
  intro b mem same
  rcases List.mem_append.mp mem with mem | mem
  · exact apart b.var (List.mem_map_of_mem mem) c.output (by simp) same
  · have again : b.var ∈ o.after.map Binding.var := List.mem_map_of_mem mem
    exact not_after (same ▸ again)

/-- The output is not bound after its tuple. -/
theorem output_notMem_after (o : OutputTuple f c i) (follows : f.Follows c) :
    c.output ∉ o.after.map Binding.var := by
  intro again
  obtain ⟨b, mem, same⟩ := List.mem_map.mp again
  exact o.var_ne_output follows b (List.mem_append_right _ mem) same

/-- The output is in the table. -/
theorem output_lt (o : OutputTuple f c i) (follows : f.Follows c) :
    c.output.index < f.vars.length :=
  (o.ordered follows).var_lt_size ⟨c.output, .tuple (o.fields.map .var)⟩ (by simp)

/-- What is bound from the output tuple on is no output itself. -/
theorem slots_eq_nil (o : OutputTuple f c i) (follows : f.Follows c) {v : VarId}
    (late : v = c.output ∨ v ∈ o.after.map Binding.var) : i.outputs.slots v = [] := by
  have nodup := (o.ordered follows).nodup
  rw [List.map_append, List.map_cons, List.nodup_append] at nodup
  rw [o.slots]
  refine positionsFrom_eq_nil fun mem => ?_
  exact nodup.2.2 v (o.fields_bound follows v mem) v (List.mem_cons.mpr late) rfl

end OutputTuple

end ParamStream
