import Mathlib.Algebra.Ring.Int.Defs
import Mathlib.Data.Finset.Lattice.Fold
import Mathlib.Order.Lattice.Nat
import ParamStream.Proofs.Storage
import ParamStream.Proofs.WellFormed

/-!
# What a streaming form holds

An input is held from its fetch to the release of the variable it was fetched into.  How many
inputs are held at a position of the code is a matter of the code alone: the variables bound to a
fetch before it, less those released before it.  `Holding.peak` is the largest such number.

The peak does not depend on which computed values are released besides the inputs.  Each binding
changes the number held by one up, by one down or not at all (`Holding.load`); the two streaming
forms of a function have the same changes in the same order, up to bindings that change nothing.

## Main definitions

* `Holding.held` — the variables that hold an input after some bindings;
* `Holding.peak` — the largest number of them, over all positions;
* `Holding.Orderly` — code that binds before it reads and releases each input exactly once.

## Main statements

* `Holding.Orderly.peak_eq` — the peak is the largest partial sum of the loads;
* `Func.peak_eq_of_stream` — the two streaming forms of a function have the same peak.
-/

namespace ParamStream

namespace Holding

/-- The variables bound to a fetch, in order. -/
def fetched (table : SymbolTable) (bs : List Binding) : List VarId :=
  (bs.filter fun b => b.value.service? table = some .fetch).map Binding.var

/-- The variables released, in order. -/
def released (table : SymbolTable) (bs : List Binding) : List VarId :=
  bs.filterMap fun b => b.value.released? table

/-- The variables that hold an input after the bindings: fetched, and not released yet. -/
def held (table : SymbolTable) (bs : List Binding) : List VarId :=
  (fetched table bs).filter (· ∉ released table bs)

/-- The largest number of variables that hold an input, over all positions. -/
def peak (table : SymbolTable) (bs : List Binding) : Nat :=
  (Finset.range (bs.length + 1)).sup fun k => (held table (bs.take k)).length

variable {table : SymbolTable} {bs before after code : List Binding} {b : Binding} {t : VarId}

/-! ### One more binding -/

@[simp] theorem fetched_append (bs cs : List Binding) :
    fetched table (bs ++ cs) = fetched table bs ++ fetched table cs := by
  simp [fetched]

@[simp] theorem released_append (bs cs : List Binding) :
    released table (bs ++ cs) = released table bs ++ released table cs :=
  List.filterMap_append

theorem mem_fetched :
    t ∈ fetched table bs ↔ ∃ b ∈ bs, b.var = t ∧ b.value.service? table = some .fetch := by
  simp only [fetched, List.mem_map, List.mem_filter, decide_eq_true_eq]
  constructor
  · rintro ⟨b, ⟨mem, is_fetch⟩, same⟩
    exact ⟨b, mem, same, is_fetch⟩
  · rintro ⟨b, mem, same, is_fetch⟩
    exact ⟨b, ⟨mem, is_fetch⟩, same⟩

theorem mem_held : t ∈ held table bs ↔ t ∈ fetched table bs ∧ t ∉ released table bs := by
  simp [held]

theorem held_of_fetch (is_fetch : b.value.service? table = some .fetch)
    (unreleased : b.var ∉ released table bs) :
    held table (bs ++ [b]) = held table bs ++ [b.var] := by
  have no_release : released table [b] = [] := by
    simp [released, Expr.released?_eq_none, is_fetch]
  have one_fetch : fetched table [b] = [b.var] := by simp [fetched, is_fetch]
  simp [held, one_fetch, no_release, unreleased]

/-- A release drops its variable, if that holds an input. -/
theorem held_of_release (nodup : (held table bs).Nodup)
    (is_release : b.value.service? table = some .release)
    (releases : b.value.released? table = some t) :
    held table (bs ++ [b]) = (held table bs).erase t := by
  have no_fetch : fetched table [b] = [] := by simp [fetched, is_release]
  have one_release : released table [b] = [t] := by simp [released, releases]
  rw [nodup.erase_eq_filter, held, held, List.filter_filter, fetched_append, released_append,
    no_fetch, one_release, List.append_nil]
  refine List.filter_congr fun u _ => ?_
  by_cases same : u = t <;> simp [same]

theorem held_of_other (no_fetch : b.value.service? table ≠ some .fetch)
    (no_release : b.value.released? table = none) :
    held table (bs ++ [b]) = held table bs := by
  simp [held, fetched, released, no_fetch, no_release]

/-- The peak up to a position is reached before it or there. -/
theorem peak_append_singleton (bs : List Binding) (b : Binding) :
    peak table (bs ++ [b]) = max (peak table bs) (held table (bs ++ [b])).length := by
  unfold peak
  rw [List.length_append, List.length_singleton, Finset.range_add_one, Finset.sup_insert,
    max_comm, List.take_of_length_le (by simp)]
  congr 1
  refine Finset.sup_congr rfl fun k inside => ?_
  rw [List.take_append_of_le_length (Nat.le_of_lt_succ (Finset.mem_range.mp inside))]

theorem length_held_le_peak (bs : List Binding) : (held table bs).length ≤ peak table bs := by
  have at_end := Finset.le_sup (f := fun k => (held table (bs.take k)).length)
    (Finset.self_mem_range_succ bs.length)
  rwa [List.take_length] at at_end

/-- Where no input is fetched, no new peak is reached. -/
theorem peak_append_singleton_of_le
    (shrinks : (held table (bs ++ [b])).length ≤ (held table bs).length) :
    peak table (bs ++ [b]) = peak table bs := by
  rw [peak_append_singleton, max_eq_left]
  exact shrinks.trans (length_held_le_peak bs)

theorem peak_le_append (bs cs : List Binding) : peak table bs ≤ peak table (bs ++ cs) := by
  refine Finset.sup_le fun k inside => ?_
  have within : k ≤ bs.length := Nat.le_of_lt_succ (Finset.mem_range.mp inside)
  have same : (bs ++ cs).take k = bs.take k := List.take_append_of_le_length within
  rw [← same]
  refine Finset.le_sup (f := fun k => (held table ((bs ++ cs).take k)).length) ?_
  rw [Finset.mem_range, List.length_append]
  omega

/-! ### Orderly code -/

/-- Code that binds before it reads, and releases every input that it fetches exactly once. -/
structure Orderly (table : SymbolTable) (size : Nat) (code : List Binding) : Prop where
  ordered : Scope.Ordered size [] code
  once : (released table code).Nodup
  all : ∀ t ∈ fetched table code, t ∈ released table code

/-- What an expression releases it reads. -/
theorem mem_reads_of_released? {e : Expr} (releases : e.released? table = some t) :
    e.service? table = some .release ∧ t ∈ e.reads := by
  unfold Expr.released? at releases
  split at releases
  · next is_release =>
    refine ⟨is_release, ?_⟩
    split at releases
    · next callee u ty =>
      obtain rfl := Option.some.inj releases
      simp [Expr.reads, Expr.readsAll]
    · simp at releases
  · simp at releases

namespace Orderly

variable {size : Nat}

/-- What is bound before a position is not bound after it. -/
theorem not_bound_again (orderly : Orderly table size code) (split : code = before ++ after)
    (mem : t ∈ before.map Binding.var) : t ∉ after.map Binding.var := by
  have nodup := orderly.ordered.nodup
  rw [split, List.map_append] at nodup
  exact fun again => (List.nodup_append.mp nodup).2.2 t mem t again rfl

theorem nodup_held (orderly : Orderly table size code) (split : code = before ++ after) :
    (held table before).Nodup := by
  have nodup := orderly.ordered.nodup
  rw [split, List.map_append] at nodup
  exact ((List.nodup_append.mp nodup).1.sublist (List.filter_sublist.map _)).filter _

/-- What is released at a position is bound before it. -/
theorem bound_of_release (orderly : Orderly table size code) (split : code = before ++ b :: after)
    (releases : b.value.released? table = some t) : t ∈ before.map Binding.var :=
  ((split ▸ orderly.ordered).reads_defined t (mem_reads_of_released? releases).2).resolve_left
    List.not_mem_nil

/-- What has been released has been bound before. -/
theorem bound_of_released (orderly : Orderly table size code) (split : code = before ++ after)
    (mem : t ∈ released table before) : t ∈ before.map Binding.var := by
  obtain ⟨c, c_mem, releases⟩ := List.mem_filterMap.mp mem
  obtain ⟨front, back, rfl⟩ := List.append_of_mem c_mem
  have bound := orderly.bound_of_release (split.trans (List.append_assoc _ _ _)) releases
  rw [List.map_append]
  exact List.mem_append_left _ bound

/-- A variable is not bound, and so not released, before its own binding. -/
theorem var_notMem_released (orderly : Orderly table size code)
    (split : code = before ++ b :: after) : b.var ∉ released table before := by
  intro mem
  exact orderly.not_bound_again split (orderly.bound_of_released split mem) List.mem_cons_self

/-- A variable holds no input before its own binding. -/
theorem var_notMem_held (orderly : Orderly table size code)
    (split : code = before ++ b :: after) : b.var ∉ held table before := by
  intro mem
  obtain ⟨c, c_mem, same, -⟩ := mem_fetched.mp (mem_held.mp mem).1
  exact orderly.not_bound_again split (same ▸ List.mem_map_of_mem c_mem) List.mem_cons_self

/-- An input that is released is held up to that point. -/
theorem mem_held_of_release (orderly : Orderly table size code)
    (split : code = before ++ b :: after) (releases : b.value.released? table = some t)
    (is_fetched : t ∈ fetched table code) : t ∈ held table before := by
  refine mem_held.mpr ⟨?_, fun again => ?_⟩
  · have bound := orderly.bound_of_release split releases
    rw [split, fetched_append, List.mem_append] at is_fetched
    refine is_fetched.resolve_right fun later => ?_
    obtain ⟨c, c_mem, rfl, -⟩ := mem_fetched.mp later
    exact orderly.not_bound_again split bound (List.mem_map_of_mem c_mem)
  · have once := orderly.once
    rw [split, released_append, List.nodup_append] at once
    refine once.2.2 t again t ?_ rfl
    exact List.mem_filterMap.mpr ⟨b, List.mem_cons_self, releases⟩

/-- Nothing is held at the end. -/
theorem held_eq_nil (orderly : Orderly table size code) : held table code = [] := by
  rw [held, List.filter_eq_nil_iff]
  intro t is_fetched
  simpa using orderly.all t is_fetched

end Orderly

/-! ### Loads -/

/-- By how much a binding of the value changes the number of inputs held, where `inputs` are the
variables that hold inputs at all. -/
def load (table : SymbolTable) (inputs : List VarId) (e : Expr) : Int :=
  if e.service? table = some .fetch then 1
  else
    match e.released? table with
    | some t => if t ∈ inputs then -1 else 0
    | none => 0

/-- The changes that code makes to the number of inputs held, in order. -/
def loads (table : SymbolTable) (inputs : List VarId) (bs : List Binding) : List Int :=
  bs.map fun b => load table inputs b.value

/-- The largest partial sum. -/
def topSum : List Int → Int
  | [] => 0
  | d :: ds => max 0 (d + topSum ds)

theorem topSum_nonneg (ds : List Int) : 0 ≤ topSum ds := by
  cases ds with
  | nil => exact Int.le_refl 0
  | cons d ds => exact Int.le_max_left _ _

theorem sum_take_le_topSum (ds : List Int) (k : Nat) : (ds.take k).sum ≤ topSum ds := by
  induction ds generalizing k with
  | nil => simp [topSum]
  | cons d ds ih =>
    cases k with
    | zero => exact topSum_nonneg _
    | succ k =>
      rw [List.take_succ_cons, List.sum_cons, topSum]
      exact Int.le_trans (Int.add_le_add_left (ih k) d) (Int.le_max_right _ _)

theorem exists_sum_take_eq_topSum (ds : List Int) :
    ∃ k ≤ ds.length, (ds.take k).sum = topSum ds := by
  induction ds with
  | nil => exact ⟨0, Nat.le_refl _, rfl⟩
  | cons d ds ih =>
    obtain ⟨k, inside, reaches⟩ := ih
    rcases Int.le_total 0 (d + topSum ds) with up | down
    · refine ⟨k + 1, Nat.succ_le_succ inside, ?_⟩
      rw [List.take_succ_cons, List.sum_cons, reaches, topSum, Int.max_eq_right up]
    · exact ⟨0, Nat.zero_le _, by rw [topSum, Int.max_eq_left down]; rfl⟩

/-- Where nothing changes, no new top is reached. -/
theorem topSum_filter (ds : List Int) : topSum (ds.filter (· ≠ 0)) = topSum ds := by
  induction ds with
  | nil => rfl
  | cons d ds ih =>
    by_cases still : d = 0
    · rw [List.filter_cons_of_neg (by simp [still]), ih, topSum, still, Int.zero_add,
        Int.max_eq_right (topSum_nonneg ds)]
    · rw [List.filter_cons_of_pos (by simpa using still), topSum, topSum, ih]

/-- The number of inputs held is the sum of the changes so far. -/
theorem Orderly.length_held {size : Nat} (orderly : Orderly table size code)
    (split : code = before ++ after) :
    ((held table before).length : Int) = (loads table (fetched table code) before).sum := by
  induction before using List.reverseRecOn generalizing after with
  | nil => rfl
  | append_singleton before b ih =>
    rw [List.append_assoc, List.singleton_append] at split
    have before_sum := ih split
    rw [loads, List.map_append, List.sum_append, ← loads, ← before_sum, List.map_singleton,
      List.sum_singleton, load]
    split_ifs with is_fetch
    · rw [held_of_fetch is_fetch (orderly.var_notMem_released split)]
      simp
    · split
      · next t releases =>
        rw [held_of_release (orderly.nodup_held split) (mem_reads_of_released? releases).1 releases]
        split_ifs with is_input
        · have mem := orderly.mem_held_of_release split releases is_input
          have some_held := List.length_pos_of_mem mem
          rw [List.length_erase_of_mem mem]
          omega
        · have not_held : t ∉ held table before := by
            intro mem
            rw [split, fetched_append] at is_input
            exact is_input (List.mem_append_left _ (mem_held.mp mem).1)
          rw [List.erase_of_not_mem not_held]
          simp
      · next no_release =>
        rw [held_of_other is_fetch no_release]
        simp

/-- **The peak is the largest partial sum of the loads.** -/
theorem Orderly.peak_eq {size : Nat} (orderly : Orderly table size code) :
    (peak table code : Int) = topSum (loads table (fetched table code) code) := by
  have at_position : ∀ k, ((held table (code.take k)).length : Int) =
      ((loads table (fetched table code) code).take k).sum := by
    intro k
    rw [orderly.length_held (List.take_append_drop k code).symm, loads, loads, List.map_take]
  apply le_antisymm
  · obtain ⟨k, -, reaches⟩ := Finset.exists_mem_eq_sup (Finset.range (code.length + 1)) (by simp)
      fun k => (held table (code.take k)).length
    rw [peak, reaches, at_position]
    exact sum_take_le_topSum _ k
  · obtain ⟨k, inside, reaches⟩ := exists_sum_take_eq_topSum (loads table (fetched table code) code)
    rw [← reaches, ← at_position, Int.ofNat_le]
    rw [loads, List.length_map] at inside
    exact Finset.le_sup (f := fun k => (held table (code.take k)).length)
      (Finset.mem_range.mpr (Nat.lt_succ_of_le inside))

end Holding

/-! ### Streaming forms are orderly -/

namespace Layout

open Holding

variable {f : Func} {calls : StoreCalls} {plan : Plan} {tracked : List VarId}
  {table : SymbolTable} (l : Layout f calls plan) {g : Segment} {t : VarId}

theorem mem_fetched_iff (resolved : calls.Resolved table) (independent : f.Independent table)
    (planned : f.Planned plan tracked) :
    t ∈ fetched table l.code ↔
      (∃ h ∈ l.segments, t ∈ h.fetched) ∨ ∃ v ∈ plan.interface.projections, l.rename v = t :=
  mem_fetched.trans (l.fetch_bound_iff resolved independent planned)

theorem mem_released_iff (resolved : calls.Resolved table) (independent : f.Independent table)
    (planned : f.Planned plan tracked) :
    t ∈ released table l.code ↔
      (∃ v ∈ tracked, l.rename v = t) ∨ ∃ h ∈ l.segments, t ∈ h.fetched := by
  rw [released, l.filterMap_released? resolved independent, ← l.released_perm.mem_iff,
    List.mem_append, l.mem_flatMap_dying_iff planned, List.mem_flatMap]

/-- If all inputs are tracked, all that is fetched is released, and nothing is released twice. -/
theorem orderly (resolved : calls.Resolved table) (independent : f.Independent table)
    (planned : f.Planned plan tracked) (inputs : ∀ v ∈ plan.interface.projections, v ∈ tracked)
    {size : Nat} (ordered : Scope.Ordered size [] l.code) : Orderly table size l.code := by
  refine ⟨ordered, ?_, fun t mem => ?_⟩
  · rw [released, l.filterMap_released? resolved independent]
    exact l.nodup_flatMap_released planned
  · rw [l.mem_released_iff resolved independent planned]
    rcases (l.mem_fetched_iff resolved independent planned).mp mem with
      fetch | ⟨v, projection, same⟩
    · exact .inr fetch
    · exact .inl ⟨v, inputs v projection, same⟩

/-- If nothing but inputs is tracked, nothing else is released. -/
theorem fetched_of_released (resolved : calls.Resolved table) (independent : f.Independent table)
    (planned : f.Planned plan tracked) (only : ∀ v ∈ tracked, v ∈ plan.interface.projections)
    (mem : t ∈ released table l.code) : t ∈ fetched table l.code := by
  rw [l.mem_fetched_iff resolved independent planned]
  rcases (l.mem_released_iff resolved independent planned).mp mem with
    ⟨v, v_tracked, same⟩ | fetch
  · exact .inr ⟨v, only v v_tracked, same⟩
  · exact .inl fetch

/-! ### The loads of a streaming form -/

/-- The new name of a variable holds an input exactly if the variable is one. -/
theorem rename_mem_fetched_iff (resolved : calls.Resolved table) (independent : f.Independent table)
    (planned : f.Planned plan tracked) {b : Binding} (mem : b ∈ f.bindings) :
    l.rename b.var ∈ fetched table l.code ↔ b.var ∈ plan.interface.projections := by
  rw [l.mem_fetched_iff resolved independent planned]
  constructor
  · rintro (⟨h, h_mem, fetch⟩ | ⟨v, projection, same⟩)
    · obtain ⟨k, k_mem, rfl⟩ := l.exists_segment mem
      rw [l.rename_var k k_mem] at fetch
      exact absurd fetch (l.target_notMem_fetched k_mem h_mem)
    · rw [Func.projections_interface planned.interface] at projection ⊢
      obtain ⟨-, c, c_mem, rfl, -⟩ := Func.mem_projections.mp projection
      rwa [← l.rename_inj c_mem mem same]
  · exact fun projection => .inr ⟨b.var, projection, rfl⟩

end Layout

namespace Holding

variable {table : SymbolTable} {calls : StoreCalls} {inputs : List VarId}

theorem load_fetch (resolved : calls.Resolved table) (i : Nat) :
    load table inputs (calls.fetch i) = 1 := by
  rw [load, if_pos (resolved.service?_fetch i)]

theorem load_release (resolved : calls.Resolved table) (t : VarId) :
    load table inputs (calls.release t) = if t ∈ inputs then -1 else 0 := by
  simp [load, resolved.service?_release, resolved.released?_release]

theorem load_of_other {e : Expr} (no_fetch : e.service? table ≠ some .fetch)
    (no_release : e.released? table = none) : load table inputs e = 0 := by
  simp [load, no_fetch, no_release]

theorem loads_numbered (start : Nat) (es : List Expr) :
    loads table inputs (numbered start es) = es.map (load table inputs) := by
  conv_rhs => rw [← map_value_numbered start es, List.map_map]
  rfl

/-- Of a list of releases, those of inputs change something. -/
theorem filter_map_release {α : Type} (p : α → Prop) [DecidablePred p] (xs : List α) :
    (xs.map fun x => if p x then (-1 : Int) else 0).filter (· ≠ 0) =
      List.replicate (xs.countP p) (-1) := by
  induction xs with
  | nil => rfl
  | cons x xs ih =>
    rw [List.map_cons, List.countP_cons]
    by_cases holds : p x
    · rw [if_pos holds, List.filter_cons_of_pos (by simp), ih]
      simp [holds, List.replicate_succ]
    · rw [if_neg holds, List.filter_cons_of_neg (by simp), ih]
      simp [holds]

end Holding

/-- The changes that the code for a binding makes to the number of inputs held: one up for every
fetch, then one down for every release of an input. -/
def Plan.traffic (plan : Plan) (b : Binding) : List Int :=
  if b.var = plan.convention.output then []
  else
    let fetches := (Lowering.hoisted plan.convention.param b.value).length
    let direct := if (b.value.inputIndex? plan.convention.param).isSome then 1 else 0
    let dying := (plan.lastUses.dyingAt b.var).countP (· ∈ plan.interface.projections)
    List.replicate (fetches + direct) 1 ++ List.replicate (dying + fetches) (-1)

namespace Layout

open Holding

variable {f : Func} {calls : StoreCalls} {plan : Plan} {tracked : List VarId}
  {table : SymbolTable} (l : Layout f calls plan) {g : Segment}

/-- The value of a segment is a fetch exactly if its binding is an input. -/
theorem load_value (resolved : calls.Resolved table) (independent : f.Independent table)
    (mem : g ∈ l.segments) (ordinary : g.source.var ≠ plan.convention.output)
    (inputs : List VarId) :
    load table inputs g.value =
      if (g.source.value.inputIndex? plan.convention.param).isSome then 1 else 0 := by
  rw [(l.isValue g mem ordinary).value, Expr.streamed]
  cases is_input : g.source.value.inputIndex? plan.convention.param with
  | some i => exact load_fetch resolved i
  | none =>
    have free := (independent.1 g.source (l.source_mem mem)).service?_eq_none
    have no_service : (g.source.value.redirect plan.convention.param l.rename g.start).service?
        table = none := by rw [Expr.service?_redirect, free]
    exact load_of_other (by simp [no_service]) (Expr.released?_eq_none (by simp [no_service]))

/-- The dying variables of a segment change the number of inputs held where they are inputs. -/
theorem filter_load_dying (resolved : calls.Resolved table) (independent : f.Independent table)
    (planned : f.Planned plan tracked) (mem : g ∈ l.segments)
    (ordinary : g.source.var ≠ plan.convention.output) :
    (g.dying.map fun t => load table (fetched table l.code) (calls.release t)).filter (· ≠ 0) =
      List.replicate ((plan.lastUses.dyingAt g.source.var).countP
        (· ∈ plan.interface.projections)) (-1) := by
  rw [(l.isValue g mem ordinary).dying, List.map_map, ← filter_map_release]
  congr 1
  refine List.map_congr_left fun v dies => ?_
  obtain ⟨b, b_mem, rfl⟩ :=
    planned.exists_binding (tracked_of_dyingAt planned (l.source_mem mem) dies)
  rw [Function.comp_apply, load_release resolved]
  simp only [l.rename_mem_fetched_iff resolved independent planned b_mem]

/-- The changes made by the code of a segment. -/
theorem filter_loads_segment (resolved : calls.Resolved table) (independent : f.Independent table)
    (planned : f.Planned plan tracked) (mem : g ∈ l.segments) :
    (loads table (fetched table l.code) (g.code calls)).filter (· ≠ 0) =
      plan.traffic g.source := by
  rw [Segment.code, loads_numbered, Segment.exprs, Plan.traffic]
  by_cases is_output : g.source.var = plan.convention.output
  · have shape := l.isOutput g mem is_output
    have still : load table (fetched table l.code) g.value = 0 := by
      rw [shape.value]
      exact load_of_other (by simp [Expr.service?])
        (Expr.released?_eq_none (by simp [Expr.service?]))
    simp [is_output, shape.fetches, shape.slots, Segment.released, shape.dying, Segment.fetched,
      varsFrom, still]
  · have ups : (g.fetches.map calls.fetch).map (load table (fetched table l.code)) =
        List.replicate g.fetches.length 1 := by
      simp [Function.comp_def, load_fetch resolved]
    have none : (g.slots.map (calls.commit g.target)).map (load table (fetched table l.code)) =
        List.replicate g.slots.length 0 := by
      simp [Function.comp_def, load_of_other, resolved.service?_commit, resolved.released?_commit]
    have downs : ((g.dying.map calls.release).map (load table (fetched table l.code))).filter
        (· ≠ 0) = List.replicate ((plan.lastUses.dyingAt g.source.var).countP
          (· ∈ plan.interface.projections)) (-1) := by
      rw [List.map_map]
      exact l.filter_load_dying resolved independent planned mem is_output
    have downs_fetched : (g.fetched.map calls.release).map (load table (fetched table l.code)) =
        List.replicate g.fetches.length (-1) := by
      rw [List.map_map, List.eq_replicate_iff]
      refine ⟨by simp [Segment.fetched], fun d d_mem => ?_⟩
      obtain ⟨t, fetch, rfl⟩ := List.mem_map.mp d_mem
      have is_input : t ∈ fetched table l.code :=
        (l.mem_fetched_iff resolved independent planned).mpr (.inl ⟨g, mem, fetch⟩)
      rw [Function.comp_apply, load_release resolved, if_pos is_input]
    rw [if_neg is_output, Segment.released, List.map_append, List.map_cons, List.map_append,
      List.map_append, List.map_append, List.filter_append, List.filter_cons, List.filter_append,
      List.filter_append, ups, none, downs, downs_fetched,
      l.load_value resolved independent mem is_output, ← (l.isValue g mem is_output).fetches]
    by_cases direct : (g.source.value.inputIndex? plan.convention.param).isSome
    · simp [direct, List.replicate_succ']
    · simp [direct]

/-- The changes made by the code of a streaming form, as far as they are changes. -/
theorem filter_loads (resolved : calls.Resolved table) (independent : f.Independent table)
    (planned : f.Planned plan tracked) :
    (loads table (fetched table l.code) l.code).filter (· ≠ 0) =
      f.bindings.flatMap plan.traffic := by
  have by_segment : loads table (fetched table l.code) l.code =
      l.segments.flatMap fun g => loads table (fetched table l.code) (g.code calls) :=
    List.map_flatMap
  rw [by_segment, List.filter_flatMap, ← l.sources, List.flatMap_map]
  exact List.flatMap_congr fun g mem => l.filter_loads_segment resolved independent planned mem

/-- The peak of a streaming form, from the traffic of its bindings. -/
theorem peak_eq_topSum (resolved : calls.Resolved table) (independent : f.Independent table)
    (planned : f.Planned plan tracked) {size : Nat} (orderly : Orderly table size l.code) :
    (peak table l.code : Int) = topSum (f.bindings.flatMap plan.traffic) := by
  rw [orderly.peak_eq, ← topSum_filter, l.filter_loads resolved independent planned]

end Layout

/-! ### The two streaming forms of a function -/

namespace Func

open Holding

variable {f : Func}

theorem convention_of_plan {intermediates : Bool} {plan : Plan}
    (has_plan : f.plan intermediates = .ok plan) : f.convention = .ok plan.convention := by
  simp only [Func.plan, Except.bind_eq_ok_iff, Except.pure_eq_ok_iff] at has_plan
  obtain ⟨convention, answered, -, -, rfl⟩ := has_plan
  exact answered

/-- All inputs are tracked. -/
theorem tracked_of_projection {c : Convention} {i : Interface} {intermediates : Bool} {v : VarId}
    (projection : v ∈ i.projections) : v ∈ f.tracked c i intermediates :=
  mem_tracked.mpr (.inl projection)

/-- A binding is the last use of the same inputs whatever else is tracked. -/
theorem countP_dyingAt_eq {plan plan' : Plan} {tracked tracked' : List VarId}
    (planned : f.Planned plan tracked) (planned' : f.Planned plan' tracked')
    (same : plan'.convention = plan.convention) (inputs : List VarId)
    (all : ∀ v ∈ inputs, v ∈ tracked) (all' : ∀ v ∈ inputs, v ∈ tracked') {b : Binding}
    (mem : b ∈ f.bindings) (ordinary : b.var ≠ plan.convention.output) :
    (plan.lastUses.dyingAt b.var).countP (· ∈ inputs) =
      (plan'.lastUses.dyingAt b.var).countP (· ∈ inputs) := by
  obtain ⟨before, after, split⟩ := List.append_of_mem mem
  have nodup :=
    (List.nodup_flatMap.mp (planned.follows.nodup_dying planned.param_untracked)).1 b mem
  have nodup' :=
    (List.nodup_flatMap.mp (planned'.follows.nodup_dying planned'.param_untracked)).1 b mem
  rw [List.countP_eq_length_filter, List.countP_eq_length_filter, planned.lastUses,
    planned'.lastUses]
  refine List.Perm.length_eq ?_
  rw [List.perm_ext_iff_of_nodup (nodup.filter _) (nodup'.filter _)]
  intro v
  have dies := planned.follows.mem_dyingAt_lastUses planned.param_untracked split ordinary (x := v)
  have dies' := planned'.follows.mem_dyingAt_lastUses planned'.param_untracked split
    (same ▸ ordinary) (x := v)
  rw [List.mem_filter, List.mem_filter, dies, dies', same, decide_eq_true_iff]
  constructor
  · rintro ⟨⟨touched, -, unread⟩, input⟩
    exact ⟨⟨touched, all' v input, unread⟩, input⟩
  · rintro ⟨⟨touched, -, unread⟩, input⟩
    exact ⟨⟨touched, all v input, unread⟩, input⟩

/-- The traffic of inputs does not depend on what else is released. -/
theorem traffic_eq {intermediates intermediates' : Bool} {plan plan' : Plan}
    (has_plan : f.plan intermediates = .ok plan) (has_plan' : f.plan intermediates' = .ok plan') :
    ∀ b ∈ f.bindings, plan.traffic b = plan'.traffic b := by
  intro b mem
  have planned := Planned.of_plan has_plan
  have planned' := Planned.of_plan has_plan'
  have convention : plan'.convention = plan.convention :=
    Except.ok.inj ((convention_of_plan has_plan').symm.trans (convention_of_plan has_plan))
  have interface : plan'.interface = plan.interface := by
    have has_interface := planned'.interface
    rw [convention] at has_interface
    exact Except.ok.inj (has_interface.symm.trans planned.interface)
  unfold Plan.traffic
  rw [convention, interface]
  by_cases is_output : b.var = plan.convention.output
  · rw [if_pos is_output, if_pos is_output]
  · have dying := countP_dyingAt_eq planned planned' convention plan.interface.projections
      (fun v => tracked_of_projection)
      (fun v projection => tracked_of_projection (interface ▸ projection)) mem is_output
    rw [if_neg is_output, if_neg is_output, dying]

/-- What is known of a streaming form: a plan, the symbols of the services and a layout, the code
of which is orderly. -/
theorem exists_orderly {g : Func} {table names : SymbolTable} {intermediates : Bool}
    (streamed : f.stream table intermediates = (.ok g, names))
    (independent : f.Independent names) :
    ∃ plan, ∃ l : Layout f (StoreCalls.intern table).1 plan,
      f.plan intermediates = .ok plan ∧ (StoreCalls.intern table).1.Resolved names ∧
      l.Describes g ∧ Orderly names g.vars.length l.code := by
  obtain ⟨plan, -, l, has_plan, resolved, -, describes, -⟩ := Layout.exists_of_stream streamed
  have answered : (f.stream table intermediates).1 = .ok g := by rw [streamed]
  obtain ⟨plan', has_plan', lowered⟩ := stream_eq_ok_iff.mp answered
  have ordered := ordered_of_lower lowered
  rw [describes.code] at ordered
  exact ⟨plan, l, has_plan, resolved, describes, l.orderly resolved independent
    (Planned.of_plan has_plan) (fun v => tracked_of_projection) ordered⟩

/-- **The two streaming forms hold the same number of inputs at their peaks.** -/
theorem peak_eq_of_stream {g g' : Func} {table names : SymbolTable}
    {intermediates intermediates' : Bool}
    (streamed : f.stream table intermediates = (.ok g, names))
    (streamed' : f.stream table intermediates' = (.ok g', names))
    (independent : f.Independent names) :
    peak names g.bindings = peak names g'.bindings := by
  obtain ⟨plan, l, has_plan, resolved, describes, orderly⟩ := exists_orderly streamed independent
  obtain ⟨plan', l', has_plan', -, describes', orderly'⟩ := exists_orderly streamed' independent
  apply Int.ofNat.inj
  calc (peak names g.bindings : Int)
      = topSum (f.bindings.flatMap plan.traffic) := by
        rw [describes.code]
        exact l.peak_eq_topSum resolved independent (Planned.of_plan has_plan) orderly
    _ = topSum (f.bindings.flatMap plan'.traffic) := by
        rw [List.flatMap_congr (traffic_eq has_plan has_plan')]
    _ = peak names g'.bindings := by
        rw [describes'.code]
        exact (l'.peak_eq_topSum resolved independent (Planned.of_plan has_plan') orderly').symm

end Func

end ParamStream
