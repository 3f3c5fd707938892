import Mathlib.Data.List.Nodup
import Mathlib.Data.List.Perm.Basic
import ParamStream.Proofs.Reads

/-!
# Where a streaming form releases

A streaming form releases the values of the tracked variables and the inputs that it fetched for a
single binding, each of them once.  It does so as early as it can: after a release the variable is
not read again, and only commits and other releases stand between the release and the last use.

The three facts have one source, the layout.  All releases of a segment stand at its end, behind
the value, and a segment releases what its binding is the last to touch.

## Main definitions

* `Expr.released?`, `Func.releasedVars` — the variables that code releases;
* `Binding.IsUpkeep` — commits and releases;
* `Func.ReleasedAtLastUse` — only upkeep stands between a last use and a release.

## Main statements

* `Func.release_placement`.
-/

namespace ParamStream

/-- The variable that an expression releases, under the names of `table`. -/
def Expr.released? (table : SymbolTable) (e : Expr) : Option VarId :=
  if e.service? table = some .release then
    match e with
    | .call _ [.var t] _ => some t
    | _ => none
  else none

theorem Expr.released?_eq_none {table : SymbolTable} {e : Expr}
    (other : e.service? table ≠ some .release) : e.released? table = none := if_neg other

/-- The variables that a function releases, in order. -/
def Func.releasedVars (table : SymbolTable) (f : Func) : List VarId :=
  f.bindings.filterMap fun b => b.value.released? table

/-- The binding is a commit or a release. -/
def Binding.IsUpkeep (table : SymbolTable) (b : Binding) : Prop :=
  b.value.service? table = some .commit ∨ b.value.service? table = some .release

/-- The bindings end with a use of `t` and upkeep behind it.  If nothing but upkeep reads `t`, the
binding of `t` itself counts as its use. -/
def Func.ReleasedAtLastUse (table : SymbolTable) (before : List Binding) (t : VarId) : Prop :=
  ∃ front d between, before = front ++ d :: between ∧ ¬ d.IsUpkeep table ∧
    (∀ c ∈ between, c.IsUpkeep table) ∧
    (t ∈ d.value.reads ∨
      d.var = t ∧ ∀ c ∈ before, ¬ c.IsUpkeep table → t ∉ c.value.reads)

namespace StoreCalls.Resolved

variable {calls : StoreCalls} {table : SymbolTable} (resolved : calls.Resolved table)
include resolved

theorem released?_fetch (i : Nat) : (calls.fetch i).released? table = none := by
  refine Expr.released?_eq_none ?_
  simp [resolved.service?_fetch]

theorem released?_commit (v : VarId) (slot : Nat) :
    (calls.commit v slot).released? table = none := by
  refine Expr.released?_eq_none ?_
  simp [resolved.service?_commit]

theorem released?_release (v : VarId) : (calls.release v).released? table = some v :=
  if_pos (resolved.service?_release v)

end StoreCalls.Resolved

theorem filterMap_numbered {α : Type} (p : Expr → Option α) (start : Nat) (es : List Expr) :
    (numbered start es).filterMap (fun b => p b.value) = es.filterMap p := by
  conv_rhs => rw [← map_value_numbered start es]
  rw [List.filterMap_map]
  rfl

namespace Segment

variable {calls : StoreCalls} {table : SymbolTable} {g : Segment}

/-- What stands behind the value is upkeep. -/
theorem isUpkeep_of_mem_tail (resolved : calls.Resolved table) {b : Binding}
    (mem : b ∈ g.tail calls) : b.IsUpkeep table := by
  rcases (mem_tail mem).1 with ⟨slot, -, is_commit⟩ | ⟨t, -, is_release⟩
  · exact .inl (is_commit ▸ resolved.service?_commit _ _)
  · exact .inr (is_release ▸ resolved.service?_release _)

/-- A release in the code of a segment: behind the value there is only upkeep, and after the
release only those that come after it in the list. -/
theorem code_split_of_release (resolved : calls.Resolved table)
    (no_release : g.value.released? table = none) {front back : List Binding} {b : Binding}
    {t : VarId} (split : g.code calls = front ++ b :: back)
    (releases : b.value.released? table = some t) :
    ∃ between ts us, front = g.head calls ++ between ∧ (∀ c ∈ between, c.IsUpkeep table) ∧
      g.released = ts ++ t :: us ∧ ∀ c ∈ back, ∃ u ∈ us, c.value = calls.release u := by
  have not_head : b ∉ g.head calls := by
    intro mem
    rcases mem_head mem with ⟨i, -, is_fetch, -⟩ | rfl
    · rw [is_fetch, resolved.released?_fetch] at releases
      simp at releases
    · rw [no_release] at releases
      simp at releases
  have not_commit :
      b ∉ numbered (g.target.index + 1) (g.slots.map (calls.commit g.target)) := by
    intro mem
    obtain ⟨slot, -, is_commit⟩ := List.mem_map.mp (value_mem_of_mem_numbered mem)
    rw [← is_commit, resolved.released?_commit] at releases
    simp at releases
  rw [code_eq] at split
  obtain ⟨between, rfl, tail_split⟩ := List.exists_of_append_eq_append_cons split not_head
  have upkeep : ∀ c ∈ between, c.IsUpkeep table :=
    fun c mem => isUpkeep_of_mem_tail resolved (tail_split ▸ List.mem_append_left _ mem)
  obtain ⟨more, -, release_split⟩ := List.exists_of_append_eq_append_cons tail_split not_commit
  -- Without their variables, the releases are the list of what is released.
  have values := congrArg (List.map Binding.value) release_split
  rw [map_value_numbered, List.map_append, List.map_cons] at values
  obtain ⟨ts, rest, released, -, rest_values⟩ := List.map_eq_append_iff.mp values
  obtain ⟨u, us, rfl, is_release, back_values⟩ := List.map_eq_cons_iff.mp rest_values
  rw [← is_release, resolved.released?_release, Option.some.injEq] at releases
  subst releases
  refine ⟨between, ts, us, rfl, upkeep, released, fun c mem => ?_⟩
  have value_mem : c.value ∈ us.map calls.release := back_values ▸ List.mem_map_of_mem mem
  obtain ⟨u, u_mem, same⟩ := List.mem_map.mp value_mem
  exact ⟨u, u_mem, same.symm⟩

end Segment

namespace Layout

variable {f : Func} {calls : StoreCalls} {plan : Plan} {tracked : List VarId}
  {table : SymbolTable} (l : Layout f calls plan) {done later : List Segment} {g h : Segment}
  {t : VarId}

/-! ### What is released -/

/-- The value of a segment is no commit and no release. -/
theorem not_isUpkeep_value (resolved : calls.Resolved table) (independent : f.Independent table)
    (mem : g ∈ l.segments) : ¬ Binding.IsUpkeep table ⟨g.target, g.value⟩ := by
  have free := (independent.1 g.source (l.source_mem mem)).service?_eq_none
  unfold Binding.IsUpkeep
  by_cases is_output : g.source.var = plan.convention.output
  · rw [(l.isOutput g mem is_output).value]
    simp [Expr.service?]
  · rw [(l.isValue g mem is_output).value, Expr.streamed]
    split
    · simp [resolved.service?_fetch]
    · simp [Expr.service?_redirect, free]

theorem released?_value (resolved : calls.Resolved table) (independent : f.Independent table)
    (mem : g ∈ l.segments) : g.value.released? table = none :=
  Expr.released?_eq_none fun is_release =>
    l.not_isUpkeep_value resolved independent mem (.inr is_release)

/-- Every release is of a variable. -/
theorem isSome_released? (resolved : calls.Resolved table) (independent : f.Independent table)
    {b : Binding} (mem : b ∈ l.code) (is_release : b.value.service? table = some .release) :
    (b.value.released? table).isSome := by
  obtain ⟨g, g_mem, in_code⟩ := List.mem_flatMap.mp mem
  rcases Segment.cases_of_mem_code in_code with
    ⟨i, -, is_fetch⟩ | rfl | ⟨slot, -, is_commit⟩ | ⟨t, -, released⟩
  · simp [is_fetch, resolved.service?_fetch] at is_release
  · exact absurd (.inr is_release) (l.not_isUpkeep_value resolved independent g_mem)
  · simp [is_commit, resolved.service?_commit] at is_release
  · simp [released, resolved.released?_release]

/-- The code releases what its segments list. -/
theorem filterMap_released? (resolved : calls.Resolved table) (independent : f.Independent table) :
    l.code.filterMap (fun b => b.value.released? table) = l.segments.flatMap Segment.released := by
  rw [code, List.filterMap_flatMap]
  refine List.flatMap_congr fun g mem => ?_
  have no_release := l.released?_value resolved independent mem
  rw [Segment.code, filterMap_numbered, Segment.exprs]
  simp [List.filterMap_map, no_release, resolved.released?_fetch, resolved.released?_commit,
    resolved.released?_release]

/-- What dies is tracked. -/
theorem tracked_of_dyingAt (planned : f.Planned plan tracked) {b : Binding} (mem : b ∈ f.bindings)
    {v : VarId} (dies : v ∈ plan.lastUses.dyingAt b.var) : v ∈ tracked := by
  rw [planned.lastUses] at dies
  by_cases is_output : b.var = plan.convention.output
  · simp [is_output] at dies
  · obtain ⟨before, after, split⟩ := List.append_of_mem mem
    exact ((planned.follows.mem_dyingAt_lastUses planned.param_untracked split is_output).mp
      dies).2.1

/-- The dying variables of all segments are the new names of those that die in the function. -/
theorem flatMap_dying (planned : f.Planned plan tracked) :
    l.segments.flatMap Segment.dying =
      (f.bindings.flatMap fun b => plan.lastUses.dyingAt b.var).map l.rename := by
  rw [← l.sources, List.flatMap_map, List.map_flatMap]
  refine List.flatMap_congr fun g mem => ?_
  by_cases is_output : g.source.var = plan.convention.output
  · rw [(l.isOutput g mem is_output).dying, is_output, planned.lastUses,
      Func.dyingAt_lastUses_output]
    rfl
  · exact (l.isValue g mem is_output).dying

theorem nodup_flatMap_dying (planned : f.Planned plan tracked) :
    (l.segments.flatMap Segment.dying).Nodup := by
  rw [l.flatMap_dying planned]
  have apart := planned.follows.nodup_dying planned.param_untracked
  rw [← planned.lastUses] at apart
  refine List.Nodup.map_on (fun v v_mem w w_mem same => ?_) apart
  have bound : ∀ x ∈ f.bindings.flatMap fun b => plan.lastUses.dyingAt b.var,
      ∃ b ∈ f.bindings, b.var = x := by
    intro x mem
    obtain ⟨b, b_mem, dies⟩ := List.mem_flatMap.mp mem
    exact planned.exists_binding (tracked_of_dyingAt planned b_mem dies)
  obtain ⟨b, b_mem, rfl⟩ := bound v v_mem
  obtain ⟨c, c_mem, rfl⟩ := bound w w_mem
  rw [l.rename_inj b_mem c_mem same]

theorem nodup_flatMap_fetched : (l.segments.flatMap Segment.fetched).Nodup := by
  rw [List.nodup_flatMap]
  refine ⟨fun g _ => nodup_varsFrom _ _, ?_⟩
  refine List.pairwise_of_forall_split fun done g later split h h_mem => ?_
  show List.Disjoint _ _
  rw [List.disjoint_left]
  intro t in_g in_h
  have contiguous := l.contiguous
  rw [split, List.append_cons] at contiguous
  exact Nat.lt_irrefl _ (contiguous.owns_lt (by simp) h_mem (Segment.owns_of_mem_fetched in_g)
    (Segment.owns_of_mem_fetched in_h))

/-- The variables released, grouped by what they hold. -/
theorem released_perm : (l.segments.flatMap Segment.dying ++
    l.segments.flatMap Segment.fetched).Perm (l.segments.flatMap Segment.released) :=
  List.flatMap_append_perm _ _ _

/-- **No variable is released twice.** -/
theorem nodup_flatMap_released (planned : f.Planned plan tracked) :
    (l.segments.flatMap Segment.released).Nodup := by
  rw [← l.released_perm.nodup_iff, List.nodup_append']
  refine ⟨l.nodup_flatMap_dying planned, l.nodup_flatMap_fetched, ?_⟩
  rw [List.disjoint_left]
  intro t dying fetch
  obtain ⟨g, g_mem, t_dying⟩ := List.mem_flatMap.mp dying
  obtain ⟨h, h_mem, t_fetched⟩ := List.mem_flatMap.mp fetch
  obtain ⟨k, k_mem, -, -, rfl⟩ := l.exists_target_of_dying planned g_mem t_dying
  exact l.target_notMem_fetched k_mem h_mem t_fetched

/-- What one segment releases is not released by a later one. -/
theorem notMem_released_of_earlier (planned : f.Planned plan tracked)
    (split : l.segments = done ++ g :: later) (released : t ∈ g.released) (mem : h ∈ later) :
    t ∉ h.released := by
  intro again
  have nodup := l.nodup_flatMap_released planned
  rw [split, List.flatMap_append, List.flatMap_cons, List.nodup_append', List.nodup_append']
    at nodup
  exact nodup.2.1.2.2 released (List.mem_flatMap.mpr ⟨h, mem, again⟩)

/-- Every tracked variable is released. -/
theorem mem_flatMap_dying_iff (planned : f.Planned plan tracked) :
    t ∈ l.segments.flatMap Segment.dying ↔ ∃ v ∈ tracked, l.rename v = t := by
  rw [l.flatMap_dying planned, List.mem_map]
  constructor
  · rintro ⟨v, dies, rfl⟩
    obtain ⟨b, b_mem, dies_at⟩ := List.mem_flatMap.mp dies
    exact ⟨v, tracked_of_dyingAt planned b_mem dies_at, rfl⟩
  · rintro ⟨v, v_tracked, rfl⟩
    obtain ⟨d, d_mem, -, dies⟩ := planned.follows.exists_dyingAt planned.param_untracked v_tracked
      (planned.tracked_bound v v_tracked)
    exact ⟨v, List.mem_flatMap.mpr ⟨d, d_mem, planned.lastUses ▸ dies⟩, rfl⟩

/-- The variables fetched for a single binding are those bound to a fetch that hold the value of no
variable of the function. -/
theorem mem_flatMap_fetched_iff (resolved : calls.Resolved table) :
    t ∈ l.segments.flatMap Segment.fetched ↔
      (∃ b ∈ l.code, b.var = t ∧ b.value.service? table = some .fetch) ∧
        ∀ c ∈ f.bindings, l.rename c.var ≠ t := by
  constructor
  · intro mem
    obtain ⟨g, g_mem, fetch⟩ := List.mem_flatMap.mp mem
    have range := mem_varsFrom.mp fetch
    refine ⟨?_, fun c c_mem same => ?_⟩
    · obtain ⟨index⟩ := t
      have inside : index - g.start < g.fetches.length := by
        simp only [Expr.InRange] at range
        omega
      refine ⟨⟨⟨index⟩, calls.fetch (g.fetches.get ⟨_, inside⟩)⟩, ?_, rfl,
        resolved.service?_fetch _⟩
      refine List.mem_flatMap.mpr ⟨g, g_mem, ?_⟩
      rw [Segment.code_eq, Segment.head]
      refine List.mem_append_left _ (List.mem_append_left _ (mem_numbered.mpr ?_))
      refine ⟨index - g.start, by simp [inside], ?_⟩
      rw [Nat.add_sub_cancel' range.1]
    · obtain ⟨k, k_mem, rfl⟩ := l.exists_segment c_mem
      rw [l.rename_var k k_mem] at same
      exact l.target_notMem_fetched k_mem g_mem (same ▸ fetch)
  · rintro ⟨⟨b, b_mem, rfl, is_fetch⟩, no_name⟩
    obtain ⟨g, g_mem, in_code⟩ := List.mem_flatMap.mp b_mem
    rw [Segment.code_eq, List.mem_append] at in_code
    rcases in_code with head | tail
    · rcases Segment.mem_head head with ⟨i, -, -, fetch⟩ | rfl
      · exact List.mem_flatMap.mpr ⟨g, g_mem, fetch⟩
      · exact absurd (l.rename_var g g_mem) (no_name g.source (l.source_mem g_mem))
    · rcases Segment.isUpkeep_of_mem_tail resolved tail with is_commit | is_release
      · simp [is_commit] at is_fetch
      · simp [is_release] at is_fetch

/-! ### Nothing is read after its release -/

/-- What a segment releases is not the new name of a variable that a later ordinary binding
reads. -/
theorem rename_ne_released (planned : f.Planned plan tracked)
    (split : l.segments = done ++ g :: later) (released : t ∈ g.released) (mem : h ∈ later)
    (ordinary : h.source.var ≠ plan.convention.output) {v : VarId}
    (read : v ∈ h.source.value.reads) (not_param : v ≠ plan.convention.param) :
    l.rename v ≠ t := by
  rintro rfl
  have g_mem : g ∈ l.segments := split ▸ by simp
  have h_mem : h ∈ l.segments := split ▸ by simp [mem]
  obtain ⟨before, after, h_split⟩ := List.append_of_mem h_mem
  obtain ⟨k, k_before, rfl⟩ := l.exists_done_of_read planned h_split read not_param
  have k_mem : k ∈ l.segments := h_split ▸ List.mem_append_left _ k_before
  rcases List.mem_append.mp released with dying | fetch
  · obtain ⟨-, x, x_tracked, same, -, unread⟩ := (l.mem_dying_iff planned split).mp dying
    obtain ⟨b, b_mem, rfl, -⟩ := planned.tracked_bound x x_tracked
    rw [l.rename_inj b_mem (l.source_mem k_mem) same] at unread
    exact unread h mem ordinary read
  · rw [l.rename_var k k_mem] at fetch
    exact l.target_notMem_fetched k_mem g_mem fetch

/-- The code of later segments does not read what a segment has released. -/
theorem unread_after_release (planned : f.Planned plan tracked)
    (split : l.segments = done ++ g :: later) (released : t ∈ g.released) (mem : h ∈ later)
    {b : Binding} (b_mem : b ∈ h.code calls) : t ∉ b.value.reads := by
  intro read
  have g_mem : g ∈ l.segments := split ▸ by simp
  have h_mem : h ∈ l.segments := split ▸ by simp [mem]
  -- The released variable lies below all that the later segment binds.
  have below : t.index < h.start := by
    obtain ⟨middle, rest, rfl⟩ := List.append_of_mem mem
    have h_split : l.segments = (done ++ g :: middle) ++ h :: rest := by simp [split]
    have target_lt := l.lt_start h_split (by simp) g.owns_target
    have le_target := l.released_le_target planned split released
    omega
  rcases Segment.cases_of_mem_code b_mem with
    ⟨i, -, is_fetch⟩ | rfl | ⟨slot, -, is_commit⟩ | ⟨u, u_mem, is_release⟩
  · rw [is_fetch] at read
    simp at read
  · by_cases is_output : h.source.var = plan.convention.output
    · obtain ⟨o⟩ := planned.follows.exists_outputTuple planned.interface
      obtain ⟨slot, inside, rfl⟩ := (l.mem_reads_output h_mem is_output).mp read
      obtain ⟨before, after, h_split⟩ := List.append_of_mem h_mem
      obtain ⟨k, k_mem, ack⟩ := l.exists_ack planned o h_split is_output (o.arity ▸ inside)
      exact l.notMem_acks_of_released planned g_mem (h_split ▸ List.mem_append_left _ k_mem)
        released ack
    · rcases (l.mem_reads_value planned h_mem is_output).mp read with
        ⟨v, v_read, not_param, same⟩ | fetch
      · exact l.rename_ne_released planned split released mem is_output v_read not_param same
      · have range := mem_varsFrom.mp fetch
        simp only [Expr.InRange] at range
        omega
  · rw [is_commit, StoreCalls.reads_commit, List.mem_singleton] at read
    rw [read] at below
    simp only [Segment.target] at below
    omega
  · rw [is_release, StoreCalls.reads_release, List.mem_singleton] at read
    exact l.notMem_released_of_earlier planned split released mem (read ▸ u_mem)

/-- The output is not released. -/
theorem rename_output_ne (planned : f.Planned plan tracked) (mem : g ∈ l.segments)
    (released : t ∈ g.released) : l.rename plan.convention.output ≠ t := by
  rintro rfl
  obtain ⟨b, b_mem, is_output⟩ := List.mem_map.mp planned.follows.output_bound
  obtain ⟨k, k_mem, rfl⟩ := l.exists_segment b_mem
  rw [← is_output, l.rename_var k k_mem] at released
  rcases List.mem_append.mp released with dying | fetch
  · obtain ⟨h, h_mem, -, ordinary, same⟩ := l.exists_target_of_dying planned mem dying
    obtain rfl := l.contiguous.eq_of_owns h_mem k_mem h.owns_target (same ▸ k.owns_target)
    exact ordinary is_output
  · exact l.target_notMem_fetched k_mem mem fetch

/-! ### Releases follow the last use -/

/-- The value of a segment is the last use of what the segment releases. -/
theorem released_used (planned : f.Planned plan tracked)
    (split : l.segments = done ++ g :: later) (released : t ∈ g.released) :
    t ∈ g.value.reads ∨ g.target = t := by
  have g_mem : g ∈ l.segments := split ▸ by simp
  rcases List.mem_append.mp released with dying | fetch
  · obtain ⟨ordinary, v, v_tracked, rfl, touched, -⟩ := (l.mem_dying_iff planned split).mp dying
    rcases Binding.mem_touches.mp touched with read | rfl
    · have not_param : v ≠ plan.convention.param :=
        fun same => planned.param_untracked (same ▸ v_tracked)
      exact .inl ((l.mem_reads_value planned g_mem ordinary).mpr (.inl ⟨v, read, not_param, rfl⟩))
    · exact .inr (l.rename_var g g_mem).symm
  · have ordinary : g.source.var ≠ plan.convention.output := by
      intro is_output
      rw [Segment.fetched, (l.isOutput g g_mem is_output).fetches] at fetch
      simp [varsFrom] at fetch
    exact .inl ((l.mem_reads_value planned g_mem ordinary).mpr (.inr fetch))

/-- **Placement.**  A release stands behind the last use of its variable, with upkeep in between,
and nothing after it reads the variable. -/
theorem placed_of_release (resolved : calls.Resolved table) (independent : f.Independent table)
    (planned : f.Planned plan tracked) {before after : List Binding} {b : Binding}
    (split : l.code = before ++ b :: after) (releases : b.value.released? table = some t) :
    (∀ c ∈ after, t ∉ c.value.reads) ∧ l.rename plan.convention.output ≠ t ∧
      Func.ReleasedAtLastUse table before t := by
  obtain ⟨done, g, later, front, back, segments, inner, rfl, rfl⟩ :=
    List.exists_part_of_flatMap_eq split
  have g_mem : g ∈ l.segments := segments ▸ by simp
  obtain ⟨between, ts, us, rfl, upkeep, released, rest⟩ :=
    Segment.code_split_of_release resolved (l.released?_value resolved independent g_mem) inner
      releases
  have t_mem : t ∈ g.released := released ▸ by simp
  refine ⟨fun c c_mem => ?_, l.rename_output_ne planned g_mem t_mem, ?_⟩
  · rcases List.mem_append.mp c_mem with same_segment | later_segment
    · -- The releases left in the segment are of other variables.
      obtain ⟨u, u_mem, is_release⟩ := rest c same_segment
      have nodup := l.nodup_flatMap_released planned
      rw [List.nodup_flatMap] at nodup
      have apart := nodup.1 g g_mem
      rw [released, List.nodup_append', List.nodup_cons] at apart
      rw [is_release, StoreCalls.reads_release, List.mem_singleton]
      rintro rfl
      exact apart.2.1.1 u_mem
    · obtain ⟨h, h_mem, in_code⟩ := List.mem_flatMap.mp later_segment
      exact l.unread_after_release planned segments t_mem h_mem in_code
  · refine ⟨done.flatMap (Segment.code calls) ++ numbered g.start (g.fetches.map calls.fetch),
      ⟨g.target, g.value⟩, between, by simp [Segment.head],
      l.not_isUpkeep_value resolved independent g_mem, upkeep, ?_⟩
    rcases l.released_used planned segments t_mem with read | rfl
    · exact .inl read
    · refine .inr ⟨rfl, fun c c_mem not_upkeep read => ?_⟩
      -- All but upkeep is bound by the time the value is, and reads what is bound before.
      have c_code : c ∈ l.code := split ▸ List.mem_append_left _ c_mem
      have bound_before := l.reads_lt planned c_code read
      rcases List.mem_append.mp c_mem with earlier | own
      · obtain ⟨h, h_mem, in_code⟩ := List.mem_flatMap.mp earlier
        have below := l.lt_start segments h_mem (Segment.owns_of_mem_code in_code)
        simp only [Segment.target] at bound_before
        omega
      rcases List.mem_append.mp own with head | between_mem
      · rcases Segment.mem_head head with ⟨i, -, is_fetch, -⟩ | rfl
        · rw [is_fetch] at read
          simp at read
        · exact Nat.lt_irrefl _ bound_before
      · exact not_upkeep (upkeep c between_mem)

end Layout

namespace Func

/-- **Where a streaming form releases.**  The variables released are the new names of the tracked
variables and the inputs fetched for a single binding, each of them released once.  After its
release a variable is not read again, and only upkeep stands between the last use of a variable and
its release. -/
theorem release_placement {f g : Func} {table names : SymbolTable} {intermediates : Bool}
    (streamed : f.stream table intermediates = (.ok g, names))
    (independent : f.Independent names) :
    ∃ plan s, f.plan intermediates = .ok plan ∧
      f.lowered (StoreCalls.intern table).1 plan = .ok s ∧
      ((g.releasedVars names).Nodup ∧
        (∀ b ∈ g.bindings, b.value.service? names = some .release →
          (b.value.released? names).isSome) ∧
        ∀ t, t ∈ g.releasedVars names ↔
          (∃ v ∈ f.tracked plan.convention plan.interface intermediates,
            s.values.get? v = some t) ∨
          (∃ b ∈ g.bindings, b.var = t ∧ b.value.service? names = some .fetch) ∧
            ∀ v, s.values.get? v ≠ some t) ∧
      ∀ before b after t, g.bindings = before ++ b :: after →
        b.value.released? names = some t →
          (∀ c ∈ after, t ∉ c.value.reads) ∧ t ∉ g.result.reads ∧
            ReleasedAtLastUse names before t := by
  obtain ⟨plan, s, l, has_plan, resolved, has_state, describes, entries⟩ :=
    Layout.exists_of_stream streamed
  have planned := Planned.of_plan has_plan
  have listed : g.releasedVars names = l.segments.flatMap Segment.released := by
    rw [releasedVars, describes.code, l.filterMap_released? resolved independent]
  refine ⟨plan, s, has_plan, has_state, ⟨?_, ?_, ?_⟩, ?_⟩
  · rw [listed]
    exact l.nodup_flatMap_released planned
  · intro b mem is_release
    rw [describes.code] at mem
    exact l.isSome_released? resolved independent mem is_release
  · intro t
    rw [listed, ← l.released_perm.mem_iff, List.mem_append, l.mem_flatMap_dying_iff planned,
      l.mem_flatMap_fetched_iff resolved, describes.code]
    simp only [ne_eq, entries, List.mem_map]
    refine or_congr ?_ (and_congr_right fun _ => ?_)
    · refine exists_congr fun v => and_congr_right fun v_tracked => ?_
      exact ⟨fun same => ⟨planned.exists_binding v_tracked, same⟩, fun both => both.2⟩
    · constructor
      · rintro no_name v ⟨⟨b, b_mem, rfl⟩, same⟩
        exact no_name b b_mem same
      · intro no_name b b_mem same
        exact no_name b.var ⟨⟨b, b_mem, rfl⟩, same⟩
  · intro before b after t split releases
    rw [describes.code] at split
    obtain ⟨unread, not_output, at_last_use⟩ :=
      l.placed_of_release resolved independent planned split releases
    refine ⟨unread, ?_, at_last_use⟩
    rw [describes.result]
    simpa [Expr.reads] using Ne.symm not_output

end Func

namespace Sample

def tensorNames : SymbolTable := ⟨["params", "x", "y", "z", "out", "neg", "sub"], by decide⟩

/-- A tensor `x` comes in, `y` is made of it, and the negation of `y` goes out. -/
def negatedTensor (y : Expr) : Func where
  params := [⟨0⟩]
  blocks :=
    [⟨.dataflow,
      [⟨⟨1⟩, .proj (.var ⟨0⟩) 0⟩,
        ⟨⟨2⟩, y⟩,
        ⟨⟨3⟩, .call (.op ⟨6⟩) [.var ⟨2⟩] .tensor⟩,
        ⟨⟨4⟩, .tuple [.var ⟨3⟩]⟩]⟩]
  result := .var ⟨4⟩
  resultTy := .tuple [.tensor]
  vars :=
    [⟨⟨1⟩, .tuple [.tensor]⟩, ⟨⟨2⟩, .tensor⟩, ⟨⟨3⟩, .tensor⟩, ⟨⟨4⟩, .tensor⟩,
      ⟨⟨5⟩, .tuple [.tensor]⟩]
  attrs := []

/-- What is negated is the difference of the input, fetched once more, from itself. -/
def difference : Func :=
  negatedTensor (.call (.op ⟨7⟩) [.var ⟨1⟩, .proj (.var ⟨0⟩) 0] .tensor)

end Sample

namespace Func

open Sample in
/-- The input is fetched into variables 0 and 1, the second time for one binding only; with the
intermediate values 2 and 5 this makes four releases. -/
theorem release_placement_difference : ∃ g names,
    difference.stream tensorNames true = (.ok g, names) ∧ difference.Independent names ∧
      g.releasedVars names = [⟨0⟩, ⟨1⟩, ⟨2⟩, ⟨5⟩] ∧
      ∀ before b after t, g.bindings = before ++ b :: after →
        b.value.released? names = some t →
          (∀ c ∈ after, t ∉ c.value.reads) ∧ t ∉ g.result.reads ∧
            ReleasedAtLastUse names before t := by
  have streamed : difference.stream tensorNames true = (.ok _, _) := rfl
  have independent : difference.Independent (StoreCalls.intern tensorNames).2 := by decide
  obtain ⟨plan, s, -, -, -, placed⟩ := release_placement streamed independent
  exact ⟨_, _, streamed, independent, rfl, placed⟩

end Func

end ParamStream
