import Mathlib.Data.List.Nodup
import Mathlib.Data.List.Perm.Basic
import ParamStream.Proofs.Releases

/-!
# Where a streaming form commits

The output tuple lists variables by slot.  Lowering meets the variables in the order of their
bindings, so it works with the tuple turned inside out: at the binding of a variable it commits the
value to every slot at which the variable stands, and remembers for each slot the result of its
commit.  The output tuple is put together from these results, much later and possibly in another
block.

Nothing is lost on the way.  Every slot is committed to once, with the value that the function
would put there, right behind the binding of that value; and the new output tuple has at each slot
the result of the commit to it.

## Main definitions

* `Func.CommitsRightAfter` — a value is bound and then committed without delay.

## Main statements

* `Layout.slots_perm` — each slot belongs to one segment;
* `Func.commit_placement`.
-/

namespace ParamStream

/-! ### The commits of a segment -/

/-- What is passed on to commit the value of `t` to a slot. -/
def commitArgs (t : VarId) (slot : Nat) : List Expr := [.lit (.int slot), .var t]

/-- In the function `t` is bound to `value`.  Right after it come the commits of `t` to `slots`, in
this order, and then its commit to `slot`, the result of which is `ack`.  Up to there nothing but
commits reads `t`; in particular, nothing has released it. -/
def Func.CommitsRightAfter (table : SymbolTable) (f : Func) (t : VarId) (value : Expr)
    (slots : List Nat) (slot : Nat) (ack : VarId) : Prop :=
  ∃ front between commit after,
    f.bindings = front ++ ⟨t, value⟩ :: between ++ ⟨ack, commit⟩ :: after ∧
      (between.map Binding.value ++ [commit]).map (Expr.argsOf? table .commit) =
        (slots ++ [slot]).map (fun slot => some (commitArgs t slot)) ∧
      ∀ c ∈ front ++ ⟨t, value⟩ :: between,
        t ∈ c.value.reads → c.value.service? table = some .commit

namespace Segment

/-- The code of a segment up to the commit to one of its slots. -/
theorem exists_code_split {g : Segment} (calls : StoreCalls) {before behind : List Nat} {slot : Nat}
    (slots : g.slots = before ++ slot :: behind) :
    ∃ after, g.code calls = numbered g.start (g.fetches.map calls.fetch) ++
      ⟨g.target, g.value⟩ :: numbered (g.target.index + 1) (before.map (calls.commit g.target)) ++
        ⟨⟨g.target.index + 1 + before.length⟩, calls.commit g.target slot⟩ :: after := by
  rw [code_eq, head, tail, slots, List.map_append, numbered_append, List.map_cons, numbered_cons,
    List.length_map]
  simp only [List.append_assoc, List.cons_append, List.nil_append]
  exact ⟨_, rfl⟩

/-- Of the code of a segment only the commits call that service, if its value does not. -/
theorem filterMap_commit {calls : StoreCalls} {table : SymbolTable} {g : Segment}
    (resolved : calls.Resolved table) (no_commit : g.value.argsOf? table .commit = none) :
    (g.code calls).filterMap (fun b => b.value.argsOf? table .commit) =
      g.slots.map (commitArgs g.target) := by
  rw [code, filterMap_numbered, exprs]
  simp [List.filterMap_map, no_commit, resolved.argsOf?_fetch, resolved.argsOf?_commit,
    resolved.argsOf?_release, commitArgs]

end Segment

namespace Layout

variable {f : Func} {calls : StoreCalls} {plan : Plan} {tracked : List VarId}
  {table : SymbolTable} (l : Layout f calls plan) {g : Segment}

/-- What stands at a slot is the variable of an ordinary segment. -/
theorem exists_slot (planned : f.Planned plan tracked)
    (o : OutputTuple f plan.convention plan.interface) {slot : Nat} {x : VarId}
    (at_slot : o.fields[slot]? = some x) :
    ∃ g ∈ l.segments, g.source.var = x ∧ x ≠ plan.convention.output := by
  obtain ⟨b, b_mem, is_x⟩ :=
    List.mem_map.mp (o.fields_bound planned.follows x (List.mem_of_getElem? at_slot))
  have ordinary := o.var_ne_output planned.follows b (List.mem_append_left _ b_mem)
  obtain ⟨g, g_mem, rfl⟩ := l.exists_segment (o.split ▸ List.mem_append_left _ b_mem)
  exact ⟨g, g_mem, is_x, is_x ▸ ordinary⟩

/-- The segments commit to the slots that their bindings feed. -/
theorem flatMap_slots : l.segments.flatMap Segment.slots = f.bindings.flatMap plan.slotsFor := by
  rw [← l.sources, List.flatMap_map]
  refine List.flatMap_congr fun g mem => ?_
  unfold Plan.slotsFor
  split
  · next is_output => exact (l.isOutput g mem is_output).slots
  · next ordinary => exact (l.isValue g mem ordinary).slots

/-- Different segments are for different variables, which stand at different slots. -/
theorem nodup_flatMap_slots (planned : f.Planned plan tracked)
    (o : OutputTuple f plan.convention plan.interface) :
    (l.segments.flatMap Segment.slots).Nodup := by
  rw [l.flatMap_slots]
  exact plan.nodup_flatMap_slotsFor o.slots planned.follows.ordered.nodup

/-- **Each slot belongs to one segment.**  It is that of the variable which stands there. -/
theorem slots_perm (planned : f.Planned plan tracked)
    (o : OutputTuple f plan.convention plan.interface) :
    (l.segments.flatMap Segment.slots).Perm (List.range o.fields.length) := by
  rw [List.perm_ext_iff_of_nodup (l.nodup_flatMap_slots planned o) List.nodup_range]
  intro slot
  rw [List.mem_flatMap, List.mem_range]
  constructor
  · rintro ⟨g, g_mem, slot_mem⟩
    exact (List.getElem?_eq_some_iff.mp ((l.mem_slots planned o g_mem).mp slot_mem)).1
  · intro inside
    obtain ⟨g, g_mem, is_x, -⟩ := l.exists_slot planned o (List.getElem?_eq_getElem inside)
    refine ⟨g, g_mem, (l.mem_slots planned o g_mem).mpr ?_⟩
    rw [is_x]
    exact List.getElem?_eq_getElem inside

/-- The value of a segment is no commit if the function has none. -/
theorem value_no_commit (resolved : calls.Resolved table) (avoids : f.Avoids table .commit)
    (mem : g ∈ l.segments) : g.value.argsOf? table .commit = none := by
  rcases l.fetch_or_avoids avoids mem with ⟨i, -, is_fetch⟩ | avoids
  · rw [is_fetch, resolved.argsOf?_fetch]
    rfl
  · exact avoids.argsOf?_eq_none

/-- The code commits, in some order, to each slot the new name of the variable that stands there. -/
theorem commits_perm (planned : f.Planned plan tracked)
    (o : OutputTuple f plan.convention plan.interface) (resolved : calls.Resolved table)
    (avoids : f.Avoids table .commit) :
    (l.code.filterMap fun b => b.value.argsOf? table .commit).Perm
      ((o.fields.map l.rename).zipIdx.map fun (t, slot) => commitArgs t slot) := by
  let args : Nat → List Expr := fun slot =>
    commitArgs ((o.fields.map l.rename).getD slot default) slot
  have by_segment : l.code.filterMap (fun b => b.value.argsOf? table .commit) =
      (l.segments.flatMap Segment.slots).map args := by
    rw [code, List.filterMap_flatMap, List.map_flatMap]
    refine List.flatMap_congr fun g mem => ?_
    rw [Segment.filterMap_commit resolved (l.value_no_commit resolved avoids mem)]
    refine List.map_congr_left fun slot slot_mem => ?_
    have at_slot := (l.mem_slots planned o mem).mp slot_mem
    simp [args, List.getD_eq_getElem?_getD, at_slot, l.rename_var g mem]
  have by_slot : ((o.fields.map l.rename).zipIdx.map fun (t, slot) => commitArgs t slot) =
      (List.range o.fields.length).map args := by
    rw [List.range_eq_range', ← List.length_map l.rename, ← List.zipIdx_map_snd 0, List.map_map]
    refine List.map_congr_left fun entry mem => ?_
    have at_slot := List.mem_zipIdx_iff_getElem?.mp mem
    simp only [args, Function.comp_apply, List.getD_eq_getElem?_getD, at_slot, Option.getD_some]
  rw [by_segment, by_slot]
  exact (l.slots_perm planned o).map args

/-- The value of a segment is that of its binding, over the new names recorded in `values`. -/
theorem valueFor_eq (planned : f.Planned plan tracked) {values : Assoc VarId VarId}
    (entries : ∀ v w, values.get? v = some w ↔
      v ∈ f.bindings.map Binding.var ∧ l.rename v = w)
    (mem : g ∈ l.segments) (ordinary : g.source.var ≠ plan.convention.output) :
    Lowering.valueFor calls plan.convention.param values g.start g.source.value =
      .ok g.value := by
  rw [(l.isValue g mem ordinary).value, Expr.streamed, Lowering.valueFor]
  cases g.source.value.inputIndex? plan.convention.param with
  | some i => rfl
  | none =>
    have agree : Expr.Extends values l.rename g.source.value.reads :=
      fun v _ w found => ((entries v w).mp found).2
    refine (Expr.reroute_eq_ok_iff _ _ agree).mpr
      ⟨planned.follows.confined g.source (l.source_mem mem), fun v read not_param => ?_, rfl⟩
    obtain ⟨done, later, split⟩ := List.append_of_mem mem
    obtain ⟨h, h_mem, rfl⟩ := l.exists_done_of_read planned split read not_param
    have bound := l.source_mem (split ▸ List.mem_append_left _ h_mem)
    exact ⟨_, (entries h.source.var _).mpr ⟨List.mem_map_of_mem bound, rfl⟩⟩

/-- The results of the commits of a segment come right after its value. -/
theorem commitVar_eq (mem : g ∈ l.segments) {before behind : List Nat} {slot : Nat}
    (slots : g.slots = before ++ slot :: behind) :
    l.commitVar slot = ⟨g.target.index + 1 + before.length⟩ := by
  have acks := congrArg (fun vs => vs[before.length]?) (l.map_commitVar g mem)
  simpa [slots, Segment.acks, varsFrom] using acks

/-- Nothing reads the value of a segment before the segment is past it. -/
theorem target_unread (planned : f.Planned plan tracked) {done later : List Segment}
    (split : l.segments = done ++ g :: later) {c : Binding}
    (mem : c ∈ done.flatMap (Segment.code calls) ++ g.head calls) :
    g.target ∉ c.value.reads := by
  intro read
  have code : l.code = done.flatMap (Segment.code calls) ++ g.head calls ++
      (g.tail calls ++ later.flatMap (Segment.code calls)) := by
    rw [Layout.code, split, List.flatMap_append, List.flatMap_cons, Segment.code_eq]
    simp only [List.append_assoc]
  have before := l.reads_lt planned (code ▸ List.mem_append_left _ mem) read
  rcases List.mem_append.mp mem with earlier | head
  · obtain ⟨h, h_mem, in_code⟩ := List.mem_flatMap.mp earlier
    have below := l.lt_start split h_mem (Segment.owns_of_mem_code in_code)
    simp only [Segment.target] at before
    omega
  · rcases Segment.mem_head head with ⟨i, -, -, fetch⟩ | rfl
    · have below := Segment.lt_target_of_mem_fetched fetch
      omega
    · exact Nat.lt_irrefl _ before

/-- **Placement.**  A value goes to a slot right after it is bound and has gone to the smaller ones
of its slots. -/
theorem commitsRightAfter (planned : f.Planned plan tracked) (resolved : calls.Resolved table)
    {g' : Func} (describes : l.Describes g') (mem : g ∈ l.segments) {before behind : List Nat}
    {slot : Nat} (slots : g.slots = before ++ slot :: behind) :
    g'.CommitsRightAfter table g.target g.value before slot (l.commitVar slot) := by
  obtain ⟨done, later, split⟩ := List.append_of_mem mem
  obtain ⟨after, code⟩ := Segment.exists_code_split calls slots
  refine ⟨done.flatMap (Segment.code calls) ++ numbered g.start (g.fetches.map calls.fetch),
    numbered (g.target.index + 1) (before.map (calls.commit g.target)),
    calls.commit g.target slot, after ++ later.flatMap (Segment.code calls), ?_, ?_, ?_⟩
  · rw [describes.code, Layout.code, split, List.flatMap_append, List.flatMap_cons, code,
      l.commitVar_eq mem slots]
    simp only [List.append_assoc, List.cons_append]
  · rw [map_value_numbered]
    simp [resolved.argsOf?_commit, commitArgs]
  · intro c c_mem read
    rw [List.append_cons, List.mem_append, List.append_assoc] at c_mem
    rcases c_mem with early | between
    · exact absurd read (l.target_unread planned split early)
    · obtain ⟨slot, -, is_commit⟩ := List.mem_map.mp (value_mem_of_mem_numbered between)
      rw [← is_commit, resolved.service?_commit]

end Layout

namespace Func

/-- **Where a streaming form commits.**  Of its calls of that service there is one for each field of
the output tuple: it passes the position of the field and the variable that now holds the value of
the field's variable.  The call stands right after the binding of that value, with only the commits
of the same value to smaller slots in between, and its result is the field of the new output
tuple. -/
theorem commit_placement {f g : Func} {table names : SymbolTable} {intermediates : Bool}
    {out : VarId} {xs : List VarId}
    (streamed : f.stream table intermediates = (.ok g, names)) (avoids : f.Avoids names .commit)
    (result : f.result = .var out) (output : ⟨out, .tuple (xs.map .var)⟩ ∈ f.bindings) :
    ∃ plan s, ∃ ts acks : List VarId, f.plan intermediates = .ok plan ∧
      f.lowered (StoreCalls.intern table).1 plan = .ok s ∧
      ts.map some = xs.map s.values.get? ∧
      (g.callArgs names .commit).Perm (ts.zipIdx.map fun (t, slot) => commitArgs t slot) ∧
      (∃ out', g.result = .var out' ∧ ⟨out', .tuple (acks.map .var)⟩ ∈ g.bindings) ∧
      acks.length = xs.length ∧
      ∀ slot x t ack, xs[slot]? = some x → ts[slot]? = some t → acks[slot]? = some ack →
        ∃ b ∈ f.bindings, ∃ fresh value, b.var = x ∧
          Lowering.valueFor (StoreCalls.intern table).1 plan.convention.param s.values fresh
            b.value = .ok value ∧
          t = ⟨fresh + (Lowering.hoisted plan.convention.param b.value).length⟩ ∧
          g.CommitsRightAfter names t value
            ((List.range slot).filter fun k => xs[k]? = some x) slot ack := by
  obtain ⟨plan, s, l, has_plan, resolved, has_state, describes, entries⟩ :=
    Layout.exists_of_stream streamed
  have planned := Planned.of_plan has_plan
  obtain ⟨o⟩ := planned.follows.exists_outputTuple planned.interface
  obtain rfl : out = plan.convention.output :=
    Expr.var.inj (result.symm.trans planned.follows.result)
  obtain rfl : xs = o.fields := by
    have same := o.eq_of_var_eq planned.follows output rfl
    simp only [Binding.mk.injEq, Expr.tuple.injEq, true_and] at same
    exact List.map_injective_iff.mpr (fun _ _ => Expr.var.inj) same
  refine ⟨plan, s, o.fields.map l.rename, (List.range o.fields.length).map l.commitVar, has_plan,
    has_state, ?_, ?_, ?_, by simp, ?_⟩
  · rw [List.map_map]
    refine List.map_congr_left fun x mem => ?_
    obtain ⟨slot, at_slot⟩ := List.mem_iff_getElem?.mp mem
    obtain ⟨h, h_mem, rfl, -⟩ := l.exists_slot planned o at_slot
    exact ((entries _ _).mpr ⟨List.mem_map_of_mem (l.source_mem h_mem), rfl⟩).symm
  · rw [callArgs, describes.code]
    exact l.commits_perm planned o resolved avoids
  · obtain ⟨h, h_mem, source⟩ := l.exists_segment output
    refine ⟨_, describes.result, ?_⟩
    have value := (l.isOutput h h_mem (by rw [source])).value
    rw [o.arity] at value
    have bound := List.mem_flatMap.mpr ⟨h, h_mem, h.value_mem_code (StoreCalls.intern table).1⟩
    rw [← l.rename_var h h_mem, value, source] at bound
    rw [describes.code, List.map_map]
    exact bound
  · intro slot x t ack at_slot is_new is_ack
    obtain ⟨h, h_mem, rfl, ordinary⟩ := l.exists_slot planned o at_slot
    obtain rfl : h.target = t := by
      simpa [at_slot, l.rename_var h h_mem] using is_new
    obtain rfl : l.commitVar slot = ack := by
      have inside : slot < o.fields.length := (List.getElem?_eq_some_iff.mp at_slot).1
      simpa [inside] using is_ack
    have shape := l.isValue h h_mem ordinary
    obtain ⟨behind, positions⟩ := exists_positionsFrom_split at_slot
    have slots := shape.slots.trans ((o.slots _).trans positions)
    refine ⟨h.source, l.source_mem h_mem, h.start, h.value, rfl,
      l.valueFor_eq planned entries h_mem ordinary, ?_,
      l.commitsRightAfter planned resolved describes h_mem slots⟩
    rw [Segment.target, shape.fetches]

end Func

/-- Two tensors come in.  The difference `y` goes out in the first slot and again in the last one,
and the second input in between. -/
def Sample.differenceTwice : Func where
  params := [⟨0⟩]
  blocks :=
    [⟨.dataflow,
      [⟨⟨1⟩, .proj (.var ⟨0⟩) 0⟩,
        ⟨⟨2⟩, .call (.op ⟨7⟩) [.var ⟨1⟩, .proj (.var ⟨0⟩) 1] .tensor⟩]⟩,
      ⟨.plain, [⟨⟨3⟩, .proj (.var ⟨0⟩) 1⟩, ⟨⟨4⟩, .tuple [.var ⟨2⟩, .var ⟨3⟩, .var ⟨2⟩]⟩]⟩]
  result := .var ⟨4⟩
  resultTy := .tuple [.tensor, .tensor, .tensor]
  vars :=
    [⟨⟨1⟩, .tuple [.tensor, .tensor]⟩, ⟨⟨2⟩, .tensor⟩, ⟨⟨3⟩, .tensor⟩, ⟨⟨4⟩, .tensor⟩,
      ⟨⟨5⟩, .tuple [.tensor, .tensor, .tensor]⟩]
  attrs := []

namespace Func

open Sample in
/-- The difference is held by variable 2 and goes to the slots 0 and 2, right after it is bound. -/
theorem commit_placement_differenceTwice : ∃ g names,
    differenceTwice.stream tensorNames true = (.ok g, names) ∧
      differenceTwice.Avoids names .commit ∧
      g.callArgs names .commit = [commitArgs ⟨2⟩ 0, commitArgs ⟨2⟩ 2, commitArgs ⟨8⟩ 1] ∧
      ∃ value ack, g.CommitsRightAfter names ⟨2⟩ value [0] 2 ack := by
  have streamed : differenceTwice.stream tensorNames true = (.ok _, _) := rfl
  have avoids : differenceTwice.Avoids (StoreCalls.intern tensorNames).2 .commit := by decide
  have output : ⟨⟨4⟩, .tuple ([⟨2⟩, ⟨3⟩, ⟨2⟩].map .var)⟩ ∈ differenceTwice.bindings := by
    simp [differenceTwice, bindings]
  obtain ⟨plan, s, ts, acks, has_plan, has_state, new, -, -, length, placed⟩ :=
    commit_placement streamed avoids rfl output
  have held : (do
      let plan ← differenceTwice.plan true
      let s ← differenceTwice.lowered (StoreCalls.intern tensorNames).1 plan
      pure (s.values.get? ⟨2⟩)) = .ok (some ⟨2⟩) := rfl
  simp only [has_plan, Except.ok_bind, has_state, Except.pure_eq_ok_iff] at held
  have is_new : ts[2]? = some ⟨2⟩ := by
    have at_two := congrArg (fun vs => vs[2]?) new
    simpa [held] using at_two
  have inside : 2 < acks.length := by simp [length]
  obtain ⟨-, -, -, value, -, -, -, commits⟩ :=
    placed 2 ⟨2⟩ ⟨2⟩ _ rfl is_new (List.getElem?_eq_getElem inside)
  exact ⟨_, _, streamed, avoids, rfl, value, _, commits⟩

end Func

end ParamStream
