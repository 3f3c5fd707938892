import ParamStream.Proofs.Releases

/-!
# Streaming forms are well formed

What lowering returns is well formed whatever it is given: the function need not pass the scope
check, and the plan may have been made for another function.  Such input makes lowering stop at a
missing entry, or send a read to the wrong variable, but never to one that is not bound yet.

The builder hands out variables in order, and this alone fixes what is bound where.  Reads are
bounded through the maps: all their entries are variables bound so far (`Draft.Bounded`), so an
expression over the new variables reads backwards.

## Main statements

* `Draft.Bounded.segments` — the code laid out for any bindings reads backwards;
* `Func.ordered_of_lower` — what lowering returns binds each variable before it is read;
* `Func.wellFormed_of_lower` — every function that lowering returns is well formed.
-/

namespace ParamStream

/-! ### Order from numbering -/

theorem varsFrom_succ (start count : Nat) :
    varsFrom start (count + 1) = ⟨start⟩ :: varsFrom (start + 1) count := by
  simp [varsFrom, List.range'_succ]

/-- Bindings of consecutive variables are in order if each reads smaller variables only. -/
theorem Scope.ordered_of_backward {size start : Nat} {defined : List VarId} {bs : List Binding}
    (vars : bs.map Binding.var = varsFrom start bs.length) (fits : start + bs.length ≤ size)
    (backward : ∀ b ∈ bs, ∀ v ∈ b.value.reads, v.index < b.var.index)
    (known : ∀ v, v ∈ defined ↔ v.index < start) : Ordered size defined bs := by
  induction bs generalizing start defined with
  | nil => exact True.intro
  | cons b bs ih =>
    rw [List.map_cons, List.length_cons, varsFrom_succ, List.cons.injEq] at vars
    obtain ⟨is_start, vars_rest⟩ := vars
    rw [List.length_cons] at fits
    have reads : ∀ v ∈ b.value.reads, v.index < start := by
      intro v read
      simpa [is_start] using backward b (by simp) v read
    refine ⟨fun v read => ?_, ?_, ?_, ih vars_rest (by omega) ?_ fun v => ?_⟩
    · have below := reads v read
      exact ⟨by omega, (known v).mpr below⟩
    · rw [is_start]
      show start < size
      omega
    · rw [known, is_start]
      exact Nat.lt_irrefl start
    · exact fun c mem => backward c (List.mem_cons_of_mem _ mem)
    · obtain ⟨index⟩ := v
      rw [List.mem_cons, known, is_start, VarId.mk.injEq]
      show index = start ∨ index < start ↔ index < start + 1
      omega

namespace Builder

/-- The variables of the code are those of the table, in order. -/
theorem invariant_vars :
    Builder.Invariant fun b => b.code.map Binding.var = varsFrom 0 b.vars.length where
  setAttr _ _ same := same
  beginBlock _ same := by rwa [code_beginBlock, vars_beginBlock]
  emitTyped {b} _ _ _ same := by
    rw [code_emitTyped, List.map_append, same, vars_emitTyped, List.length_append,
      List.length_singleton, varsFrom_concat, Nat.zero_add]
    rfl

theorem sealed_nonempty {b : Builder} (nonempty : ∀ block ∈ b.closed, block.bindings ≠ []) :
    ∀ block ∈ b.sealed, block.bindings ≠ [] := by
  unfold Builder.sealed
  split
  · next pending _ =>
    split
    · exact nonempty
    · next not_empty =>
      rw [List.forall_mem_append]
      exact ⟨nonempty, by simpa using not_empty⟩
  · exact nonempty

/-- No block without bindings is ever closed. -/
theorem invariant_closed :
    Builder.Invariant fun b => ∀ block ∈ b.closed, block.bindings ≠ [] where
  setAttr _ _ nonempty := nonempty
  beginBlock _ nonempty := sealed_nonempty nonempty
  emitTyped _ _ _ nonempty := nonempty

end Builder

/-! ### Backward reads -/

/-- An expression over the new variables reads entries of the map and the fetches before it. -/
theorem Expr.reads_lt_of_reroute {param : VarId} {values : Assoc VarId VarId} {fresh : Nat}
    {e e' : Expr} (rerouted : e.reroute param values fresh = .ok e')
    (below : ∀ v w, values.get? v = some w → w.index < fresh) :
    ∀ t ∈ e'.reads, t.index < fresh + (e.inputReads param).length := by
  obtain ⟨stays, mapped, rfl⟩ :=
    (reroute_eq_ok_iff fresh e (extends_getD values e.reads)).mp rerouted
  intro t read
  rcases (mem_reads_redirect _ fresh e stays t).mp read with ⟨v, v_read, not_param, rfl⟩ | range
  · obtain ⟨w, found⟩ := mapped v v_read not_param
    have bound := below v w found
    rw [found, Option.getD_some]
    omega
  · exact range.2

namespace Draft

/-- The maps hold variables bound so far. -/
structure Bounded (d : Draft) : Prop where
  values : ∀ v w, d.values.get? v = some w → w.index < d.next
  commits : ∀ slot w, d.commits.get? slot = some w → w.index < d.next

theorem bounded_start : Bounded {} := ⟨by simp, by simp⟩

variable {calls : StoreCalls} {plan : Plan} {d : Draft} {b : Binding} {g : Segment}

/-- The code of a segment adds entries for its own variables. -/
theorem Bounded.place (bounded : d.Bounded) (start : g.start = d.next) : (d.place g).Bounded := by
  have own : ∀ t, g.Owns t → t.index < d.next + g.size := by
    intro t owns
    rw [← start]
    exact owns.2
  constructor
  · intro v w found
    simp only [Draft.place, Assoc.get?_insert] at found
    split at found
    · obtain rfl := Option.some.inj found
      exact own _ g.owns_target
    · exact Nat.lt_add_right _ (bounded.values v w found)
  · intro slot w found
    rcases Assoc.get?_insertAll_eq_some found with ack | earlier
    · exact own _ (Segment.owns_of_mem_acks (List.of_mem_zip ack).2)
    · exact Nat.lt_add_right _ (bounded.commits slot w earlier)

/-- What the value of a segment reads is bound before it. -/
theorem Bounded.reads_value_lt (bounded : d.Bounded) (placed : d.segment calls plan b = .ok g) :
    ∀ t ∈ g.value.reads, t.index < g.target.index := by
  unfold segment at placed
  split at placed
  · obtain ⟨fields, commits, -, looked_up, rfl⟩ := outputSegment_eq_ok placed
    intro t read
    rw [Expr.reads, Expr.readsAll_eq_flatMap, List.mem_flatMap] at read
    obtain ⟨e, mem, read_e⟩ := read
    obtain ⟨⟨field, slot⟩, -, found⟩ := Except.exists_of_mem_mapM looked_up mem
    obtain ⟨w, has_entry, rfl⟩ := commitOf_eq_ok found
    rw [List.mem_singleton.mp read_e]
    exact bounded.commits slot w has_entry
  · obtain ⟨value, dying, rerouted, -, rfl⟩ := valueSegment_eq_ok placed
    unfold Lowering.valueFor at rerouted
    simp only [Segment.target, Lowering.hoisted]
    split at rerouted
    · obtain rfl := Except.pure_eq_ok_iff.mp rerouted
      simp
    · next not_input =>
      rw [not_input]
      exact Expr.reads_lt_of_reroute rerouted bounded.values

/-- A segment releases what is bound by the time its value is. -/
theorem Bounded.dying_le (bounded : d.Bounded) (placed : d.segment calls plan b = .ok g) :
    ∀ t ∈ g.dying, t.index ≤ g.target.index := by
  unfold segment at placed
  split at placed
  · obtain ⟨_, _, _, _, rfl⟩ := outputSegment_eq_ok placed
    simp
  · obtain ⟨value, dying, -, looked_up, rfl⟩ := valueSegment_eq_ok placed
    intro t mem
    obtain ⟨v, -, found⟩ := Except.exists_of_mem_mapM looked_up mem
    have has_entry := valueOf_eq_ok_iff.mp found
    rw [Assoc.get?_insert] at has_entry
    split at has_entry
    · exact Nat.le_of_eq (by rw [Option.some.inj has_entry])
    · have before := bounded.values v t has_entry
      simp only [Segment.target]
      omega

/-- **Any layout reads backwards.**  One segment keeps the maps bounded, and so do all of them. -/
theorem Bounded.segments {bs : List Binding} {gs : List Segment} (bounded : d.Bounded)
    (laid : d.segments calls plan bs = .ok gs) :
    (d.placeAll gs).Bounded ∧ ∀ c ∈ gs.flatMap (Segment.code calls), ∀ t ∈ c.value.reads,
      t.index < c.var.index := by
  induction bs generalizing d gs with
  | nil =>
    obtain rfl := Except.pure_eq_ok_iff.mp laid
    exact ⟨bounded, by simp⟩
  | cons b bs ih =>
    obtain ⟨g, rest, placed, laid_rest, rfl⟩ := segments_cons_eq_ok laid
    obtain ⟨bounded_all, backward⟩ := ih (bounded.place (segment_eq_ok placed).2) laid_rest
    refine ⟨bounded_all, ?_⟩
    rw [List.flatMap_cons, List.forall_mem_append]
    refine ⟨fun c mem t read => ?_, backward⟩
    exact Segment.reads_lt_of_mem_code (bounded.reads_value_lt placed) (bounded.dying_le placed)
      mem read

end Draft

/-! ### Functions -/

/-- Whatever blocks are lowered, the maps are bounded at the end and the code reads backwards. -/
theorem Lowering.bounded_lowered {f : Func} {calls : StoreCalls} {plan : Plan} {s : Lowering}
    (reached : f.lowered calls plan = .ok s) :
    s.draft.Bounded ∧ ∀ b ∈ s.builder.code, ∀ v ∈ b.value.reads, v.index < b.var.index := by
  have viewed := f.map_view_lowered calls plan
  rw [reached] at viewed
  obtain ⟨gs, laid, same⟩ := Except.map_eq_ok_iff.mp viewed.symm
  obtain ⟨draft, code⟩ := Prod.mk.inj same
  rw [← draft, ← code]
  exact Draft.bounded_start.segments laid

namespace Func

/-- A function of no parameters that binds the variables of its table in order, reads each of them
after its binding, and has no block without bindings. -/
structure WellFormed (g : Func) : Prop where
  params : g.params = []
  vars : g.bindings.map Binding.var = (List.range g.vars.length).map VarId.mk
  reads : ∀ before b after, g.bindings = before ++ b :: after →
    ∀ v ∈ b.value.reads, v ∈ before.map Binding.var
  result : ∀ v ∈ g.result.reads, v ∈ g.bindings.map Binding.var
  scope : g.checkScope = .ok ()
  blocks : ∀ block ∈ g.blocks, block.bindings ≠ []

variable {f g : Func} {calls : StoreCalls} {plan : Plan}

/-- The variables bound are those of the table, in order. -/
theorem vars_of_lower (lowered : f.lower calls plan = .ok g) :
    g.bindings.map Binding.var = varsFrom 0 g.vars.length := by
  obtain ⟨s, result, reached, -, rfl⟩ := lower_eq_ok_iff.mp lowered
  exact Builder.invariant_vars.emitAll _ (Builder.invariant_vars.lowered rfl reached)

/-- Every variable is bound once, and before it is read. -/
theorem ordered_of_lower (lowered : f.lower calls plan = .ok g) :
    Scope.Ordered g.vars.length [] g.bindings := by
  have vars := vars_of_lower lowered
  have length : g.bindings.length = g.vars.length := by
    simpa using congrArg List.length vars
  refine Scope.ordered_of_backward (length.symm ▸ vars) (by omega) ?_ (by simp)
  obtain ⟨s, result, reached, -, rfl⟩ := lower_eq_ok_iff.mp lowered
  obtain ⟨-, backward⟩ := Lowering.bounded_lowered reached
  -- The inputs that the result reads are fetched last, and a fetch reads nothing.
  rw [Builder.bindings_finish, Builder.code_emitAll, List.forall_mem_append]
  refine ⟨backward, fun b mem v read => ?_⟩
  obtain ⟨i, -, is_fetch⟩ := List.mem_map.mp (value_mem_of_mem_numbered mem)
  rw [← is_fetch] at read
  simp at read

/-- The result reads variables of the table. -/
theorem result_lt_of_lower (lowered : f.lower calls plan = .ok g) :
    ∀ v ∈ g.result.reads, v.index < g.vars.length := by
  obtain ⟨s, result, reached, rerouted, rfl⟩ := lower_eq_ok_iff.mp lowered
  obtain ⟨bounded, -⟩ := Lowering.bounded_lowered reached
  intro v read
  have below := Expr.reads_lt_of_reroute rerouted bounded.values v read
  simpa [Builder.finish, Builder.length_vars_emitAll, Builder.next] using below

/-- No block is without bindings. -/
theorem blocks_of_lower (lowered : f.lower calls plan = .ok g) :
    ∀ block ∈ g.blocks, block.bindings ≠ [] := by
  obtain ⟨s, result, reached, -, rfl⟩ := lower_eq_ok_iff.mp lowered
  exact Builder.sealed_nonempty
    (Builder.invariant_closed.emitAll _ (Builder.invariant_closed.lowered (by nofun) reached))

/-- **Whatever lowering returns is well formed** and returns an object, for any function, plan and
services. -/
theorem wellFormed_of_lower (lowered : f.lower calls plan = .ok g) :
    g.WellFormed ∧ g.resultTy = .object := by
  have vars := vars_of_lower lowered
  have ordered := ordered_of_lower lowered
  have result_lt := result_lt_of_lower lowered
  have result : ∀ v ∈ g.result.reads, v ∈ g.bindings.map Binding.var := by
    intro v read
    rw [vars, mem_varsFrom]
    exact ⟨Nat.zero_le _, by simpa using result_lt v read⟩
  have params : g.params = [] := by
    obtain ⟨s, _, reached, -, rfl⟩ := lower_eq_ok_iff.mp lowered
    exact Builder.invariant_params.emitAll _ (Builder.invariant_params.lowered rfl reached)
  have resultTy : g.resultTy = .object := by
    obtain ⟨s, _, -, -, rfl⟩ := lower_eq_ok_iff.mp lowered
    rfl
  refine ⟨⟨params, ?_, ?_, result, ?_, blocks_of_lower lowered⟩, resultTy⟩
  · rw [vars, varsFrom, List.range_eq_range']
  · intro before b after split v read
    exact ((split ▸ ordered).reads_defined v read).resolve_left List.not_mem_nil
  · rw [checkScope_eq_ok_iff, params]
    refine ⟨by simp, ordered, fun v read => ⟨result_lt v read, ?_⟩⟩
    simpa using result v read

end Func

/-- A function without parameters that has an empty block, reads what nothing defines, binds a
variable twice and returns an input besides its output. -/
def Sample.illScoped : Func where
  params := []
  blocks :=
    [⟨.plain, []⟩,
      ⟨.dataflow,
        [⟨⟨1⟩, .proj (.var ⟨0⟩) 0⟩,
          ⟨⟨2⟩, .call (.op ⟨7⟩) [.proj (.var ⟨0⟩) 1, .var ⟨1⟩] .tensor⟩,
          ⟨⟨2⟩, .call (.op ⟨6⟩) [.var ⟨2⟩] .tensor⟩,
          ⟨⟨3⟩, .var ⟨2⟩⟩,
          ⟨⟨4⟩, .tuple [.var ⟨1⟩]⟩]⟩]
  result := .tuple [.var ⟨4⟩, .proj (.var ⟨0⟩) 2]
  resultTy := .tensor
  vars := [⟨⟨1⟩, .tuple [.tensor]⟩]
  attrs := []

namespace Func

open Sample in
/-- An ill-scoped function is lowered under the plan for another one. -/
theorem wellFormed_of_foreign_plan : ∃ plan g,
    difference.plan true = .ok plan ∧
      illScoped.checkScope = .error (.readBeforeDefinition ⟨0⟩) ∧
      illScoped.lower (StoreCalls.intern tensorNames).1 plan = .ok g ∧
      g.WellFormed ∧ g.resultTy = .object := by
  have succeeds :
      (difference.plan true >>= illScoped.lower (StoreCalls.intern tensorNames).1) = .ok _ := rfl
  obtain ⟨plan, planned, lowered⟩ := Except.bind_eq_ok_iff.mp succeeds
  exact ⟨plan, _, planned, rfl, lowered, wellFormed_of_lower lowered⟩

end Func

end ParamStream
