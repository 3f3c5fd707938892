import ParamStream.Proofs.Releases

/-!
# The analyses suffice

Lowering looks variables up in two maps that it fills on the way, and stops where an entry is
missing.  It also meets the parameter, the output tuple and the fields of that tuple again, and has
an error for each of them.  None of these errors can occur once the analyses have succeeded:
scoping puts the binding of a variable before its reads, the convention keeps the parameter under
projections, and the interface lists for each field of the output tuple the slot that its variable
is committed to.

`Draft.Covers` is the invariant behind this: the two maps hold an entry for every variable bound so
far and for every slot that these variables feed.

## Main statements

* `Func.Planned.exists_lower` — a function can be lowered under the plan made for it;
* `Func.analyses_suffice` — a function has a streaming form unless an analysis fails, and the error
  is then that of the analysis.
-/

namespace ParamStream

/-- Rerouting succeeds when the parameter stays under projections and all else has an entry. -/
theorem Expr.exists_reroute {param : VarId} {values : Assoc VarId VarId} (fresh : Nat) {e : Expr}
    (stays : e.escapes param = false) (mapped : Mapped param values e.reads) :
    ∃ e', e.reroute param values fresh = .ok e' :=
  ⟨_, (reroute_eq_ok_iff fresh e (extends_getD values _)).mpr ⟨stays, mapped, rfl⟩⟩

/-! ### What the maps hold -/

namespace Draft

/-- The map of values holds an entry for each of the variables. -/
def Knows (bound : List VarId) (d : Draft) : Prop := ∀ v ∈ bound, ∃ w, d.values.get? v = some w

/-- A segment adds its variable to those that have an entry. -/
theorem Knows.place {bound : List VarId} {d : Draft} (knows : d.Knows bound) (g : Segment) :
    (d.place g).Knows (bound ++ [g.source.var]) := by
  intro v mem
  simp only [Draft.place, Assoc.get?_insert]
  split
  · exact ⟨_, rfl⟩
  · next other =>
    rcases List.mem_append.mp mem with earlier | own
    · exact knows v earlier
    · exact absurd (List.mem_singleton.mp own).symm other

/-- The maps hold the values of the bound variables and the results of their commits. -/
structure Covers (outputs : OutputSlots) (bound : List VarId) (d : Draft) : Prop where
  values : d.Knows bound
  commits : ∀ v ∈ bound, ∀ slot ∈ outputs.slots v, ∃ w, d.commits.get? slot = some w

theorem covers_start (outputs : OutputSlots) : Covers outputs [] {} := ⟨nofun, nofun⟩

/-- A segment adds its variable to what the maps hold, if it commits to the slots of that. -/
theorem Covers.place {outputs : OutputSlots} {bound : List VarId} {d : Draft}
    (covers : d.Covers outputs bound) {g : Segment}
    (slots : g.slots = outputs.slots g.source.var) :
    (d.place g).Covers outputs (bound ++ [g.source.var]) := by
  refine ⟨covers.values.place g, fun v mem slot feeds => ?_⟩
  rcases List.mem_append.mp mem with earlier | own
  · obtain ⟨w, found⟩ := covers.commits v earlier slot feeds
    exact Assoc.exists_get?_insertAll_of_get? _ found
  · rw [List.mem_singleton.mp own, ← slots] at feeds
    refine Assoc.exists_get?_insertAll ?_
    rwa [List.map_fst_zip (by simp [Segment.acks])]

variable {f : Func} {plan : Plan} {tracked : List VarId} {d : Draft} {before after : List Binding}
  {b : Binding}

/-- What a binding reads, the parameter aside, has an entry. -/
theorem Knows.mapped (knows : d.Knows (before.map Binding.var)) (planned : f.Planned plan tracked)
    (split : f.bindings = before ++ b :: after) :
    Expr.Mapped plan.convention.param d.values b.value.reads := by
  intro v read not_param
  have known := (split ▸ planned.follows.ordered).reads_defined v read
  exact knows v (by simpa [not_param] using known)

/-- What dies at a binding has an entry, once the binding itself has one. -/
theorem Knows.exists_valueOf_dying (knows : d.Knows (before.map Binding.var))
    (planned : f.Planned plan tracked) (split : f.bindings = before ++ b :: after)
    (ordinary : b.var ≠ plan.convention.output) (target : VarId) {v : VarId}
    (dies : v ∈ plan.lastUses.dyingAt b.var) :
    ∃ w, { d with values := d.values.insert b.var target }.valueOf v = .ok w := by
  rw [planned.lastUses, planned.follows.mem_dyingAt_lastUses planned.param_untracked split ordinary]
    at dies
  obtain ⟨touched, v_tracked, -⟩ := dies
  have not_param : v ≠ plan.convention.param :=
    fun same => planned.param_untracked (same ▸ v_tracked)
  have found : ∃ w, (d.values.insert b.var target).get? v = some w := by
    rw [Assoc.get?_insert]
    split
    · exact ⟨target, rfl⟩
    · next other =>
      have bound := planned.follows.bound_of_touches split touched not_param
      rw [List.map_append, List.mem_append] at bound
      exact knows v (bound.resolve_right fun own => other (List.mem_singleton.mp own).symm)
  obtain ⟨w, is_w⟩ := found
  exact ⟨w, valueOf_eq_ok_iff.mpr is_w⟩

/-- The code for an ordinary binding can be laid out. -/
theorem Knows.exists_valueSegment (calls : StoreCalls) (knows : d.Knows (before.map Binding.var))
    (planned : f.Planned plan tracked) (split : f.bindings = before ++ b :: after)
    (ordinary : b.var ≠ plan.convention.output) :
    ∃ g, d.valueSegment calls plan b = .ok g ∧ g.slots = plan.interface.outputs.slots b.var := by
  have stays := planned.follows.confined b (split ▸ by simp)
  obtain ⟨value, rerouted⟩ : ∃ value,
      Lowering.valueFor calls plan.convention.param d.values d.next b.value = .ok value := by
    unfold Lowering.valueFor
    split
    · exact ⟨_, rfl⟩
    · exact Expr.exists_reroute d.next stays (knows.mapped planned split)
  obtain ⟨dying, looked_up⟩ := Except.exists_mapM_eq_ok fun v dies =>
    knows.exists_valueOf_dying planned split ordinary
      ⟨d.next + (Lowering.hoisted plan.convention.param b.value).length⟩ (v := v) dies
  refine ⟨⟨b, d.next, Lowering.hoisted plan.convention.param b.value, value,
    plan.interface.outputs.slots b.var, dying⟩, ?_, rfl⟩
  simp only [valueSegment, rerouted, looked_up, Except.ok_bind]
  rfl

/-- The code for the output can be laid out: every field was bound and committed before. -/
theorem Covers.exists_outputSegment
    (covers : d.Covers plan.interface.outputs (before.map Binding.var))
    (planned : f.Planned plan tracked) (split : f.bindings = before ++ b :: after)
    (is_output : b.var = plan.convention.output) :
    ∃ g, d.outputSegment b = .ok g ∧ g.slots = plan.interface.outputs.slots b.var := by
  obtain ⟨o⟩ := planned.follows.exists_outputTuple planned.interface
  have is_tuple : b.value = .tuple (o.fields.map .var) := by
    rw [o.eq_of_var_eq planned.follows (split ▸ by simp) is_output]
  have committed : ∀ entry ∈ (o.fields.map Expr.var).zipIdx,
      ∃ e, d.commitOf entry.1 entry.2 = .ok e := by
    rintro ⟨field, slot⟩ mem
    rw [List.mem_zipIdx_iff_getElem?, List.getElem?_map, Option.map_eq_some_iff] at mem
    obtain ⟨v, at_slot, rfl⟩ := mem
    have v_mem : v ∈ o.fields := List.mem_of_getElem? at_slot
    have stays := planned.follows.confined b (split ▸ by simp)
    rw [is_tuple, Expr.escapes_tuple_vars, decide_eq_false_iff_not] at stays
    have not_param : v ≠ plan.convention.param := fun same => stays (same ▸ v_mem)
    have read : v ∈ b.value.reads := by rwa [is_tuple, Expr.reads_tuple_vars]
    have bound : v ∈ before.map Binding.var :=
      ((split ▸ planned.follows.ordered).reads_defined v read).resolve_left
        (not_param ∘ List.mem_singleton.mp)
    obtain ⟨w, found⟩ := covers.commits v bound slot (o.mem_slots.mpr at_slot)
    exact ⟨.var w, by simp only [commitOf, Expr.asVar?, found]; rfl⟩
  obtain ⟨commits, looked_up⟩ := Except.exists_mapM_eq_ok committed
  refine ⟨⟨b, d.next, [], .tuple commits, [], []⟩, ?_,
    (o.slots_eq_nil planned.follows (.inl is_output)).symm⟩
  simp only [outputSegment, is_tuple, looked_up, Except.ok_bind]
  rfl

/-- One binding: its code can be laid out, and the maps cover it afterwards. -/
theorem Covers.exists_segment (calls : StoreCalls)
    (covers : d.Covers plan.interface.outputs (before.map Binding.var))
    (planned : f.Planned plan tracked) (split : f.bindings = before ++ b :: after) :
    ∃ g, d.segment calls plan b = .ok g ∧
      (d.place g).Covers plan.interface.outputs ((before ++ [b]).map Binding.var) := by
  obtain ⟨g, placed, slots⟩ : ∃ g, d.segment calls plan b = .ok g ∧
      g.slots = plan.interface.outputs.slots b.var := by
    unfold segment
    split
    · next is_output => exact covers.exists_outputSegment planned split is_output
    · next ordinary => exact covers.values.exists_valueSegment calls planned split ordinary
  refine ⟨g, placed, ?_⟩
  have source := (segment_eq_ok placed).1
  rw [List.map_append, List.map_singleton, ← source]
  exact covers.place (source ▸ slots)

/-- A run of bindings: what is left of the function can be laid out. -/
theorem Covers.exists_segments (calls : StoreCalls)
    (covers : d.Covers plan.interface.outputs (before.map Binding.var))
    (planned : f.Planned plan tracked) (split : f.bindings = before ++ after) :
    ∃ gs, d.segments calls plan after = .ok gs ∧
      (d.placeAll gs).Covers plan.interface.outputs (f.bindings.map Binding.var) := by
  induction after generalizing d before with
  | nil =>
    rw [List.append_nil] at split
    exact ⟨[], rfl, split ▸ covers⟩
  | cons b after ih =>
    obtain ⟨g, placed, covers_next⟩ := covers.exists_segment calls planned split
    obtain ⟨gs, laid, covers_all⟩ := ih covers_next (by rw [split, List.append_assoc]; rfl)
    refine ⟨g :: gs, ?_, covers_all⟩
    rw [segments, placed, Except.ok_bind, laid]
    rfl

end Draft

namespace Func

/-- A function can be lowered if its bindings can be laid out: the result is the output, which has
an entry by then. -/
theorem exists_lower_of_segments {f : Func} {calls : StoreCalls} {plan : Plan} {gs : List Segment}
    (follows : f.Follows plan.convention)
    (laid : Draft.segments calls plan {} f.bindings = .ok gs)
    (knows : (Draft.placeAll {} gs).Knows (f.bindings.map Binding.var)) :
    ∃ g, f.lower calls plan = .ok g := by
  have viewed := f.map_view_lowered calls plan
  rw [laid] at viewed
  obtain ⟨s, reached, same⟩ := Except.map_eq_ok_iff.mp viewed
  have values : s.values = (Draft.placeAll {} gs).values :=
    congrArg (fun view => view.1.values) same
  obtain ⟨w, found⟩ := knows _ follows.output_bound
  have not_param : plan.convention.output ≠ plan.convention.param := by
    obtain ⟨b, mem, is_output⟩ := List.mem_map.mp follows.output_bound
    exact is_output ▸ follows.var_ne_param b mem
  have stays : f.result.escapes plan.convention.param = false := by
    rw [follows.result]
    simpa [Expr.escapes] using not_param
  have mapped : Expr.Mapped plan.convention.param s.values f.result.reads := by
    rw [follows.result, values]
    intro v read _
    rw [List.mem_singleton.mp read]
    exact ⟨w, found⟩
  obtain ⟨result, rerouted⟩ := Expr.exists_reroute s.builder.next.index stays mapped
  exact ⟨_, lower_eq_ok_iff.mpr ⟨s, result, reached, rerouted, rfl⟩⟩

/-- **Lowering succeeds** under a plan made for the function. -/
theorem Planned.exists_lower {f : Func} {plan : Plan} {tracked : List VarId}
    (planned : f.Planned plan tracked) (calls : StoreCalls) :
    ∃ g, f.lower calls plan = .ok g := by
  obtain ⟨gs, laid, covers⟩ := (Draft.covers_start plan.interface.outputs).exists_segments calls
    planned (List.nil_append f.bindings).symm
  exact exists_lower_of_segments planned.follows laid covers.values

/-! ### Which errors occur -/

/-- Whether there is a streaming form is up to the analyses, and so is the error if there is
none. -/
theorem stream_eq_error_iff {f : Func} {table : SymbolTable} {intermediates : Bool}
    {e : StreamError} :
    (f.stream table intermediates).1 = .error e ↔ f.plan intermediates = .error e := by
  unfold stream
  cases has_plan : f.plan intermediates with
  | error e' => simp
  | ok plan =>
    obtain ⟨g, lowered⟩ := (Planned.of_plan has_plan).exists_lower (StoreCalls.intern table).1
    simp [lowered]

/-- There is a plan when the two analyses that can fail do not. -/
theorem exists_plan_iff (f : Func) (intermediates : Bool) :
    (∃ plan, f.plan intermediates = .ok plan) ↔
      ∃ c i, f.convention = .ok c ∧ f.interface c.param c.output = .ok i := by
  simp only [plan, Except.bind_eq_ok_iff, Except.pure_eq_ok_iff]
  constructor
  · rintro ⟨_, c, answered, i, has_interface, -⟩
    exact ⟨c, i, answered, has_interface⟩
  · rintro ⟨c, i, answered, has_interface⟩
    exact ⟨_, c, answered, i, has_interface, rfl⟩

theorem plan_eq_error_iff {f : Func} {intermediates : Bool} {e : StreamError} :
    f.plan intermediates = .error e ↔ f.convention = .error e ∨
      ∃ c, f.convention = .ok c ∧ f.interface c.param c.output = .error e := by
  simp only [plan, Except.bind_eq_error_iff]
  constructor
  · rintro (failed | ⟨c, answered, failed | ⟨i, -, whole⟩⟩)
    · exact .inl failed
    · exact .inr ⟨c, answered, failed⟩
    · cases whole
  · rintro (failed | ⟨c, answered, failed⟩)
    · exact .inl failed
    · exact .inr ⟨c, answered, .inl failed⟩

end Func

/-- The error describes a function, and not a disagreement of the analyses. -/
def StreamError.BlamesFunction (e : StreamError) : Prop := e.isInternal = false

namespace Convention

theorem checkReads_failsWithin (param : VarId) (homes : Assoc VarId Nat) (block : Nat)
    (vs : List VarId) :
    (checkReads param homes block vs).FailsWithin StreamError.BlamesFunction := by
  induction vs with
  | nil => exact .pure _
  | cons v vs ih =>
    unfold checkReads
    split
    · exact ih
    · split
      · split
        · exact ih
        · exact .throw rfl
      · exact ih

theorem checkPlaced_failsWithin (c : Convention) (homes : Assoc VarId Nat)
    (placed : List (Nat × Binding)) :
    (checkPlaced c homes placed).FailsWithin StreamError.BlamesFunction := by
  induction placed generalizing homes with
  | nil => exact .pure _
  | cons entry rest ih =>
    unfold checkPlaced
    split
    · exact .throw rfl
    · exact (checkReads_failsWithin _ _ _ _).bind fun _ => ih _

end Convention

namespace Func

open Convention in
/-- The check of the convention has no internal error. -/
theorem convention_failsWithin (f : Func) :
    f.convention.FailsWithin StreamError.BlamesFunction := by
  have sole : (soleParam f.params).FailsWithin StreamError.BlamesFunction := by
    unfold soleParam
    split
    · exact .pure _
    · exact .throw rfl
  have param_ty : ∀ param,
      (checkParamTy param (f.varTy? param)).FailsWithin StreamError.BlamesFunction := by
    intro param
    simp only [checkParamTy]
    split
    · exact .pure _
    · exact .throw rfl
  have result : (resultVar f.result).FailsWithin StreamError.BlamesFunction := by
    unfold resultVar
    split
    · exact .pure _
    · exact .throw rfl
  have bound : ∀ output,
      (checkBound output (f.bindingOf? output)).FailsWithin StreamError.BlamesFunction := by
    intro output
    unfold checkBound
    split
    · exact .pure _
    · exact .throw rfl
  have scope :
      (f.checkScope.mapError StreamError.illScoped).FailsWithin StreamError.BlamesFunction :=
    .mapError _ fun _ => rfl
  exact sole.bind fun param => scope.bind fun _ => (param_ty param).bind fun _ =>
    result.bind fun output => (bound output).bind fun _ =>
      (checkPlaced_failsWithin _ _ _).bind fun _ => .pure _

theorem indexFrom_failsWithin (start : Nat) (index : Assoc VarId (List Nat)) (fields : List Expr) :
    (OutputSlots.indexFrom start index fields).FailsWithin StreamError.BlamesFunction := by
  induction fields generalizing start index with
  | nil => exact .pure _
  | cons field fields ih =>
    unfold OutputSlots.indexFrom
    split
    · exact ih _ _
    · exact .throw rfl

/-- The search for inputs and outputs has no internal error. -/
theorem interface_failsWithin (f : Func) (param output : VarId) :
    (f.interface param output).FailsWithin StreamError.BlamesFunction := by
  have slots : ∀ b, (OutputSlots.ofBinding b).FailsWithin StreamError.BlamesFunction := by
    intro b
    unfold OutputSlots.ofBinding
    split
    · exact (indexFrom_failsWithin _ _ _).bind fun _ => .pure _
    · exact .throw rfl
  refine (Except.FailsWithin.mapM slots _).bind fun bound => ?_
  split
  · exact .pure _
  · exact .throw rfl

/-- **The analyses suffice.**  A function that follows the convention and has an interface has a
streaming form.  If a function has none, the error is that of the convention or, when this is
followed, of the interface; it does not come from lowering and is never internal. -/
theorem analyses_suffice (f : Func) (table : SymbolTable) (intermediates : Bool) :
    ((∃ g, (f.stream table intermediates).1 = .ok g) ↔
      ∃ c i, f.convention = .ok c ∧ f.interface c.param c.output = .ok i) ∧
    (∀ e, (f.stream table intermediates).1 = .error e ↔ f.convention = .error e ∨
      ∃ c, f.convention = .ok c ∧ f.interface c.param c.output = .error e) ∧
    ∀ e, (f.stream table intermediates).1 = .error e → e.isInternal = false := by
  have fails : ∀ e, (f.stream table intermediates).1 = .error e ↔ f.convention = .error e ∨
      ∃ c, f.convention = .ok c ∧ f.interface c.param c.output = .error e :=
    fun e => stream_eq_error_iff.trans plan_eq_error_iff
  refine ⟨?_, fails, fun e failed => ?_⟩
  · rw [← f.exists_plan_iff intermediates]
    constructor
    · rintro ⟨g, streamed⟩
      obtain ⟨plan, has_plan, -⟩ := stream_eq_ok_iff.mp streamed
      exact ⟨plan, has_plan⟩
    · rintro ⟨plan, has_plan⟩
      obtain ⟨g, lowered⟩ := (Planned.of_plan has_plan).exists_lower (StoreCalls.intern table).1
      exact ⟨g, stream_eq_ok_iff.mpr ⟨plan, has_plan, lowered⟩⟩
  · rcases (fails e).mp failed with failed | ⟨c, -, failed⟩
    · exact f.convention_failsWithin e failed
    · exact f.interface_failsWithin c.param c.output e failed

open Sample in
/-- The difference of an input from itself has a streaming form.  Where the whole parameter is
bound in its place there is none, and the check of the convention says why. -/
theorem analyses_suffice_tensor :
    (∃ g, (difference.stream tensorNames true).1 = .ok g) ∧
      ((negatedTensor (.var ⟨0⟩)).stream tensorNames true).1 = .error (.paramEscapes ⟨0⟩) ∧
      (StreamError.paramEscapes ⟨0⟩).isInternal = false := by
  obtain ⟨streams, -, -⟩ := analyses_suffice difference tensorNames true
  obtain ⟨-, fails, blamed⟩ := analyses_suffice (negatedTensor (.var ⟨0⟩)) tensorNames true
  have failed := (fails (.paramEscapes ⟨0⟩)).mpr (.inl rfl)
  exact ⟨streams.mpr ⟨_, _, rfl, rfl⟩, failed, blamed _ failed⟩

end Func

end ParamStream
