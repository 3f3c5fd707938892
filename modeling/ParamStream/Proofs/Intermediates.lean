import ParamStream.Proofs.Pruning
import ParamStream.Proofs.WellFormed

/-!
# Releasing intermediates only adds releases

A function has two streaming forms: one releases inputs only, the other computed values as well.
The analyses for them differ in the set of tracked variables alone.  At each binding the variables
that die under the smaller set are the inputs among those that die under the larger, in the same
order, so one layout is the other with some releases missing.  Deleting these from the larger form,
and letting the variables close up, gives the smaller one.

## Main definitions

* `Func.addedReleases` — the releases that were added for values other than inputs.

## Main statements

* `Func.Planned.dyingAt_eq_filter` — what dies when fewer variables are tracked;
* `Layout.pruned_addedReleases` — the added releases within the code of a segment;
* `Func.intermediates_only_add_releases`.
-/

namespace ParamStream

/-- The new variables that hold old ones other than `inputs`. -/
def computedVars (values : Assoc VarId VarId) (inputs : List VarId) : List VarId :=
  (values.filter fun entry => entry.1 ∉ inputs).map Prod.snd

/-- The variables of the bindings that were added to release values other than `inputs`, when
`values` says which new variables hold old ones.  A binding that holds an old variable was not
added, even if it calls the service that releases. -/
def Func.addedReleases (names : SymbolTable) (values : Assoc VarId VarId) (inputs : List VarId)
    (g : Func) : List VarId :=
  (g.bindings.filter fun b => b.var ∉ values.map Prod.snd ∧
    ∃ t ∈ computedVars values inputs, b.value.released? names = some t).map Binding.var

/-! ### What dies -/

namespace Func

variable {f : Func} {plan : Plan}

/-- The analyses for the other choice differ in the last uses only. -/
theorem plan_of_plan {intermediates : Bool} (has_plan : f.plan intermediates = .ok plan)
    (choice : Bool) :
    f.plan choice = .ok { plan with
      lastUses := f.lastUses plan.convention.output
        (f.tracked plan.convention plan.interface choice) } := by
  simp only [Func.plan, Except.bind_eq_ok_iff, Except.pure_eq_ok_iff] at has_plan ⊢
  obtain ⟨convention, answered, interface, has_interface, rfl⟩ := has_plan
  exact ⟨convention, answered, interface, has_interface, rfl⟩

/-- Without intermediates the inputs alone are tracked. -/
theorem mem_tracked_false {c : Convention} {i : Interface} {v : VarId} :
    v ∈ f.tracked c i false ↔ v ∈ i.projections := by
  simp [mem_tracked]

/-- If fewer variables are tracked, those of them die that would die otherwise. -/
theorem Planned.dyingAt_eq_filter {tracked fewer : List VarId} (planned : f.Planned plan tracked)
    (sub : fewer ⊆ tracked) {b : Binding} (mem : b ∈ f.bindings)
    (ordinary : b.var ≠ plan.convention.output) :
    (f.lastUses plan.convention.output fewer).dyingAt b.var =
      (plan.lastUses.dyingAt b.var).filter (· ∈ fewer) := by
  obtain ⟨before, after, split⟩ := List.append_of_mem mem
  have param_untracked : plan.convention.param ∉ fewer :=
    fun mem => planned.param_untracked (sub mem)
  rw [planned.lastUses, planned.follows.dyingAt_lastUses param_untracked split ordinary,
    planned.follows.dyingAt_lastUses planned.param_untracked split ordinary,
    ← List.eraseDups_filter, List.filter_filter]
  congr 1
  refine List.filter_congr fun x _ => ?_
  by_cases x_fewer : x ∈ fewer
  · simp [x_fewer, sub x_fewer]
  · simp [x_fewer]

end Func

/-! ### The added releases -/

theorem mem_of_mem_computedVars {values : Assoc VarId VarId} {inputs : List VarId} {t : VarId}
    (mem : t ∈ computedVars values inputs) : t ∈ values.map Prod.snd := by
  obtain ⟨entry, entry_mem, is_t⟩ := List.mem_map.mp mem
  exact List.mem_map.mpr ⟨entry, List.mem_of_mem_filter entry_mem, is_t⟩

namespace Layout

variable {f new : Func} {calls : StoreCalls} {plan : Plan} {names : SymbolTable}
  {values : Assoc VarId VarId} {inputs : List VarId} {h : Segment} {t : VarId}
  (l : Layout f calls plan)
  (entries : ∀ v t, (v, t) ∈ values ↔ v ∈ f.bindings.map Binding.var ∧ l.rename v = t)
include entries

/-- The entries are those of the segments. -/
theorem mem_values_iff {v : VarId} :
    (v, t) ∈ values ↔ ∃ k ∈ l.segments, k.source.var = v ∧ k.target = t := by
  rw [entries]
  constructor
  · rintro ⟨bound, rfl⟩
    obtain ⟨b, b_mem, rfl⟩ := List.mem_map.mp bound
    obtain ⟨k, k_mem, rfl⟩ := l.exists_segment b_mem
    exact ⟨k, k_mem, rfl, (l.rename_var k k_mem).symm⟩
  · rintro ⟨k, k_mem, rfl, rfl⟩
    exact ⟨List.mem_map_of_mem (l.source_mem k_mem), l.rename_var k k_mem⟩

/-- Of the variables that a segment binds, the target alone holds an old one. -/
theorem mem_map_snd_iff (mem : h ∈ l.segments) (owns : h.Owns t) :
    t ∈ values.map Prod.snd ↔ t = h.target := by
  constructor
  · intro held
    obtain ⟨⟨v, t⟩, entry, rfl⟩ := List.mem_map.mp held
    obtain ⟨k, k_mem, -, rfl⟩ := (l.mem_values_iff entries).mp entry
    rw [l.contiguous.eq_of_owns mem k_mem owns k.owns_target]
  · rintro rfl
    exact List.mem_map.mpr ⟨_, (l.mem_values_iff entries).mpr ⟨h, mem, rfl, rfl⟩, rfl⟩

/-- It is a computed value unless the binding is that of an input. -/
theorem target_mem_computedVars (mem : h ∈ l.segments) :
    h.target ∈ computedVars values inputs ↔ h.source.var ∉ inputs := by
  constructor
  · intro computed
    obtain ⟨⟨v, t⟩, entry, is_target⟩ := List.mem_map.mp computed
    obtain ⟨held, not_input⟩ := List.mem_filter.mp entry
    obtain ⟨k, k_mem, rfl, rfl⟩ := (l.mem_values_iff entries).mp held
    rw [l.contiguous.eq_of_owns mem k_mem h.owns_target (is_target ▸ k.owns_target)]
    exact of_decide_eq_true not_input
  · intro not_input
    have held := (l.mem_values_iff entries).mpr ⟨h, mem, rfl, rfl⟩
    exact List.mem_map.mpr ⟨_, List.mem_filter.mpr ⟨held, decide_eq_true not_input⟩, rfl⟩

variable (code : new.bindings = l.code) (distinct : (new.bindings.map Binding.var).Nodup)
include code distinct

/-- The added releases within the code of a segment, by position. -/
theorem mem_addedReleases (mem : h ∈ l.segments) {i : Nat} {e : Expr}
    (at_i : (h.exprs calls)[i]? = some e) :
    ⟨h.start + i⟩ ∈ new.addedReleases names values inputs ↔
      i ≠ h.fetches.length ∧ ∃ t ∈ computedVars values inputs, e.released? names = some t := by
  have in_code : ⟨⟨h.start + i⟩, e⟩ ∈ h.code calls := mem_numbered.mpr ⟨i, at_i, rfl⟩
  have bound : ⟨⟨h.start + i⟩, e⟩ ∈ new.bindings := by
    rw [code]
    exact List.mem_flatMap.mpr ⟨h, mem, in_code⟩
  have held : (⟨h.start + i⟩ : VarId) ∈ values.map Prod.snd ↔ i = h.fetches.length := by
    rw [l.mem_map_snd_iff entries mem (Segment.owns_of_mem_code in_code)]
    simp [Segment.target]
  constructor
  · intro is_added
    obtain ⟨b, b_mem, same⟩ := List.mem_map.mp is_added
    obtain ⟨b_bound, chosen⟩ := List.mem_filter.mp b_mem
    -- No other binding binds this variable.
    obtain rfl := List.inj_on_of_nodup_map distinct b_bound bound same
    obtain ⟨not_held, releases⟩ := of_decide_eq_true chosen
    exact ⟨fun is_value => not_held (held.mpr is_value), releases⟩
  · rintro ⟨not_value, releases⟩
    refine List.mem_map.mpr ⟨_, List.mem_filter.mpr ⟨bound, decide_eq_true ?_⟩, rfl⟩
    exact ⟨fun is_held => not_value (held.mp is_held), releases⟩

/-- **The added releases** are those of the computed values among the variables that die. -/
theorem pruned_addedReleases (resolved : calls.Resolved names) (mem : h ∈ l.segments) :
    h.Pruned (new.addedReleases names values inputs) (· ∉ computedVars values inputs) := by
  have added {i : Nat} {e : Expr} (at_i : (h.exprs calls)[i]? = some e) :
      ⟨h.start + i⟩ ∈ new.addedReleases names values inputs ↔ _ :=
    l.mem_addedReleases entries code distinct mem at_i
  refine ⟨fun i inside is_added => ?_, fun i t at_i => ?_, fun i inside is_added => ?_⟩
  · have inside' : i < (h.leading calls).length := by rwa [Segment.length_leading]
    have at_lead := List.getElem?_eq_getElem inside'
    have at_i : (h.exprs calls)[i]? = some (h.leading calls)[i] := by
      rw [Segment.exprs_eq, List.getElem?_append_left inside', at_lead]
    obtain ⟨not_value, t, -, releases⟩ := (added at_i).mp is_added
    rcases Segment.cases_of_leading at_lead with ⟨k, is_fetch⟩ | is_value | ⟨slot, is_commit⟩
    · rw [is_fetch, resolved.released?_fetch] at releases
      cases releases
    · exact not_value is_value
    · rw [is_commit, resolved.released?_commit] at releases
      cases releases
  · have behind : h.lead + i ≠ h.fetches.length := by
      simp only [Segment.lead]
      omega
    rw [Nat.add_assoc, added (Segment.getElem?_exprs_dying calls at_i),
      resolved.released?_release]
    simp [behind]
  · have inside' : i < h.fetched.length := by simpa [Segment.fetched] using inside
    have at_i := List.getElem?_eq_getElem inside'
    rw [Nat.add_assoc, Nat.add_assoc, ← Nat.add_assoc h.lead,
      added (Segment.getElem?_exprs_fetched calls at_i), resolved.released?_release] at is_added
    obtain ⟨-, t, computed, same⟩ := is_added
    have fetched : t ∈ h.fetched := Option.some.inj same ▸ List.getElem_mem inside'
    -- What was fetched for the value is no target, so it holds no old variable.
    have is_target := (l.mem_map_snd_iff entries mem (Segment.owns_of_mem_fetched fetched)).mp
      (mem_of_mem_computedVars computed)
    exact h.target_notMem_fetched (is_target ▸ fetched)

end Layout

/-! ### The two forms -/

namespace Func

variable {f g : Func} {table names : SymbolTable} {calls : StoreCalls} {plan : Plan}

/-- The two choices fail alike. -/
theorem stream_eq_error_of {e : StreamError} {choice : Bool} (other : Bool)
    (failed : f.stream table choice = (.error e, names)) :
    f.stream table other = (.error e, names) := by
  have no_plan : f.plan choice = .error e := stream_eq_error_iff.mp (congrArg Prod.fst failed)
  have no_other : f.plan other = .error e := plan_eq_error_iff.mpr (plan_eq_error_iff.mp no_plan)
  rw [stream, no_plan] at failed
  rw [stream, no_other]
  exact failed

/-- The form that releases inputs only is the other one without the added releases. -/
theorem lower_without_addedReleases (resolved : calls.Resolved names)
    (has_plan : f.plan true = .ok plan) (lowered : f.lower calls plan = .ok g) :
    ∃ s plan', f.lowered calls plan = .ok s ∧ f.plan false = .ok plan' ∧
      f.lower calls plan' =
        .ok (g.without (g.addedReleases names s.values plan.interface.projections)) := by
  have planned := Planned.of_plan has_plan
  have has_plan' := plan_of_plan has_plan false
  obtain ⟨gs, laid⟩ := Layout.exists_segments_of_lower lowered
  obtain ⟨describes, s, has_state, found⟩ := Layout.describes_of_lower planned laid lowered
  have distinct : (g.bindings.map Binding.var).Nodup := by
    rw [vars_of_lower lowered]
    exact nodup_varsFrom _ _
  have entries : ∀ v t, (v, t) ∈ s.values ↔
      v ∈ f.bindings.map Binding.var ∧ (Draft.layout planned laid).rename v = t := by
    intro v t
    have keys : s.values.keys.Nodup := by
      rw [Layout.values_of_lowered laid has_state]
      exact Assoc.nodup_keys_insertAll _ List.nodup_nil
    rw [Assoc.mem_iff_get? keys, found]
  have pruned : ∀ h ∈ gs,
      h.Pruned (g.addedReleases names s.values plan.interface.projections)
        (· ∉ computedVars s.values plan.interface.projections) ∧
      decide (h.target ∉ computedVars s.values plan.interface.projections) =
        decide (h.source.var ∈ f.tracked plan.convention plan.interface false) := by
    intro h mem
    refine ⟨(Draft.layout planned laid).pruned_addedReleases entries describes.code distinct
      resolved mem, ?_⟩
    rw [decide_eq_decide, (Draft.layout planned laid).target_mem_computedVars entries mem,
      Classical.not_not, mem_tracked_false]
  refine ⟨s, _, has_state, has_plan', lower_eq_without planned (Planned.of_plan has_plan') laid
    lowered pruned fun b mem ordinary => planned.dyingAt_eq_filter (fun v tracked => ?_) mem
      ordinary⟩
  exact mem_tracked.mpr (.inl (mem_tracked_false.mp tracked))

/-- **Releasing intermediates only adds releases.**  The two choices fail alike; deleting the
releases of computed values from the larger form, and letting the variables close up, gives the
smaller one. -/
theorem intermediates_only_add_releases (f : Func) (table names : SymbolTable) :
    (∀ e, f.stream table true = (.error e, names) ↔ f.stream table false = (.error e, names)) ∧
      ∀ g, f.stream table true = (.ok g, names) → ∃ plan s, f.plan true = .ok plan ∧
        f.lowered (StoreCalls.intern table).1 plan = .ok s ∧
        f.stream table false =
          (.ok (g.without (g.addedReleases names s.values
            (f.projections plan.convention.param plan.convention.output))), names) := by
  refine ⟨fun e => ⟨stream_eq_error_of false, stream_eq_error_of true⟩, fun g streamed => ?_⟩
  obtain ⟨plan, has_plan, lowered, rfl⟩ := stream_eq_iff.mp streamed
  obtain ⟨s, plan', has_state, has_plan', lowered'⟩ :=
    lower_without_addedReleases (StoreCalls.resolved_intern table) has_plan lowered
  rw [projections_interface (Planned.of_plan has_plan).interface] at lowered'
  exact ⟨plan, s, has_plan, has_state, stream_eq_iff.mpr ⟨plan', has_plan', lowered', rfl⟩⟩

open Sample in
/-- The larger form releases the intermediate values 2 and 5 by its bindings 7 and 8.  Without them
the output tuple, which is 9 there, is 7. -/
theorem intermediates_only_add_releases_difference : ∃ g g' names plan s,
    difference.stream tensorNames true = (.ok g, names) ∧ g.result.reads = [⟨9⟩] ∧
      difference.plan true = .ok plan ∧
      difference.lowered (StoreCalls.intern tensorNames).1 plan = .ok s ∧
      g.addedReleases names s.values
        (difference.projections plan.convention.param plan.convention.output) = [⟨7⟩, ⟨8⟩] ∧
      difference.stream tensorNames false = (.ok g', names) ∧ g'.result.reads = [⟨7⟩] ∧
      g' = g.without [⟨7⟩, ⟨8⟩] := by
  have streamed : difference.stream tensorNames true = (.ok _, _) := rfl
  have streamed' : difference.stream tensorNames false = (.ok _, _) := rfl
  have planned : difference.plan true = .ok _ := rfl
  obtain ⟨plan, s, has_plan, has_state, smaller⟩ :=
    (intermediates_only_add_releases difference tensorNames _).2 _ streamed
  obtain rfl := Except.ok.inj (planned.symm.trans has_plan)
  obtain rfl := Except.ok.inj (has_state.symm.trans rfl)
  exact ⟨_, _, _, _, _, streamed, rfl, planned, has_state, rfl, streamed', rfl,
    Except.ok.inj (congrArg Prod.fst (streamed'.symm.trans smaller))⟩

end Func

end ParamStream
