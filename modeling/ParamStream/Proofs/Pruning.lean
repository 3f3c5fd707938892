import ParamStream.Proofs.Assembly
import ParamStream.Proofs.Renumbering
import ParamStream.Proofs.Sufficiency

/-!
# Layouts with fewer releases

Suppose that of the variables that die at each binding, a second plan for a function keeps some and
drops the others.  Laying the function out under the second plan mirrors laying it out under the
first: each segment lacks some releases, and all variables close up behind these.  So the second
streaming form is the first one without the variables of the missing releases.

The variables that are deleted are given as one set for the whole function.  `Segment.Pruned` says
what they have to be within the code of a segment, and the two layouts are then compared binding by
binding: `Draft.Mirrors` relates the drafts before a binding, and a binding keeps that relation.

## Main definitions

* `Segment.prune` — a segment without some of its releases;
* `Segment.Pruned` — the variables deleted are those of these releases;
* `Draft.Mirrors` — the same draft up to deleted variables.

## Main statements

* `Segment.Pruned.remaining_exprs` — what remains of the code of a segment;
* `Draft.Mirrors.segment` — one binding;
* `Draft.Mirrors.segments` — all bindings;
* `Segment.remaining_declsFrom`, `Segment.map_without_blocks` — table and blocks;
* `Func.lower_eq_without` — the two streaming forms.
-/

namespace ParamStream

/-! ### Segments -/

namespace StoreCalls

@[simp] theorem mapVars_fetch (calls : StoreCalls) (ρ : VarId → VarId) (i : Nat) :
    (calls.fetch i).mapVars ρ = calls.fetch i := rfl

@[simp] theorem mapVars_commit (calls : StoreCalls) (ρ : VarId → VarId) (v : VarId) (slot : Nat) :
    (calls.commit v slot).mapVars ρ = calls.commit (ρ v) slot := rfl

@[simp] theorem mapVars_release (calls : StoreCalls) (ρ : VarId → VarId) (v : VarId) :
    (calls.release v).mapVars ρ = calls.release (ρ v) := rfl

end StoreCalls

namespace Segment

/-- The segment when the variables `gone` are deleted, and of the variables that die those not to
be kept are not released. -/
def prune (gone : List VarId) (keep : VarId → Bool) (g : Segment) : Segment where
  source := g.source
  start := (VarId.closeUp gone ⟨g.start⟩).index
  fetches := g.fetches
  value := g.value.mapVars (VarId.closeUp gone)
  slots := g.slots
  dying := (g.dying.filter keep).map (VarId.closeUp gone)

/-- The number of variables bound before the releases. -/
def lead (g : Segment) : Nat := g.fetches.length + 1 + g.slots.length

/-- The expressions bound before the releases. -/
def leading (calls : StoreCalls) (g : Segment) : List Expr :=
  g.fetches.map calls.fetch ++ g.value :: g.slots.map (calls.commit g.target)

theorem length_leading (calls : StoreCalls) (g : Segment) : (g.leading calls).length = g.lead := by
  simp only [leading, lead, List.length_append, List.length_map, List.length_cons]
  omega

theorem exprs_eq (calls : StoreCalls) (g : Segment) :
    g.exprs calls =
      g.leading calls ++ (g.dying.map calls.release ++ g.fetched.map calls.release) := by
  simp [exprs, leading, released]

/-- Before the releases there are fetches, the value, and commits. -/
theorem cases_of_leading {calls : StoreCalls} {g : Segment} {i : Nat} {e : Expr}
    (at_i : (g.leading calls)[i]? = some e) :
    (∃ k, e = calls.fetch k) ∨ i = g.fetches.length ∨ ∃ slot, e = calls.commit g.target slot := by
  rcases Nat.lt_trichotomy i g.fetches.length with before | is_value | behind
  · rw [leading, List.getElem?_append_left (by simpa using before), List.getElem?_map,
      Option.map_eq_some_iff] at at_i
    obtain ⟨k, -, rfl⟩ := at_i
    exact .inl ⟨k, rfl⟩
  · exact .inr (.inl is_value)
  · obtain ⟨j, rfl⟩ := Nat.exists_eq_add_of_lt behind
    rw [leading, List.getElem?_append_right (by simp; omega), List.length_map,
      show g.fetches.length + j + 1 - g.fetches.length = j + 1 by omega, List.getElem?_cons_succ,
      List.getElem?_map, Option.map_eq_some_iff] at at_i
    obtain ⟨slot, -, rfl⟩ := at_i
    exact .inr (.inr ⟨slot, rfl⟩)

/-- Behind them the variables that die are released. -/
theorem getElem?_exprs_dying (calls : StoreCalls) {g : Segment} {i : Nat} {t : VarId}
    (at_i : g.dying[i]? = some t) :
    (g.exprs calls)[g.lead + i]? = some (calls.release t) := by
  have inside : i < g.dying.length := (List.getElem?_eq_some_iff.mp at_i).1
  rw [exprs_eq, List.getElem?_append_right (by rw [length_leading]; omega), length_leading,
    Nat.add_sub_cancel_left, List.getElem?_append_left (by simpa using inside), List.getElem?_map,
    at_i]
  rfl

/-- At the end those fetched for the value are released. -/
theorem getElem?_exprs_fetched (calls : StoreCalls) {g : Segment} {i : Nat} {t : VarId}
    (at_i : g.fetched[i]? = some t) :
    (g.exprs calls)[g.lead + g.dying.length + i]? = some (calls.release t) := by
  rw [exprs_eq, List.getElem?_append_right (by rw [length_leading]; omega), length_leading,
    Nat.add_assoc, Nat.add_sub_cancel_left, List.getElem?_append_right (by simp), List.length_map,
    Nat.add_sub_cancel_left, List.getElem?_map, at_i]
  rfl

/-- Within the code of the segment, the variables deleted are those of the releases not to be
kept. -/
structure Pruned (gone : List VarId) (keep : VarId → Bool) (g : Segment) : Prop where
  stay : ∀ i < g.lead, ⟨g.start + i⟩ ∉ gone
  dying : ∀ i t, g.dying[i]? = some t → (⟨g.start + g.lead + i⟩ ∈ gone ↔ keep t = false)
  fetched : ∀ i < g.fetches.length, ⟨g.start + g.lead + g.dying.length + i⟩ ∉ gone

variable {gone : List VarId} {keep : VarId → Bool} {g : Segment}

namespace Pruned

variable (pruned : g.Pruned gone keep)
include pruned

theorem closeUp_add {i : Nat} (inside : i ≤ g.lead) :
    VarId.closeUp gone ⟨g.start + i⟩ = ⟨(g.prune gone keep).start + i⟩ :=
  ParamStream.closeUp_add fun j below => pruned.stay j (Nat.lt_of_lt_of_le below inside)

theorem closeUp_target : VarId.closeUp gone g.target = (g.prune gone keep).target :=
  pruned.closeUp_add (by simp only [lead]; omega)

theorem target_stays : g.target ∉ gone := pruned.stay _ (by simp only [lead]; omega)

theorem fetched_stay {t : VarId} (mem : t ∈ g.fetched) : t ∉ gone := by
  obtain ⟨from_start, before⟩ := mem_varsFrom.mp mem
  have stays := pruned.stay (t.index - g.start) (by simp only [lead]; omega)
  rwa [Nat.add_sub_cancel' from_start] at stays

theorem map_closeUp_fetched :
    g.fetched.map (VarId.closeUp gone) = (g.prune gone keep).fetched :=
  map_closeUp_varsFrom fun i inside => pruned.stay i (by simp only [lead]; omega)

theorem map_closeUp_acks : g.acks.map (VarId.closeUp gone) = (g.prune gone keep).acks := by
  have first : VarId.closeUp gone ⟨g.target.index + 1⟩ =
      ⟨(g.prune gone keep).target.index + 1⟩ := by
    have moved := pruned.closeUp_add (i := g.fetches.length + 1) (by simp only [lead]; omega)
    rwa [← Nat.add_assoc, ← Nat.add_assoc] at moved
  rw [acks, acks, map_closeUp_varsFrom, first]
  · rfl
  · intro i inside
    have stays := pruned.stay (g.fetches.length + 1 + i) (by simp only [lead]; omega)
    rwa [← Nat.add_assoc, ← Nat.add_assoc] at stays

/-- What remains of the code of a segment is the code of the segment that lacks the releases. -/
theorem remaining_exprs (calls : StoreCalls) :
    (remaining gone g.start (g.exprs calls)).map (Expr.mapVars (VarId.closeUp gone)) =
      (g.prune gone keep).exprs calls := by
  have leading_stays : remaining gone g.start (g.leading calls) = g.leading calls :=
    remaining_eq_self (by rw [length_leading]; exact pruned.stay)
  have dying_kept : remaining gone (g.start + g.lead) (g.dying.map calls.release) =
      (g.dying.filter keep).map calls.release := by
    rw [remaining_map, remaining_eq_filter pruned.dying]
  have fetched_released : remaining gone (g.start + g.lead + g.dying.length)
      (g.fetched.map calls.release) = g.fetched.map calls.release :=
    remaining_eq_self (by simpa [Segment.fetched] using pruned.fetched)
  rw [exprs_eq, remaining_append, leading_stays, length_leading, remaining_append, dying_kept,
    List.length_map, fetched_released, exprs_eq, leading, leading, ← pruned.map_closeUp_fetched,
    ← pruned.closeUp_target]
  simp [prune, Function.comp_def]

/-- What remains of the bindings of a segment. -/
theorem map_closeUp_code (calls : StoreCalls) :
    ((g.code calls).filter (·.var ∉ gone)).map (Binding.mapVars (VarId.closeUp gone)) =
      (g.prune gone keep).code calls := by
  rw [code, map_closeUp_numbered, pruned.remaining_exprs]
  rfl

theorem closeUp_end :
    VarId.closeUp gone ⟨g.start + g.size⟩ =
      ⟨(g.prune gone keep).start + (g.prune gone keep).size⟩ := by
  -- The sizes are those of the code, whatever the services are called.
  have calls : StoreCalls := ⟨.empty, .empty, .empty⟩
  rw [← length_exprs calls g, closeUp_add_length, ← length_exprs calls (g.prune gone keep),
    ← pruned.remaining_exprs calls, List.length_map]
  rfl

end Pruned

/-! ### Blocks and table -/

/-- What remains of the blocks made of segments. -/
theorem map_without_blocks (calls : StoreCalls) {blocks : List Block} {gs : List Segment}
    (pruned : ∀ g ∈ gs, g.Pruned gone keep) :
    (Segment.blocks calls blocks gs).map (Block.without gone) =
      Segment.blocks calls blocks (gs.map (prune gone keep)) := by
  induction blocks generalizing gs with
  | nil => rfl
  | cons block blocks ih =>
    have rest := ih fun g mem => pruned g (List.mem_of_mem_drop (i := block.bindings.length) mem)
    rw [Segment.blocks, Segment.blocks, ← List.map_drop, ← List.map_take, ← rest]
    split
    · rfl
    · rw [List.map_cons]
      congr 1
      rw [Block.without, List.filter_flatMap, List.map_flatMap, List.flatMap_map]
      congr 1
      refine List.flatMap_congr fun g mem => ?_
      exact (pruned g (List.mem_of_mem_take mem)).map_closeUp_code calls

/-- Of the entries for commits and releases, one remains for each that does. -/
theorem Pruned.remaining_upkeep (pruned : g.Pruned gone keep) {α : Type} (a : α) :
    remaining gone (g.target.index + 1)
        (List.replicate (g.slots.length + g.released.length) a) =
      List.replicate (g.slots.length + (g.prune gone keep).released.length) a := by
  rw [remaining_replicate]
  congr 1
  have inside : g.fetches.length + 1 ≤ g.lead := by
    simp only [lead]
    omega
  have behind : VarId.closeUp gone ⟨g.target.index + 1⟩ =
      ⟨(g.prune gone keep).start + (g.fetches.length + 1)⟩ := pruned.closeUp_add inside
  have whole : VarId.closeUp gone ⟨g.target.index + 1 +
      (List.replicate (g.slots.length + g.released.length) a).length⟩ = _ :=
    closeUp_add_length _ _
  have last : g.target.index + 1 + (g.slots.length + g.released.length) = g.start + g.size := by
    simp only [target, size, length_released]
    omega
  rw [List.length_replicate, last, pruned.closeUp_end, behind] at whole
  have ends := congrArg VarId.index whole
  have size : (g.prune gone keep).size =
      g.fetches.length + 1 + g.slots.length + (g.prune gone keep).released.length := by
    rw [length_released]
    rfl
  simp only at ends
  omega

/-- What remains of the entries for a segment, if its value reads variables that stay. -/
theorem Pruned.remaining_decls (pruned : g.Pruned gone keep) {f : Func} {output : VarId}
    {vars : List VarDecl} (start : g.start = vars.length)
    (reads : g.source.var ≠ output → ∀ t ∈ g.value.reads, t ∉ gone) :
    remaining gone vars.length (g.decls f output vars) =
      (g.prune gone keep).decls f output (remaining gone 0 vars) := by
  have fetched_stay : ∀ i < g.fetches.length, ⟨vars.length + i⟩ ∉ gone :=
    fun i inside => start ▸ pruned.stay i (Nat.lt_add_right _ (Nat.lt_succ_of_lt inside))
  have fetched : remaining gone vars.length
      (List.replicate g.fetches.length (⟨.empty, .object⟩ : VarDecl)) = _ :=
    remaining_eq_self (by simpa using fetched_stay)
  have target_stays : ⟨vars.length + g.fetches.length⟩ ∉ gone := start ▸ pruned.target_stays
  have type_same (ordinary : g.source.var ≠ output) :
      (g.value.mapVars (VarId.closeUp gone)).typeIn
          (remaining gone 0 vars ++ List.replicate g.fetches.length ⟨.empty, .object⟩) =
        g.value.typeIn (vars ++ List.replicate g.fetches.length ⟨.empty, .object⟩) := by
    refine Expr.typeIn_mapVars _ fun t read => ?_
    rw [← getElem?_remaining (reads ordinary t read), remaining_append, Nat.zero_add, fetched]
  have upkeep := pruned.remaining_upkeep (⟨.empty, .unit⟩ : VarDecl)
  rw [target, start] at upkeep
  rw [decls, decls, remaining_append, fetched, List.length_replicate,
    remaining_cons_of_notMem target_stays, upkeep]
  by_cases is_output : g.source.var = output
  · simp [prune, is_output]
  · simp [prune, is_output, type_same is_output]

/-- What remains of the entries for segments. -/
theorem remaining_declsFrom {f : Func} {output : VarId} {vars : List VarDecl} {gs : List Segment}
    (contiguous : Contiguous vars.length gs) (pruned : ∀ g ∈ gs, g.Pruned gone keep)
    (reads : ∀ g ∈ gs, g.source.var ≠ output → ∀ t ∈ g.value.reads, t ∉ gone) :
    remaining gone vars.length (declsFrom f output vars gs) =
      declsFrom f output (remaining gone 0 vars) (gs.map (prune gone keep)) := by
  induction gs generalizing vars with
  | nil => rfl
  | cons g gs ih =>
    obtain ⟨start, rest⟩ := contiguous
    rw [List.forall_mem_cons] at pruned reads
    have head := pruned.1.remaining_decls (f := f) start reads.1
    have next : Contiguous (vars ++ g.decls f output vars).length gs := by simpa using rest
    have tail := ih next pruned.2 reads.2
    rw [List.length_append, remaining_append, Nat.zero_add, head] at tail
    rw [declsFrom, remaining_append, head, tail]
    rfl

end Segment

/-! ### Two layouts in step -/

namespace Draft

/-- The same draft up to deleted variables.  The old variables recorded are those that `p` selects
where the new ones are to be kept. -/
structure Mirrors (gone : List VarId) (keep p : VarId → Bool) (d d' : Draft) : Prop where
  next : d'.next = (VarId.closeUp gone ⟨d.next⟩).index
  values : ∀ v, d'.values.get? v = (d.values.get? v).map (VarId.closeUp gone)
  commits : ∀ slot, d'.commits.get? slot = (d.commits.get? slot).map (VarId.closeUp gone)
  kept : ∀ v t, d.values.get? v = some t → keep t = p v

variable {gone : List VarId} {keep p : VarId → Bool} {d d' : Draft} {calls : StoreCalls}
  {plan : Plan} {u : LastUses} {b : Binding} {g : Segment}

theorem mirrors_start : Mirrors gone keep p {} {} := by
  refine ⟨?_, fun v => rfl, fun slot => rfl, by simp⟩
  simp [VarId.closeUp]

namespace Mirrors

/-- A value over the new variables is the same up to deleted variables. -/
theorem valueFor (mirrors : Mirrors gone keep p d d') {param : VarId} {value e : Expr}
    (found : Lowering.valueFor calls param d.values d.next value = .ok e)
    (stay : ∀ i < (Lowering.hoisted param value).length, ⟨d.next + i⟩ ∉ gone) :
    Lowering.valueFor calls param d'.values d'.next value =
      .ok (e.mapVars (VarId.closeUp gone)) := by
  unfold Lowering.valueFor at found ⊢
  unfold Lowering.hoisted at stay
  cases is_input : value.inputIndex? param with
  | some i =>
    rw [is_input] at found
    obtain rfl := Except.pure_eq_ok_iff.mp found
    rfl
  | none =>
    rw [is_input] at found stay
    have extends_values := Expr.extends_getD d.values value.reads
    obtain ⟨stays, mapped, rfl⟩ := (Expr.reroute_eq_ok_iff _ _ extends_values).mp found
    have extends_mirror : Expr.Extends d'.values
        (VarId.closeUp gone ∘ fun v => (d.values.get? v).getD v) value.reads := by
      intro v _ w found_v
      rw [mirrors.values, Option.map_eq_some_iff] at found_v
      obtain ⟨t, found_t, rfl⟩ := found_v
      simp [found_t]
    refine (Expr.reroute_eq_ok_iff _ _ extends_mirror).mpr ⟨stays, fun v read not_param => ?_, ?_⟩
    · obtain ⟨t, found_t⟩ := mapped v read not_param
      exact ⟨_, by rw [mirrors.values, found_t, Option.map_some]⟩
    · rw [Expr.mapVars_redirect]
      intro i inside
      rw [mirrors.next]
      exact closeUp_add fun j below => stay j (Nat.lt_trans below inside)

/-- What has a new name in one draft has one in the other. -/
theorem valueOf (mirrors : Mirrors gone keep p d d') {v t : VarId} (found : d.valueOf v = .ok t) :
    d'.valueOf v = .ok (VarId.closeUp gone t) ∧ keep t = p v := by
  rw [valueOf_eq_ok_iff] at found ⊢
  exact ⟨by rw [mirrors.values, found, Option.map_some], mirrors.kept v t found⟩

/-- So does a field of the output tuple that was committed. -/
theorem commitOf (mirrors : Mirrors gone keep p d d') {field e : Expr} {slot : Nat}
    (found : d.commitOf field slot = .ok e) :
    d'.commitOf field slot = .ok (e.mapVars (VarId.closeUp gone)) := by
  obtain ⟨w, committed, rfl⟩ := commitOf_eq_ok found
  unfold Draft.commitOf at found ⊢
  rw [mirrors.commits, committed]
  cases is_var : field.asVar? with
  | none =>
    rw [is_var] at found
    cases found
  | some v => rfl

/-- The drafts once a variable has a new name. -/
theorem define (mirrors : Mirrors gone keep p d d') {v t : VarId} (selected : keep t = p v) :
    Mirrors gone keep p { d with values := d.values.insert v t }
      { d' with values := d'.values.insert v (VarId.closeUp gone t) } := by
  refine ⟨mirrors.next, fun x => ?_, mirrors.commits, fun x s found => ?_⟩
  · rw [Assoc.get?_insert, Assoc.get?_insert, mirrors.values, apply_ite (Option.map _)]
    rfl
  · rw [Assoc.get?_insert] at found
    split at found
    · next same =>
      obtain rfl := Option.some.inj found
      rw [selected, same]
    · exact mirrors.kept x s found

/-- The drafts after a segment. -/
theorem place (mirrors : Mirrors gone keep p d d') (pruned : g.Pruned gone keep)
    (start : g.start = d.next) (selected : keep g.target = p g.source.var) :
    Mirrors gone keep p (d.place g) (d'.place (g.prune gone keep)) := by
  have defined := mirrors.define selected
  rw [pruned.closeUp_target] at defined
  refine ⟨?_, defined.values, fun slot => ?_, defined.kept⟩
  · show d'.next + (g.prune gone keep).size = (VarId.closeUp gone ⟨d.next + g.size⟩).index
    rw [← start, pruned.closeUp_end, mirrors.next, ← start]
    rfl
  · show (d'.commits.insertAll (g.slots.zip (g.prune gone keep).acks)).get? slot =
      ((d.commits.insertAll (g.slots.zip g.acks)).get? slot).map _
    rw [← pruned.map_closeUp_acks, List.zip_map_right]
    exact Assoc.get?_insertAll_map mirrors.commits _ slot

/-- The output tuple is made of the results of the same commits. -/
theorem outputSegment (mirrors : Mirrors gone keep p d d') (placed : d.outputSegment b = .ok g) :
    d'.outputSegment b = .ok (g.prune gone keep) := by
  obtain ⟨fields, commits, is_tuple, looked_up, rfl⟩ := outputSegment_eq_ok placed
  have mirrored : fields.zipIdx.mapM (fun entry => d'.commitOf entry.1 entry.2) =
      .ok (commits.map (Expr.mapVars (VarId.closeUp gone))) :=
    Except.mapM_map_eq_ok looked_up fun _ _ _ found => mirrors.commitOf found
  unfold Draft.outputSegment
  rw [is_tuple]
  show (fields.zipIdx.mapM fun entry => d'.commitOf entry.1 entry.2) >>= _ = _
  rw [mirrored, Except.ok_bind, mirrors.next, ← Expr.mapVarsAll_eq_map]
  rfl

/-- The code for an ordinary binding lacks releases if fewer variables die at it. -/
theorem valueSegment (mirrors : Mirrors gone keep p d d')
    (placed : d.valueSegment calls plan b = .ok g) (pruned : g.Pruned gone keep)
    (selected : keep g.target = p g.source.var)
    (fewer : u.dyingAt b.var = (plan.lastUses.dyingAt b.var).filter p) :
    d'.valueSegment calls { plan with lastUses := u } b = .ok (g.prune gone keep) := by
  obtain ⟨value, dying, found, looked_up, rfl⟩ := valueSegment_eq_ok placed
  have stay : ∀ i < (Lowering.hoisted plan.convention.param b.value).length,
      ⟨d.next + i⟩ ∉ gone :=
    fun i inside => pruned.stay i (Nat.lt_add_right _ (Nat.lt_succ_of_lt inside))
  have value_mirrored := mirrors.valueFor found stay
  have target := closeUp_add stay
  rw [← mirrors.next] at target
  have defined := mirrors.define selected
  have dying_mirrored := Except.mapM_filter_eq_ok looked_up fun v _ t found_t =>
    defined.valueOf found_t
  unfold Draft.valueSegment
  simp only [Segment.target, target] at dying_mirrored
  simp only [fewer, value_mirrored, dying_mirrored, Except.ok_bind]
  rw [mirrors.next]
  rfl

/-- One binding: under a plan by which fewer variables die, its code lacks releases. -/
theorem segment (mirrors : Mirrors gone keep p d d')
    (placed : d.segment calls plan b = .ok g) (pruned : g.Pruned gone keep)
    (selected : keep g.target = p g.source.var)
    (fewer : b.var ≠ plan.convention.output →
      u.dyingAt b.var = (plan.lastUses.dyingAt b.var).filter p) :
    d'.segment calls { plan with lastUses := u } b = .ok (g.prune gone keep) := by
  unfold Draft.segment at placed ⊢
  split at placed
  · next is_output =>
    rw [if_pos is_output]
    exact mirrors.outputSegment placed
  · next ordinary =>
    rw [if_neg ordinary]
    exact mirrors.valueSegment placed pruned selected (fewer ordinary)

/-- All bindings. -/
theorem segments (mirrors : Mirrors gone keep p d d') {bs : List Binding} {gs : List Segment}
    (laid : d.segments calls plan bs = .ok gs)
    (pruned : ∀ g ∈ gs, g.Pruned gone keep ∧ keep g.target = p g.source.var)
    (fewer : ∀ b ∈ bs, b.var ≠ plan.convention.output →
      u.dyingAt b.var = (plan.lastUses.dyingAt b.var).filter p) :
    d'.segments calls { plan with lastUses := u } bs =
      .ok (gs.map (Segment.prune gone keep)) := by
  induction bs generalizing d d' gs with
  | nil =>
    obtain rfl := Except.pure_eq_ok_iff.mp laid
    rfl
  | cons b bs ih =>
    obtain ⟨g, rest, placed, laid_rest, rfl⟩ := segments_cons_eq_ok laid
    rw [List.forall_mem_cons] at pruned fewer
    have start := (segment_eq_ok placed).2
    have mirrored := mirrors.segment placed pruned.1.1 pruned.1.2 fewer.1
    have tail := ih (mirrors.place pruned.1.1 start pruned.1.2) laid_rest pruned.2 fewer.2
    rw [Draft.segments, mirrored, Except.ok_bind, tail]
    rfl

end Mirrors

end Draft

/-! ### Two streaming forms -/

section

variable {f g : Func} {calls : StoreCalls} {plan : Plan} {u : LastUses}
  {tracked tracked' gone : List VarId} {keep p : VarId → Bool}

/-- The values of ordinary segments read variables that stay. -/
theorem Layout.notMem_of_read (l : Layout f calls plan) (planned : f.Planned plan tracked)
    (pruned : ∀ h ∈ l.segments, h.Pruned gone keep) {h : Segment} (mem : h ∈ l.segments)
    (ordinary : h.source.var ≠ plan.convention.output) {t : VarId} (read : t ∈ h.value.reads) :
    t ∉ gone := by
  obtain ⟨done, later, split⟩ := List.append_of_mem mem
  rcases (l.mem_reads_value planned mem ordinary).mp read with
    ⟨v, v_read, not_param, is_name⟩ | fetched
  · obtain ⟨k, k_mem, rfl⟩ := l.exists_done_of_read planned split v_read not_param
    have k_segment : k ∈ l.segments := split ▸ List.mem_append_left _ k_mem
    rw [← is_name, l.rename_var k k_segment]
    exact (pruned k k_segment).target_stays
  · exact (pruned h mem).fetched_stay fetched

/-- The result of a streaming form is the target of the segment for the output, so it closes up
with that. -/
theorem Layout.closeUp_rename_output (l : Layout f calls plan) (planned : f.Planned plan tracked)
    (pruned : ∀ h ∈ l.segments, h.Pruned gone keep) {plan' : Plan} (l' : Layout f calls plan')
    (segments : l'.segments = l.segments.map (Segment.prune gone keep)) :
    VarId.closeUp gone (l.rename plan.convention.output) = l'.rename plan.convention.output := by
  obtain ⟨b, b_mem, is_output⟩ := List.mem_map.mp planned.follows.output_bound
  obtain ⟨h, h_mem, rfl⟩ := l.exists_segment b_mem
  have mem' : h.prune gone keep ∈ l'.segments := segments ▸ List.mem_map_of_mem h_mem
  rw [← is_output, l.rename_var h h_mem, (pruned h h_mem).closeUp_target]
  exact (l'.rename_var _ mem').symm

attribute [ext] Func

/-- **Fewer releases.**  If fewer variables die under a second plan, the streaming form under it is
the first one without the releases of the others. -/
theorem Func.lower_eq_without (planned : f.Planned plan tracked)
    (planned' : f.Planned { plan with lastUses := u } tracked') {gs : List Segment}
    (laid : Draft.segments calls plan {} f.bindings = .ok gs)
    (lowered : f.lower calls plan = .ok g)
    (pruned : ∀ h ∈ gs, h.Pruned gone keep ∧ keep h.target = p h.source.var)
    (fewer : ∀ b ∈ f.bindings, b.var ≠ plan.convention.output →
      u.dyingAt b.var = (plan.lastUses.dyingAt b.var).filter p) :
    f.lower calls { plan with lastUses := u } = .ok (g.without gone) := by
  have laid' := Draft.mirrors_start.segments laid pruned fewer
  obtain ⟨g', lowered'⟩ := planned'.exists_lower calls
  have assembled := assembled_of_lower planned.follows laid lowered
  have assembled' := assembled_of_lower planned'.follows laid' lowered'
  have describes := (Layout.describes_of_lower planned laid lowered).1
  have describes' := (Layout.describes_of_lower planned' laid' lowered').1
  have all_pruned : ∀ h ∈ gs, h.Pruned gone keep := fun h mem => (pruned h mem).1
  have same : g' = g.without gone := by
    apply Func.ext
    · show g'.params = (g.params.filter (· ∉ gone)).map (VarId.closeUp gone)
      rw [describes.params, describes'.params]
      rfl
    · show g'.blocks = g.blocks.map (Block.without gone)
      rw [assembled'.blocks, assembled.blocks, Segment.map_without_blocks calls all_pruned]
    · show g'.result = g.result.mapVars (VarId.closeUp gone)
      rw [describes'.result, describes.result, Expr.mapVars,
        (Draft.layout planned laid).closeUp_rename_output planned all_pruned
          (Draft.layout planned' laid') rfl]
    · exact assembled'.resultTy.trans assembled.resultTy.symm
    · show g'.vars = remaining gone 0 g.vars
      have reads : ∀ h ∈ gs, h.source.var ≠ plan.convention.output →
          ∀ t ∈ h.value.reads, t ∉ gone := fun h mem ordinary t read =>
        (Draft.layout planned laid).notMem_of_read planned all_pruned mem ordinary read
      have contiguous : Segment.Contiguous ([] : List VarDecl).length gs :=
        Draft.contiguous_segments laid
      rw [assembled'.vars, assembled.vars]
      exact (Segment.remaining_declsFrom contiguous all_pruned reads).symm
    · exact assembled'.attrs.trans assembled.attrs.symm
  rw [lowered', same]

end

end ParamStream
