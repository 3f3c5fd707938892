import Mathlib.Data.List.Nodup
import Mathlib.Data.List.Perm.Subperm
import Mathlib.Data.Nat.Find
import ParamStream.Proofs.Assembly
import ParamStream.Proofs.Commits
import ParamStream.Proofs.Sufficiency
import ParamStream.Proofs.WellFormed

/-!
# Lowering with the interface of another function

Lowering is given the analyses of a function and trusts that they belong to it.  Where it needs a
commit that was never made it stops, and this is meant to give away an interface that was collected
from another function.  It does not always: only whether there is a commit to a slot is looked at,
not which variable was committed.  An interface that sends every slot to some variable, but not to
the right one, goes unnoticed and lowers to a function that stores the outputs at the wrong places.

So a foreign interface is noticed, or does no harm, in two cases: it leaves a slot of the output
tuple without a commit, or it gives all variables of the function the slots that they have.  There
is no third case.  If every slot is committed to, the foreign form succeeds, and should it be equal
to the right one, then so are their output tuples, hence the places of all commits, and what stands
around the commits has no room to move.

## Main definitions

* `Plan.withInterface` — a plan with the interface of another function;
* `OutputSlots.fedBy` — the slots fed by bindings.

## Main statements

* `Segment.slots_eq_of_entries` — the places of the commits determine the slots of each segment;
* `Func.Planned.lower_withInterface_eq_error_iff` — when a foreign interface is noticed;
* `Func.foreign_interface_harmless_iff`.
-/

namespace ParamStream

/-! ### Plans with other interfaces -/

/-- The plan with another interface in place of its own. -/
def Plan.withInterface (plan : Plan) (other : Interface) : Plan := { plan with interface := other }

/-- The slots fed by the variables of bindings. -/
def OutputSlots.fedBy (s : OutputSlots) (bs : List Binding) : List Nat :=
  bs.flatMap fun b => s.slots b.var

namespace Plan

@[simp] theorem convention_withInterface (plan : Plan) (other : Interface) :
    (plan.withInterface other).convention = plan.convention := rfl

@[simp] theorem interface_withInterface (plan : Plan) (other : Interface) :
    (plan.withInterface other).interface = other := rfl

@[simp] theorem lastUses_withInterface (plan : Plan) (other : Interface) :
    (plan.withInterface other).lastUses = plan.lastUses := rfl

/-- The inputs that the code for a binding fetches first, and the number of variables that die. -/
def outlineFor (plan : Plan) (b : Binding) : List Nat × Nat :=
  if b.var = plan.convention.output then ([], 0)
  else (Lowering.hoisted plan.convention.param b.value, (plan.lastUses.dyingAt b.var).length)

theorem flatMap_slotsFor (plan : Plan) {bs : List Binding}
    (ordinary : ∀ b ∈ bs, b.var ≠ plan.convention.output) :
    bs.flatMap plan.slotsFor = plan.interface.outputs.fedBy bs :=
  List.flatMap_congr fun b mem => if_neg (ordinary b mem)

end Plan

/-- The slots of an interface are the positions in some tuple. -/
theorem Func.exists_slots_of_interface {f : Func} {param output : VarId} {i : Interface}
    (answered : f.interface param output = .ok i) :
    ∃ xs, ∀ v, i.outputs.slots v = positionsFrom 0 xs v := by
  obtain ⟨bound, indexed, chosen⟩ := Except.bind_eq_ok_iff.mp answered
  split at chosen
  · next outputs is_last =>
    obtain rfl := Except.pure_eq_ok_iff.mp chosen
    obtain ⟨b, -, of_b⟩ := Except.exists_of_mem_mapM indexed (List.mem_of_getLast? is_last)
    obtain ⟨xs, -, -, slots⟩ := OutputSlots.ofBinding_eq_ok of_b
    exact ⟨xs, slots⟩
  · simp at chosen

/-! ### What the code for a binding depends on -/

namespace Segment

/-- What the size of a segment depends on besides its slots. -/
def outline (g : Segment) : List Nat × Nat := (g.fetches, g.dying.length)

theorem target_eq_of_outline {g h : Segment} (start : g.start = h.start)
    (same : g.outline = h.outline) : g.target = h.target := by
  have fetches : g.fetches = h.fetches := congrArg Prod.fst same
  rw [target, target, start, fetches]

theorem size_add_slots_of_outline {g h : Segment} (same : g.outline = h.outline) :
    g.size + h.slots.length = h.size + g.slots.length := by
  have fetches : g.fetches = h.fetches := congrArg Prod.fst same
  have dying : g.dying.length = h.dying.length := congrArg Prod.snd same
  simp only [size, fetches, dying]
  omega

theorem sizes_add_slots_of_outlines {gs hs : List Segment}
    (same : gs.map outline = hs.map outline) :
    sizes gs + (hs.flatMap slots).length = sizes hs + (gs.flatMap slots).length := by
  induction gs generalizing hs with
  | nil =>
    obtain rfl : hs = [] := by simpa using same.symm
    rfl
  | cons g gs ih =>
    obtain ⟨h, hs, rfl, of_first, of_rest⟩ := List.map_eq_cons_iff.mp same.symm
    have first := size_add_slots_of_outline of_first.symm
    have rest := ih of_rest.symm
    simp only [sizes_cons, List.flatMap_cons, List.length_append]
    omega

end Segment

namespace Draft

variable {calls : StoreCalls} {plan : Plan} {d : Draft} {bs : List Binding} {gs : List Segment}

theorem outline_segment {b : Binding} {g : Segment} (placed : d.segment calls plan b = .ok g) :
    g.outline = plan.outlineFor b := by
  unfold segment at placed
  unfold Plan.outlineFor
  split at placed
  · next is_output =>
    obtain ⟨_, _, _, _, rfl⟩ := outputSegment_eq_ok placed
    rw [if_pos is_output]
    rfl
  · next ordinary =>
    obtain ⟨_, dying, _, looked_up, rfl⟩ := valueSegment_eq_ok placed
    rw [if_neg ordinary]
    have lengths := congrArg List.length (Except.mapM_eq_ok_iff.mp looked_up)
    rw [List.length_map, List.length_map] at lengths
    rw [Segment.outline, lengths]

end Draft

/-! ### Places of commits -/

namespace Segment

theorem mem_entries_cons {g : Segment} {gs : List Segment} {entry : Nat × VarId} :
    entry ∈ entries (g :: gs) ↔ entry ∈ g.slots.zip g.acks ∨ entry ∈ entries gs := by
  rw [entries, List.flatMap_cons, List.mem_append]
  rfl

/-- The results of the commits of a segment come right after its value. -/
theorem mem_zip_acks {g : Segment} {slot : Nat} {w : VarId} :
    (slot, w) ∈ g.slots.zip g.acks ↔
      ∃ k, g.slots[k]? = some slot ∧ w = ⟨g.target.index + 1 + k⟩ := by
  have acked : ∀ k, k < g.slots.length → g.acks[k]? = some ⟨g.target.index + 1 + k⟩ := by
    intro k inside
    simp [acks, varsFrom, inside]
  rw [List.mem_iff_getElem?]
  constructor
  · rintro ⟨k, at_k⟩
    obtain ⟨at_slot, at_ack⟩ := List.getElem?_zip_eq_some.mp at_k
    have inside : k < g.slots.length := (List.getElem?_eq_some_iff.mp at_slot).1
    exact ⟨k, at_slot, Option.some.inj (at_ack.symm.trans (acked k inside))⟩
  · rintro ⟨k, at_slot, rfl⟩
    have inside : k < g.slots.length := (List.getElem?_eq_some_iff.mp at_slot).1
    exact ⟨k, List.getElem?_zip_eq_some.mpr ⟨at_slot, acked k inside⟩⟩

theorem owns_of_mem_zip_acks {g : Segment} {slot : Nat} {w : VarId}
    (mem : (slot, w) ∈ g.slots.zip g.acks) : g.Owns w :=
  owns_of_mem_acks (List.of_mem_zip mem).2

/-- What later segments commit, a segment does not. -/
theorem notMem_zip_acks_of_mem_entries {g : Segment} {gs : List Segment} {entry : Nat × VarId}
    (contiguous : Contiguous (g.start + g.size) gs) (mem : entry ∈ entries gs) :
    entry ∉ g.slots.zip g.acks := by
  intro own
  obtain ⟨h, h_mem, in_h⟩ := List.mem_flatMap.mp mem
  have above := contiguous.le_start h h_mem
  have inside := owns_of_mem_zip_acks own
  have inside' := owns_of_mem_zip_acks in_h
  simp only [Owns, Expr.InRange] at inside inside'
  omega

/-- If all commits of `g` are also made by `h` and the segments after it, then in step with `h` the
two commit to the same slots. -/
theorem getElem?_slots_of_entries {g h : Segment} {hs : List Segment}
    (target : g.target = h.target) (contiguous : Contiguous (h.start + h.size) hs)
    (entries_le : ∀ entry ∈ g.slots.zip g.acks, entry ∈ h.slots.zip h.acks ∨ entry ∈ entries hs)
    {k slot : Nat} (inside : k ≤ h.slots.length) (at_k : g.slots[k]? = some slot) :
    h.slots[k]? = some slot := by
  rcases entries_le _ (mem_zip_acks.mpr ⟨k, at_k, rfl⟩) with own | later
  · obtain ⟨k', at_k', same⟩ := mem_zip_acks.mp own
    obtain rfl : k = k' := by
      rw [target, VarId.mk.injEq] at same
      omega
    exact at_k'
  · -- A later segment starts at the place after the last commit of `h`, or further on, and
    -- computes its value before it commits.
    obtain ⟨e, e_mem, in_e⟩ := List.mem_flatMap.mp later
    obtain ⟨k', -, same⟩ := mem_zip_acks.mp in_e
    have after := contiguous.le_start e e_mem
    rw [target, VarId.mk.injEq] at same
    simp only [Segment.target, size] at same after
    omega

/-- **The places of the commits determine the slots.**  Two layouts of the same outline that make
the same commits at the same places divide them among their segments in the same way. -/
theorem slots_eq_of_entries {next : Nat} {gs hs : List Segment}
    (outlines : gs.map outline = hs.map outline) (contiguous : Contiguous next gs)
    (contiguous' : Contiguous next hs) (same : ∀ entry, entry ∈ entries gs ↔ entry ∈ entries hs) :
    gs.map slots = hs.map slots := by
  induction gs generalizing next hs with
  | nil =>
    obtain rfl : hs = [] := by simpa using outlines.symm
    rfl
  | cons g gs ih =>
    obtain ⟨h, hs, rfl⟩ : ∃ h hs', hs = h :: hs' := by
      cases hs with
      | nil => simp at outlines
      | cons h hs => exact ⟨h, hs, rfl⟩
    rw [List.map_cons, List.map_cons, List.cons.injEq] at outlines
    obtain ⟨outline_eq, outlines_rest⟩ := outlines
    obtain ⟨start, rest⟩ := contiguous
    obtain ⟨start', rest'⟩ := contiguous'
    simp only [mem_entries_cons] at same
    have target := target_eq_of_outline (start.trans start'.symm) outline_eq
    have slots_eq : g.slots = h.slots := List.eq_of_getElem?_of_le
      (fun k slot => getElem?_slots_of_entries target (start'.symm ▸ rest')
        fun entry mem => (same entry).mp (.inl mem))
      (fun k slot => getElem?_slots_of_entries target.symm (start.symm ▸ rest)
        fun entry mem => (same entry).mpr (.inl mem))
    have size_eq : g.size = h.size := by
      have sizes := size_add_slots_of_outline outline_eq
      rw [slots_eq] at sizes
      omega
    have acks_eq : g.acks = h.acks := by rw [acks, acks, target, slots_eq]
    rw [slots_eq, acks_eq] at same
    rw [List.map_cons, List.map_cons, slots_eq,
      ih outlines_rest rest (size_eq ▸ rest') fun entry => ?_]
    constructor
    · intro mem
      have not_first := notMem_zip_acks_of_mem_entries (start.symm ▸ rest) mem
      rw [slots_eq, acks_eq] at not_first
      exact ((same entry).mp (.inr mem)).resolve_left not_first
    · intro mem
      have not_first := notMem_zip_acks_of_mem_entries (start'.symm ▸ rest') mem
      exact ((same entry).mpr (.inr mem)).resolve_left not_first

end Segment

/-! ### The form under another interface -/

namespace Draft

variable {f : Func} {calls : StoreCalls} {plan : Plan} {tracked : List VarId} {other : Interface}
  {d : Draft}

/-- Another interface changes nothing but the slots of the code for an ordinary binding. -/
theorem valueSegment_withInterface (b : Binding) :
    d.valueSegment calls (plan.withInterface other) b =
      (d.valueSegment calls plan b).map
        fun g => { g with slots := other.outputs.slots b.var } := by
  simp only [valueSegment, Plan.withInterface, Except.map_bind, Except.map_pure]

/-- An ordinary binding can be laid out under any interface. -/
theorem Knows.exists_segment_withInterface (calls : StoreCalls) (other : Interface)
    {before after : List Binding} {b : Binding} (knows : d.Knows (before.map Binding.var))
    (planned : f.Planned plan tracked) (split : f.bindings = before ++ b :: after)
    (ordinary : b.var ≠ plan.convention.output) :
    ∃ h, d.segment calls (plan.withInterface other) b = .ok h ∧
      (d.place h).Knows ((before ++ [b]).map Binding.var) := by
  obtain ⟨g, placed, -⟩ := knows.exists_valueSegment calls planned split ordinary
  have placed' : d.segment calls (plan.withInterface other) b =
      .ok { g with slots := other.outputs.slots b.var } := by
    rw [segment, Plan.convention_withInterface, if_neg ordinary, valueSegment_withInterface, placed]
    rfl
  refine ⟨_, placed', ?_⟩
  rw [List.map_append, List.map_singleton, ← (segment_eq_ok placed').1]
  exact knows.place _

/-- Ordinary bindings can be laid out under any interface. -/
theorem Knows.exists_segments_withInterface (calls : StoreCalls) (other : Interface)
    {before bs after : List Binding} (knows : d.Knows (before.map Binding.var))
    (planned : f.Planned plan tracked) (split : f.bindings = before ++ (bs ++ after))
    (ordinary : ∀ b ∈ bs, b.var ≠ plan.convention.output) :
    ∃ hs, d.segments calls (plan.withInterface other) bs = .ok hs ∧
      (d.placeAll hs).Knows ((before ++ bs).map Binding.var) := by
  induction bs generalizing d before with
  | nil => exact ⟨[], rfl, by simpa using knows⟩
  | cons b bs ih =>
    rw [List.forall_mem_cons] at ordinary
    obtain ⟨h, placed, knows_next⟩ :=
      knows.exists_segment_withInterface calls other planned split ordinary.1
    obtain ⟨hs, laid, knows_all⟩ := ih knows_next (by simpa using split) ordinary.2
    refine ⟨h :: hs, ?_, by simpa using knows_all⟩
    rw [segments, placed, Except.ok_bind, laid]
    rfl

/-- A slot has an entry once a segment has committed to it. -/
theorem get?_commits_placeAll_eq_none_iff {hs : List Segment} {slot : Nat} :
    (Draft.placeAll {} hs).commits.get? slot = none ↔ slot ∉ hs.flatMap Segment.slots := by
  rw [commits_placeAll, ← Segment.map_fst_entries]
  constructor
  · intro missing mem
    obtain ⟨w, found⟩ := Assoc.exists_get?_insertAll (m := []) mem
    exact absurd (missing.symm.trans found) nofun
  · exact fun absent => Assoc.get?_insertAll_of_notMem absent

theorem commitOf_var (v : VarId) (slot : Nat) :
    d.commitOf (.var v) slot =
      match d.commits.get? slot with
      | some w => .ok (.var w)
      | none => .error (.unmapped v) := rfl

/-- The output can be laid out unless a slot of its tuple was not committed to, and the first such
slot is to blame. -/
theorem outputSegment_eq_error_iff (d : Draft) (out : VarId) (xs : List VarId) (e : StreamError) :
    d.outputSegment ⟨out, .tuple (xs.map .var)⟩ = .error e ↔
      ∃ slot v, xs[slot]? = some v ∧ e = .unmapped v ∧ d.commits.get? slot = none ∧
        ∀ k < slot, d.commits.get? k ≠ none := by
  have fails : ∀ slot v, d.commitOf (.var v) slot = .error e ↔
      e = .unmapped v ∧ d.commits.get? slot = none := by
    intro slot v
    rw [commitOf_var]
    cases d.commits.get? slot <;> simp [eq_comm]
  have succeeds : ∀ slot v, (∃ c, d.commitOf (.var v) slot = .ok c) ↔
      d.commits.get? slot ≠ none := by
    intro slot v
    rw [commitOf_var]
    cases d.commits.get? slot <;> simp
  have at_entry : ∀ (k : Nat) (entry : Expr × Nat), (xs.map Expr.var).zipIdx[k]? = some entry ↔
      ∃ v, xs[k]? = some v ∧ (.var v, k) = entry := by
    intro k entry
    rw [List.getElem?_zipIdx, List.getElem?_map, Option.map_map, Option.map_eq_some_iff]
    simp
  have traversal : d.outputSegment ⟨out, .tuple (xs.map .var)⟩ = .error e ↔
      (xs.map Expr.var).zipIdx.mapM (fun entry => d.commitOf entry.1 entry.2) = .error e := by
    rw [outputSegment, Except.bind_eq_error_iff]
    simp [pure, Except.pure]
  rw [traversal, Except.mapM_eq_error_iff]
  constructor
  · rintro ⟨slot, entry, at_slot, stops, earlier⟩
    obtain ⟨v, is_v, rfl⟩ := (at_entry slot entry).mp at_slot
    obtain ⟨is_error, missing⟩ := (fails slot v).mp stops
    refine ⟨slot, v, is_v, is_error, missing, fun k below => ?_⟩
    have inside : k < xs.length := by
      have bound := (List.getElem?_eq_some_iff.mp is_v).1
      omega
    exact (succeeds k xs[k]).mp (earlier k below (.var xs[k], k) (by simp [inside]))
  · rintro ⟨slot, v, is_v, is_error, missing, earlier⟩
    refine ⟨slot, (.var v, slot), by simp [is_v], (fails slot v).mpr ⟨is_error, missing⟩,
      fun k below entry at_k => ?_⟩
    obtain ⟨u, -, rfl⟩ := (at_entry k entry).mp at_k
    exact (succeeds k u).mpr (earlier k below)

end Draft

namespace Func

variable {f : Func} {calls : StoreCalls} {plan : Plan} {tracked : List VarId} {other : Interface}

/-- Lowering fails if the bindings cannot be laid out. -/
theorem lower_eq_error_of_segments {e : StreamError}
    (failed : Draft.segments calls plan {} f.bindings = .error e) :
    f.lower calls plan = .error e := by
  have viewed := f.map_view_lowered calls plan
  rw [failed] at viewed
  have stopped : f.lowered calls plan = .error e := Except.map_eq_error_iff.mp viewed
  rw [lower, ← lowered, stopped]
  rfl

/-- **When a foreign interface is noticed.**  Lowering with it fails exactly if a slot of the output
tuple is fed by no binding before, and the first such slot is to blame. -/
theorem Planned.lower_withInterface_eq_error_iff (planned : f.Planned plan tracked)
    (o : OutputTuple f plan.convention plan.interface) (calls : StoreCalls) (other : Interface)
    {e : StreamError} :
    f.lower calls (plan.withInterface other) = .error e ↔
      ∃ slot v, o.fields[slot]? = some v ∧ e = .unmapped v ∧
        slot ∉ other.outputs.fedBy o.before ∧ ∀ k < slot, k ∈ other.outputs.fedBy o.before := by
  have before_ordinary : ∀ b ∈ o.before, b.var ≠ plan.convention.output :=
    fun b mem => o.var_ne_output planned.follows b (List.mem_append_left _ mem)
  have after_ordinary : ∀ b ∈ o.after, b.var ≠ plan.convention.output :=
    fun b mem => o.var_ne_output planned.follows b (List.mem_append_right _ mem)
  have knows_none : Draft.Knows (([] : List Binding).map Binding.var) {} := nofun
  obtain ⟨hs, laid, knows⟩ :=
    knows_none.exists_segments_withInterface calls other planned o.split before_ordinary
  have committed : ∀ slot, (Draft.placeAll {} hs).commits.get? slot = none ↔
      slot ∉ other.outputs.fedBy o.before := by
    intro slot
    rw [Draft.get?_commits_placeAll_eq_none_iff, Draft.flatMap_slots_segments laid,
      (plan.withInterface other).flatMap_slotsFor before_ordinary]
    rfl
  have noticed :=
    (Draft.placeAll {} hs).outputSegment_eq_error_iff plan.convention.output o.fields e
  simp only [committed, ne_eq, Classical.not_not] at noticed
  rw [← noticed]
  have appended := Draft.segments_append laid
    (⟨plan.convention.output, .tuple (o.fields.map .var)⟩ :: o.after)
  rw [← o.split, Draft.segments, Draft.segment, Plan.convention_withInterface, if_pos rfl]
    at appended
  cases placed : (Draft.placeAll {} hs).outputSegment
      ⟨plan.convention.output, .tuple (o.fields.map .var)⟩ with
  | error e' =>
    rw [placed] at appended
    simp [lower_eq_error_of_segments appended]
  | ok h =>
    have source : h.source.var = plan.convention.output := by
      obtain ⟨_, _, _, _, rfl⟩ := Draft.outputSegment_eq_ok placed
      rfl
    let output : Binding := ⟨plan.convention.output, .tuple (o.fields.map .var)⟩
    have knows_output :
        ((Draft.placeAll {} hs).place h).Knows ((o.before ++ [output]).map Binding.var) := by
      simpa [source] using knows.place h
    have split_after : f.bindings = (o.before ++ [output]) ++ (o.after ++ []) := by
      simpa using o.split
    obtain ⟨rest, laid_rest, knows_all⟩ :=
      knows_output.exists_segments_withInterface calls other planned split_after after_ordinary
    rw [placed, Except.ok_bind, laid_rest] at appended
    have follows : f.Follows (plan.withInterface other).convention := planned.follows
    obtain ⟨g, lowered⟩ := exists_lower_of_segments follows appended
      (by simpa [o.split, Draft.placeAll] using knows_all)
    simp [lowered]

/-! ### When it does no harm -/

/-- An interface that gives the variables of a function the slots that they have lowers it as its
own does. -/
theorem lower_withInterface_of_slots_eq (calls : StoreCalls)
    (same : ∀ b ∈ f.bindings, b.var ≠ plan.convention.output →
      other.outputs.slots b.var = plan.interface.outputs.slots b.var) :
    f.lower calls (plan.withInterface other) = f.lower calls plan := by
  have by_binding : ∀ b ∈ f.bindings, ∀ s : Lowering,
      s.lowerBinding f calls (plan.withInterface other) b = s.lowerBinding f calls plan b := by
    intro b mem s
    unfold Lowering.lowerBinding
    rw [Plan.convention_withInterface]
    split
    · rfl
    · next ordinary =>
      have slots : (other.outputs.get? b.var).getD [] =
          (plan.interface.outputs.get? b.var).getD [] := same b mem ordinary
      simp only [Lowering.lowerValue, Plan.convention_withInterface, Plan.interface_withInterface,
        Plan.lastUses_withInterface, slots]
  have by_block : ∀ block ∈ f.blocks, ∀ s : Lowering,
      s.lowerBlock f calls (plan.withInterface other) block = s.lowerBlock f calls plan block := by
    intro block block_mem s
    exact List.foldlM_congr_of_mem fun b mem s =>
      by_binding b (List.mem_flatMap.mpr ⟨block, block_mem, mem⟩) s
  have lowered_eq : f.lowered calls (plan.withInterface other) = f.lowered calls plan :=
    List.foldlM_congr_of_mem by_block
  rw [lower, ← lowered, lowered_eq, Plan.convention_withInterface]
  rfl

/-- What is known of the code of a form, whatever the plan: it is that of the segments, and the
result is the value of the segment for the output. -/
theorem code_of_lower {h : Func} {gs : List Segment} (follows : f.Follows plan.convention)
    (laid : Draft.segments calls plan {} f.bindings = .ok gs)
    (lowered : f.lower calls plan = .ok h) :
    h.bindings = gs.flatMap (Segment.code calls) ∧ h.vars.length = Segment.sizes gs ∧
      ∃ g ∈ gs, g.source.var = plan.convention.output ∧ h.result = .var g.target := by
  obtain ⟨s, result, reached, rerouted, rfl⟩ := lower_eq_ok_iff.mp lowered
  have viewed := f.map_view_lowered calls plan
  rw [reached, laid] at viewed
  obtain ⟨draft, code⟩ := Prod.mk.inj (Except.ok.inj viewed)
  rw [follows.inputReads_result]
  refine ⟨code, ?_, ?_⟩
  · show s.draft.next = _
    rw [draft, Draft.next_placeAll, Nat.zero_add]
  · rw [follows.result, Expr.reroute_eq_ok_iff _ _ (Expr.extends_getD s.values _)] at rerouted
    obtain ⟨stays, mapped, rfl⟩ := rerouted
    have not_param : plan.convention.output ≠ plan.convention.param := by
      simpa [Expr.escapes] using stays
    obtain ⟨w, found⟩ := mapped plan.convention.output (by simp [Expr.reads]) not_param
    have entry := found
    rw [Layout.values_of_lowered laid reached] at entry
    rcases Assoc.get?_insertAll_eq_some entry with mem | absent
    · obtain ⟨g, g_mem, same⟩ := List.mem_map.mp mem
      obtain ⟨is_output, rfl⟩ := Prod.mk.inj same
      refine ⟨g, g_mem, is_output, ?_⟩
      show Expr.var ((s.values.get? plan.convention.output).getD _) = _
      rw [found, Option.getD_some]
    · simp at absent

end Func

namespace Draft

variable {calls : StoreCalls} {plan : Plan} {bs : List Binding} {gs : List Segment}

/-- The value of the segment for the output is the tuple of commits, one for each field. -/
theorem output_value (laid : Draft.segments calls plan {} bs = .ok gs) {g : Segment} (mem : g ∈ gs)
    {fields : List Expr} (source : g.source = ⟨plan.convention.output, .tuple fields⟩) :
    ∃ ack : Nat → VarId,
      g.value = .tuple ((List.range fields.length).map fun slot => .var (ack slot)) ∧
      ∀ slot < fields.length, (slot, ack slot) ∈ Segment.entries gs := by
  obtain ⟨earlier, later, split⟩ := List.append_of_mem mem
  have placed := segment_of_split laid split
  rw [source, segment, if_pos rfl] at placed
  obtain ⟨_, commits, ⟨⟩, looked_up, whole⟩ := outputSegment_eq_ok placed
  obtain ⟨found, commits_eq⟩ := commits_of_looked_up looked_up
  refine ⟨fun slot => ((Draft.placeAll {} earlier).commits.get? slot).getD default, ?_, ?_⟩
  · rw [whole, commits_eq]
  · intro slot inside
    obtain ⟨w, is_w⟩ := found slot inside
    show (slot, ((Draft.placeAll {} earlier).commits.get? slot).getD default) ∈ _
    rw [is_w, Option.getD_some]
    rw [commits_placeAll] at is_w
    rcases Assoc.get?_insertAll_eq_some is_w with entry | absent
    · rw [split, Segment.entries, List.flatMap_append]
      exact List.mem_append_left _ entry
    · simp at absent

end Draft

namespace Func

variable {f : Func} {calls : StoreCalls} {plan : Plan} {tracked : List VarId} {other : Interface}

/-- Entries of distinct keys below a bound are among others that share an entry for each key. -/
theorem mem_of_shared {entries more : List (Nat × VarId)} {bound : Nat}
    (distinct : (entries.map Prod.fst).Nodup) (inside : ∀ slot ∈ entries.map Prod.fst, slot < bound)
    (shared : ∀ slot < bound, ∃ w, (slot, w) ∈ entries ∧ (slot, w) ∈ more) :
    ∀ entry ∈ entries, entry ∈ more := by
  intro entry mem
  obtain ⟨w, here, there⟩ := shared entry.1 (inside _ (List.mem_map_of_mem mem))
  rw [List.inj_on_of_nodup_map distinct mem here rfl]
  exact there

/-- If another interface lowers a function to the form that its own interface gives, then for each
field of the output tuple there is a commit at the same place in both. -/
theorem Planned.shared_entry_of_lower_eq {h : Func} {gs hs : List Segment}
    (planned : f.Planned plan tracked) (o : OutputTuple f plan.convention plan.interface)
    (laid : Draft.segments calls plan {} f.bindings = .ok gs)
    (laid' : Draft.segments calls (plan.withInterface other) {} f.bindings = .ok hs)
    (own : f.lower calls plan = .ok h)
    (foreign : f.lower calls (plan.withInterface other) = .ok h) :
    ∀ slot < o.fields.length,
      ∃ w, (slot, w) ∈ Segment.entries gs ∧ (slot, w) ∈ Segment.entries hs := by
  obtain ⟨code, -, g, g_mem, g_output, result⟩ := code_of_lower planned.follows laid own
  have follows' : f.Follows (plan.withInterface other).convention := planned.follows
  obtain ⟨code', -, g', g'_mem, g'_output, result'⟩ := code_of_lower follows' laid' foreign
  obtain ⟨ack, value, entry⟩ := Draft.output_value laid g_mem
    (o.eq_of_var_eq planned.follows (Draft.source_mem_of_segments laid g_mem) g_output)
  obtain ⟨ack', value', entry'⟩ := Draft.output_value laid' g'_mem
    (o.eq_of_var_eq planned.follows (Draft.source_mem_of_segments laid' g'_mem) g'_output)
  have distinct : (h.bindings.map Binding.var).Nodup := by
    rw [vars_of_lower own]
    exact nodup_varsFrom _ _
  have mem : (⟨g.target, g.value⟩ : Binding) ∈ h.bindings :=
    code ▸ List.mem_flatMap.mpr ⟨g, g_mem, g.value_mem_code calls⟩
  have mem' : (⟨g'.target, g'.value⟩ : Binding) ∈ h.bindings :=
    code' ▸ List.mem_flatMap.mpr ⟨g', g'_mem, g'.value_mem_code calls⟩
  -- Both tuples are bound to the result, which is bound once.
  have target : g.target = g'.target := Expr.var.inj (result.symm.trans result')
  have values : g.value = g'.value :=
    (Binding.mk.inj (List.inj_on_of_nodup_map distinct mem mem' target)).2
  rw [value, value', Expr.tuple.injEq, List.map_inj_left, List.length_map] at values
  rw [List.length_map] at entry entry'
  intro slot inside
  have same := Expr.var.inj (values slot (List.mem_range.mpr inside))
  exact ⟨ack slot, entry slot inside, same ▸ entry' slot inside⟩

/-- If an interface whose slots are positions lowers a function to the form that its own interface
gives, then the two give its variables the same slots. -/
theorem Planned.slots_eq_of_lower_eq {h : Func} {ys : List VarId} (planned : f.Planned plan tracked)
    (slots : ∀ v, other.outputs.slots v = positionsFrom 0 ys v)
    (own : f.lower calls plan = .ok h)
    (foreign : f.lower calls (plan.withInterface other) = .ok h) :
    ∀ b ∈ f.bindings, b.var ≠ plan.convention.output →
      other.outputs.slots b.var = plan.interface.outputs.slots b.var := by
  obtain ⟨o⟩ := planned.follows.exists_outputTuple planned.interface
  obtain ⟨gs, laid⟩ := Layout.exists_segments_of_lower own
  obtain ⟨hs, laid'⟩ := Layout.exists_segments_of_lower foreign
  have shared : ∀ slot < o.fields.length,
      ∃ w, (slot, w) ∈ Segment.entries gs ∧ (slot, w) ∈ Segment.entries hs :=
    planned.shared_entry_of_lower_eq o laid laid' own foreign
  have outlines : gs.map Segment.outline = hs.map Segment.outline :=
    (Draft.map_segments_eq (fun _ _ _ => Draft.outline_segment) laid).trans
      (Draft.map_segments_eq (fun _ _ _ => Draft.outline_segment) laid').symm
  have bound_once := planned.follows.ordered.nodup
  have distinct : ((Segment.entries gs).map Prod.fst).Nodup := by
    rw [Segment.map_fst_entries, Draft.flatMap_slots_segments laid]
    exact plan.nodup_flatMap_slotsFor o.slots bound_once
  have distinct' : ((Segment.entries hs).map Prod.fst).Nodup := by
    rw [Segment.map_fst_entries, Draft.flatMap_slots_segments laid']
    exact (plan.withInterface other).nodup_flatMap_slotsFor slots bound_once
  have inside : ∀ slot ∈ (Segment.entries gs).map Prod.fst, slot < o.fields.length := by
    rw [Segment.map_fst_entries, Draft.flatMap_slots_segments laid]
    intro slot mem
    obtain ⟨b, -, in_b⟩ := List.mem_flatMap.mp mem
    exact (List.getElem?_eq_some_iff.mp (Plan.getElem?_of_mem_slotsFor o.slots in_b)).1
  -- The form has room for one commit to each field, so that the foreign interface has no others.
  have count : ((Segment.entries hs).map Prod.fst).length ≤ o.fields.length := by
    have room := Segment.sizes_add_slots_of_outlines outlines
    have follows' : f.Follows (plan.withInterface other).convention := planned.follows
    rw [← (code_of_lower planned.follows laid own).2.1,
      ← (code_of_lower follows' laid' foreign).2.1, ← Segment.map_fst_entries,
      ← Segment.map_fst_entries] at room
    have few := (List.subperm_of_subset distinct
      fun slot mem => List.mem_range.mpr (inside slot mem)).length_le
    rw [List.length_range] at few
    omega
  have inside' : ∀ slot ∈ (Segment.entries hs).map Prod.fst, slot < o.fields.length := by
    have all : List.range o.fields.length ⊆ (Segment.entries hs).map Prod.fst := by
      intro slot mem
      obtain ⟨w, -, entry⟩ := shared slot (List.mem_range.mp mem)
      exact List.mem_map_of_mem entry
    have perm := (List.subperm_of_subset List.nodup_range all).perm_of_length_le
      (by simpa using count)
    intro slot mem
    exact List.mem_range.mp (perm.mem_iff.mpr mem)
  have same : ∀ entry, entry ∈ Segment.entries gs ↔ entry ∈ Segment.entries hs := fun entry =>
    ⟨mem_of_shared distinct inside shared entry,
      mem_of_shared distinct' inside' (fun slot inside =>
        (shared slot inside).imp fun _ => And.symm) entry⟩
  have by_segment := Segment.slots_eq_of_entries outlines (Draft.contiguous_segments laid)
    (Draft.contiguous_segments laid') same
  rw [Draft.map_segments_eq (fun _ _ _ => Draft.slots_segment) laid,
    Draft.map_segments_eq (fun _ _ _ => Draft.slots_segment) laid', List.map_inj_left] at by_segment
  intro b mem ordinary
  have slots_eq := by_segment b mem
  rw [Plan.slotsFor, Plan.slotsFor, Plan.convention_withInterface, if_neg ordinary,
    if_neg ordinary] at slots_eq
  exact slots_eq.symm

/-- **When the interface of another function is noticed, and when it does no harm.**  Lowering a
function with the interface of any function, for any parameter and output, fails exactly if some
field of the output tuple has its slot fed by no earlier binding, and the first such field is named.
It fails so, or gives the form that the function's own interface gives, exactly if there is such a
field or the variables have the same slots in both interfaces: an interface that feeds every slot,
and not from the right variables, lowers to another function and no error is seen. -/
theorem foreign_interface_harmless_iff {g : Func} {intermediates : Bool} {param output : VarId}
    (calls : StoreCalls) (has_plan : f.plan intermediates = .ok plan)
    (answered : g.interface param output = .ok other) :
    ∃ (before after : List Binding) (xs : List VarId),
      f.bindings = before ++ ⟨plan.convention.output, .tuple (xs.map .var)⟩ :: after ∧
      (∀ e, f.lower calls (plan.withInterface other) = .error e ↔
        ∃ (slot : Nat) (v : VarId), xs[slot]? = some v ∧ e = .unmapped v ∧
          slot ∉ other.outputs.fedBy before ∧ ∀ k < slot, k ∈ other.outputs.fedBy before) ∧
      (((∃ v, f.lower calls (plan.withInterface other) = .error (.unmapped v)) ∨
          f.lower calls (plan.withInterface other) = f.lower calls plan) ↔
        (∃ slot < xs.length, slot ∉ other.outputs.fedBy before) ∨
          ∀ b ∈ f.bindings, b.var ≠ plan.convention.output →
            other.outputs.slots b.var = plan.interface.outputs.slots b.var) := by
  have planned := Planned.of_plan has_plan
  obtain ⟨o⟩ := planned.follows.exists_outputTuple planned.interface
  have fails := fun e => planned.lower_withInterface_eq_error_iff (e := e) o calls other
  refine ⟨o.before, o.after, o.fields, o.split, fails, ?_, ?_⟩
  · rintro (⟨v, failed⟩ | same)
    · obtain ⟨slot, _, at_slot, -, missing, -⟩ := (fails _).mp failed
      exact .inl ⟨slot, (List.getElem?_eq_some_iff.mp at_slot).1, missing⟩
    · obtain ⟨ys, slots⟩ := exists_slots_of_interface answered
      obtain ⟨h, own⟩ := planned.exists_lower calls
      exact .inr (planned.slots_eq_of_lower_eq slots own (same.trans own))
  · rintro (missing | same)
    · -- The first field without a commit is the one that is blamed.
      obtain ⟨inside, unfed⟩ := Nat.find_spec missing
      have fed_below : ∀ k < Nat.find missing, k ∈ other.outputs.fedBy o.before := by
        intro k below
        have fed := Nat.find_min missing below
        simpa [Nat.lt_trans below inside] using fed
      exact .inl ⟨o.fields[Nat.find missing], (fails _).mpr
        ⟨Nat.find missing, _, List.getElem?_eq_getElem inside, rfl, unfed, fed_below⟩⟩
    · exact .inr (lower_withInterface_of_slots_eq calls same)

end Func

/-- Two tensors come in and some of the variables go out, the tensors being 1 and 2. -/
def Sample.unpacked (outputs : List VarId) : Func where
  params := [⟨0⟩]
  blocks :=
    [⟨.dataflow,
      [⟨⟨1⟩, .proj (.var ⟨0⟩) 0⟩,
        ⟨⟨2⟩, .proj (.var ⟨0⟩) 1⟩,
        ⟨⟨3⟩, .tuple (outputs.map .var)⟩]⟩]
  result := .var ⟨3⟩
  resultTy := .tuple (outputs.map fun _ => .tensor)
  vars :=
    [⟨⟨1⟩, .tuple [.tensor, .tensor]⟩, ⟨⟨2⟩, .tensor⟩, ⟨⟨3⟩, .tensor⟩,
      ⟨⟨5⟩, .tuple (outputs.map fun _ => .tensor)⟩]
  attrs := []

namespace Func

open Sample in
/-- The interface of a function that puts out the first tensor alone leaves no commit for the
second. -/
theorem foreign_interface_noticed : ∃ plan other before after, ∃ xs : List VarId,
    (unpacked [⟨1⟩, ⟨2⟩]).plan false = .ok plan ∧
      (unpacked [⟨1⟩]).interface ⟨0⟩ ⟨3⟩ = .ok other ∧
      (unpacked [⟨1⟩, ⟨2⟩]).lower (StoreCalls.intern tensorNames).1 (plan.withInterface other) =
        .error (.unmapped ⟨2⟩) ∧
      (unpacked [⟨1⟩, ⟨2⟩]).bindings = before ++ ⟨⟨3⟩, .tuple (xs.map .var)⟩ :: after ∧
      ∃ slot : Nat, xs[slot]? = some ⟨2⟩ ∧ slot ∉ other.outputs.fedBy before ∧
        ∀ k < slot, k ∈ other.outputs.fedBy before := by
  have has_plan : (unpacked [⟨1⟩, ⟨2⟩]).plan false = .ok _ := rfl
  have answered : (unpacked [⟨1⟩]).interface ⟨0⟩ ⟨3⟩ = .ok _ := rfl
  obtain ⟨before, after, xs, split, fails, -⟩ :=
    foreign_interface_harmless_iff (StoreCalls.intern tensorNames).1 has_plan answered
  obtain ⟨slot, _, at_slot, ⟨⟩, unfed, fed_below⟩ := (fails (.unmapped ⟨2⟩)).mp rfl
  exact ⟨_, _, before, after, xs, has_plan, answered, rfl, split, slot, at_slot, unfed, fed_below⟩

open Sample in
/-- The interface of a function that puts out the tensors in the other order is not noticed: the
form stores each at the slot of the other. -/
theorem foreign_interface_unnoticed : ∃ plan other g h,
    (unpacked [⟨1⟩, ⟨2⟩]).plan false = .ok plan ∧
      (unpacked [⟨2⟩, ⟨1⟩]).interface ⟨0⟩ ⟨3⟩ = .ok other ∧
      (unpacked [⟨1⟩, ⟨2⟩]).lower (StoreCalls.intern tensorNames).1 (plan.withInterface other) =
        .ok g ∧
      (unpacked [⟨1⟩, ⟨2⟩]).lower (StoreCalls.intern tensorNames).1 plan = .ok h ∧
      g.callArgs (StoreCalls.intern tensorNames).2 .commit =
        [commitArgs ⟨0⟩ 1, commitArgs ⟨3⟩ 0] ∧
      h.callArgs (StoreCalls.intern tensorNames).2 .commit =
        [commitArgs ⟨0⟩ 0, commitArgs ⟨3⟩ 1] ∧
      g ≠ h := by
  refine ⟨_, _, _, _, rfl, rfl, rfl, rfl, rfl, rfl, fun same => ?_⟩
  have commits : [commitArgs ⟨0⟩ 1, commitArgs ⟨3⟩ 0] = [commitArgs ⟨0⟩ 0, commitArgs ⟨3⟩ 1] :=
    congrArg (fun g => g.callArgs (StoreCalls.intern tensorNames).2 .commit) same
  simp [commitArgs] at commits

end Func

end ParamStream
