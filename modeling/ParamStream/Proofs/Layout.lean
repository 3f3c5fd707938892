import ParamStream.Proofs.Plan
import ParamStream.Proofs.Segment

/-!
# The layout of a streaming form

A `Layout` is the streaming form of a function seen from outside: a segment of code for each
binding, one after the other, over two fixed tables that say where the value of an old variable
and the result of a commit are found.  While lowering is under way these tables are maps that
still grow; since every variable is bound once and every slot fed once, no entry is ever
overwritten, and what a segment looks up in the maps of its own time is what the final ones say.
`Layout.exists_of_lower` draws that conclusion, and every later proof about the code of a
streaming form starts from a layout.

## Main definitions

* `Segment.Contiguous` — each segment starts where the one before it ends;
* `Segment.Owns` — the variables that the code of a segment binds;
* `Plan.slotsFor`, `Segment.entries` — the slots committed to, by binding and with their commits;
* `Layout`, `Layout.Describes`.
-/

namespace ParamStream

/-! ### Contiguous segments -/

namespace Segment

/-- Each segment starts where the one before it ends, and the first one at `next`. -/
def Contiguous : Nat → List Segment → Prop
  | _, [] => True
  | next, g :: gs => g.start = next ∧ Contiguous (next + g.size) gs

/-- The number of variables that the code of the segments binds. -/
def sizes : List Segment → Nat
  | [] => 0
  | g :: gs => g.size + sizes gs

@[simp] theorem sizes_nil : sizes [] = 0 := rfl

@[simp] theorem sizes_cons (g : Segment) (gs : List Segment) :
    sizes (g :: gs) = g.size + sizes gs := rfl

/-- The variable is bound by the code of the segment. -/
def Owns (g : Segment) (t : VarId) : Prop := Expr.InRange g.start g.size t

theorem owns_target (g : Segment) : g.Owns g.target := by
  simp only [Owns, Expr.InRange, target, size]
  omega

theorem owns_of_mem_fetched {g : Segment} {t : VarId} (mem : t ∈ g.fetched) : g.Owns t := by
  have range := mem_varsFrom.mp mem
  simp only [Owns, Expr.InRange, size] at range ⊢
  omega

theorem owns_of_mem_acks {g : Segment} {t : VarId} (mem : t ∈ g.acks) : g.Owns t := by
  have range := mem_varsFrom.mp mem
  simp only [Owns, Expr.InRange, target, size] at range ⊢
  omega

theorem owns_of_mem_code {calls : StoreCalls} {g : Segment} {b : Binding}
    (mem : b ∈ g.code calls) : g.Owns b.var := by
  obtain ⟨k, at_k, is_var⟩ := mem_numbered.mp mem
  have inside : k < (g.exprs calls).length := (List.getElem?_eq_some_iff.mp at_k).1
  rw [length_exprs] at inside
  simp only [Owns, Expr.InRange, is_var]
  omega

/-- The target is not one of the variables fetched before it. -/
theorem target_notMem_fetched (g : Segment) : g.target ∉ g.fetched := by
  intro mem
  have range := mem_varsFrom.mp mem
  simp only [Expr.InRange, target] at range
  omega

/-- The results of commits are no fetched variables. -/
theorem notMem_fetched_of_mem_acks {g : Segment} {t : VarId} (mem : t ∈ g.acks) :
    t ∉ g.fetched := by
  intro again
  have ack := mem_varsFrom.mp mem
  have fetched := mem_varsFrom.mp again
  simp only [Expr.InRange, target] at ack fetched
  omega

/-- The target is not the result of a commit. -/
theorem target_notMem_acks (g : Segment) : g.target ∉ g.acks := by
  intro mem
  have range := mem_varsFrom.mp mem
  simp only [Expr.InRange] at range
  omega

namespace Contiguous

variable {next : Nat} {gs : List Segment}

theorem append_iff {hs : List Segment} :
    Contiguous next (gs ++ hs) ↔ Contiguous next gs ∧ Contiguous (next + sizes gs) hs := by
  induction gs generalizing next with
  | nil => simp [Contiguous]
  | cons g gs ih => simp [Contiguous, ih, and_assoc, Nat.add_assoc]

/-- No segment starts before the first one. -/
theorem le_start (contiguous : Contiguous next gs) : ∀ g ∈ gs, next ≤ g.start := by
  induction gs generalizing next with
  | nil => simp
  | cons g gs ih =>
    obtain ⟨start, rest⟩ := contiguous
    intro h mem
    rcases List.mem_cons.mp mem with rfl | mem
    · omega
    · have bound := ih rest h mem
      omega

/-- No segment ends after the last one. -/
theorem end_le (contiguous : Contiguous next gs) :
    ∀ g ∈ gs, g.start + g.size ≤ next + sizes gs := by
  induction gs generalizing next with
  | nil => simp
  | cons g gs ih =>
    obtain ⟨start, rest⟩ := contiguous
    intro h mem
    rw [sizes_cons]
    rcases List.mem_cons.mp mem with rfl | mem
    · omega
    · have bound := ih rest h mem
      omega

/-- What an earlier segment binds comes before what a later one binds. -/
theorem owns_lt {earlier later : List Segment} (contiguous : Contiguous next (earlier ++ later))
    {g h : Segment} (g_mem : g ∈ earlier) (h_mem : h ∈ later) {t u : VarId} (owns : g.Owns t)
    (owns' : h.Owns u) : t.index < u.index := by
  obtain ⟨first, second⟩ := append_iff.mp contiguous
  have ends := first.end_le g g_mem
  have starts := second.le_start h h_mem
  simp only [Owns, Expr.InRange] at owns owns'
  omega

/-- A variable is bound by one segment only. -/
theorem eq_of_owns (contiguous : Contiguous next gs) {g h : Segment} (g_mem : g ∈ gs)
    (h_mem : h ∈ gs) {t : VarId} (owns : g.Owns t) (owns' : h.Owns t) : g = h := by
  obtain ⟨earlier, later, rfl⟩ := List.append_of_mem g_mem
  rcases List.mem_append.mp h_mem with before | after
  · exact absurd (contiguous.owns_lt before List.mem_cons_self owns' owns) (Nat.lt_irrefl _)
  rcases List.mem_cons.mp after with same | after
  · exact same.symm
  · rw [List.append_cons] at contiguous
    exact absurd (contiguous.owns_lt (by simp) after owns owns') (Nat.lt_irrefl _)

end Contiguous

end Segment

/-! ### The maps as lowering goes on -/

namespace Draft

/-- The map of values after segments: an entry for each of their bindings. -/
theorem values_placeAll (d : Draft) (gs : List Segment) :
    (d.placeAll gs).values = d.values.insertAll (gs.map fun g => (g.source.var, g.target)) := by
  induction gs generalizing d with
  | nil => rfl
  | cons g gs ih =>
    rw [placeAll_cons, ih]
    rfl

/-- The map of commits after segments: an entry for each slot fed by them. -/
theorem commits_placeAll (d : Draft) (gs : List Segment) :
    (d.placeAll gs).commits = d.commits.insertAll (gs.flatMap fun g => g.slots.zip g.acks) := by
  induction gs generalizing d with
  | nil => rfl
  | cons g gs ih =>
    rw [placeAll_cons, ih, List.flatMap_cons, Assoc.insertAll_append]
    rfl

theorem next_placeAll (d : Draft) (gs : List Segment) :
    (d.placeAll gs).next = d.next + Segment.sizes gs := by
  induction gs generalizing d with
  | nil => rfl
  | cons g gs ih =>
    rw [placeAll_cons, ih, Segment.sizes_cons, ← Nat.add_assoc]
    rfl

variable {calls : StoreCalls} {plan : Plan} {d : Draft} {bs : List Binding} {gs : List Segment}

theorem segments_cons_eq_ok {b : Binding}
    (laid : d.segments calls plan (b :: bs) = .ok gs) :
    ∃ g rest, d.segment calls plan b = .ok g ∧
      (d.place g).segments calls plan bs = .ok rest ∧ gs = g :: rest := by
  simp only [segments, Except.bind_eq_ok_iff, Except.pure_eq_ok_iff] at laid
  obtain ⟨g, placed, rest, laid, rfl⟩ := laid
  exact ⟨g, rest, placed, laid, rfl⟩

/-- What a segment shows of its binding, the segments show of the bindings. -/
theorem map_segments_eq {α : Type} {view : Segment → α} {view' : Binding → α}
    (each : ∀ d b g, Draft.segment calls plan d b = .ok g → view g = view' b)
    (laid : d.segments calls plan bs = .ok gs) : gs.map view = bs.map view' := by
  induction bs generalizing d gs with
  | nil =>
    obtain rfl := Except.pure_eq_ok_iff.mp laid
    rfl
  | cons b bs ih =>
    obtain ⟨g, rest, placed, laid_rest, rfl⟩ := segments_cons_eq_ok laid
    rw [List.map_cons, List.map_cons, each d b g placed, ih laid_rest]

/-- There is one segment for each binding, in order. -/
theorem map_source_segments (laid : d.segments calls plan bs = .ok gs) :
    gs.map Segment.source = bs := by
  have sources : gs.map Segment.source = bs.map id :=
    map_segments_eq (fun _ _ _ placed => (segment_eq_ok placed).1) laid
  rw [sources, List.map_id]

theorem source_mem_of_segments (laid : d.segments calls plan bs = .ok gs) {g : Segment}
    (mem : g ∈ gs) : g.source ∈ bs := by
  rw [← map_source_segments laid]
  exact List.mem_map_of_mem mem

/-- The segments are contiguous from the draft on. -/
theorem contiguous_segments (laid : d.segments calls plan bs = .ok gs) :
    Segment.Contiguous d.next gs := by
  induction bs generalizing d gs with
  | nil =>
    obtain rfl := Except.pure_eq_ok_iff.mp laid
    exact True.intro
  | cons b bs ih =>
    obtain ⟨g, rest, placed, laid_rest, rfl⟩ := segments_cons_eq_ok laid
    exact ⟨(segment_eq_ok placed).2, ih laid_rest⟩

/-- Each segment was placed with the draft after the segments before it. -/
theorem segment_of_split (laid : d.segments calls plan bs = .ok gs) {earlier later : List Segment}
    {g : Segment} (split : gs = earlier ++ g :: later) :
    (d.placeAll earlier).segment calls plan g.source = .ok g := by
  induction bs generalizing d gs earlier with
  | nil =>
    obtain rfl := Except.pure_eq_ok_iff.mp laid
    simp at split
  | cons b bs ih =>
    obtain ⟨h, rest, placed, laid_rest, rfl⟩ := segments_cons_eq_ok laid
    cases earlier with
    | nil =>
      obtain ⟨rfl, -⟩ := List.cons.inj split
      rw [(segment_eq_ok placed).1]
      exact placed
    | cons e earlier =>
      obtain ⟨rfl, split_rest⟩ := List.cons.inj split
      exact ih laid_rest split_rest

end Draft

/-! ### Layouts -/

/-- A value over the new variables: an input is fetched, anything else redirected. -/
def Expr.streamed (calls : StoreCalls) (param : VarId) (rename : VarId → VarId) (fresh : Nat)
    (e : Expr) : Expr :=
  match e.inputIndex? param with
  | some i => calls.fetch i
  | none => e.redirect param rename fresh

/-- The segment is the code for an ordinary binding, under the new names `rename`. -/
structure Segment.IsValue (calls : StoreCalls) (plan : Plan) (rename : VarId → VarId)
    (g : Segment) : Prop where
  fetches : g.fetches = Lowering.hoisted plan.convention.param g.source.value
  value : g.value = g.source.value.streamed calls plan.convention.param rename g.start
  slots : g.slots = plan.interface.outputs.slots g.source.var
  dying : g.dying = (plan.lastUses.dyingAt g.source.var).map rename

/-- The segment is the code for the binding of the output: the tuple of the commits' results. -/
structure Segment.IsOutput (plan : Plan) (commitVar : Nat → VarId) (g : Segment) : Prop where
  fetches : g.fetches = []
  value : g.value =
    .tuple ((List.range plan.interface.outputs.arity).map fun slot => .var (commitVar slot))
  slots : g.slots = []
  dying : g.dying = []

/-- The code of a streaming form, binding by binding. -/
structure Layout (f : Func) (calls : StoreCalls) (plan : Plan) where
  segments : List Segment
  /-- where the value of an old variable is found -/
  rename : VarId → VarId
  /-- where the result of the commit to a slot is found -/
  commitVar : Nat → VarId
  sources : segments.map Segment.source = f.bindings
  contiguous : Segment.Contiguous 0 segments
  rename_var : ∀ g ∈ segments, rename g.source.var = g.target
  map_commitVar : ∀ g ∈ segments, g.slots.map commitVar = g.acks
  isValue : ∀ g ∈ segments, g.source.var ≠ plan.convention.output → g.IsValue calls plan rename
  isOutput : ∀ g ∈ segments, g.source.var = plan.convention.output → g.IsOutput plan commitVar

namespace Layout

variable {f : Func} {calls : StoreCalls} {plan : Plan}

/-- The code of all segments. -/
def code (l : Layout f calls plan) : List Binding := l.segments.flatMap (Segment.code calls)

/-- The function consists of the code of the layout and returns the value of the output. -/
structure Describes (l : Layout f calls plan) (g : Func) : Prop where
  params : g.params = []
  code : g.bindings = l.code
  result : g.result = .var (l.rename plan.convention.output)
  size : g.vars.length = Segment.sizes l.segments

end Layout

/-! ### Slots -/

namespace Plan

variable {plan : Plan} {xs : List VarId}

/-- The slots to which the code for a binding commits. -/
def slotsFor (plan : Plan) (b : Binding) : List Nat :=
  if b.var = plan.convention.output then [] else plan.interface.outputs.slots b.var

/-- If slots are positions in a tuple, then the variable that feeds a slot stands there. -/
theorem getElem?_of_mem_slotsFor
    (slots : ∀ v, plan.interface.outputs.slots v = positionsFrom 0 xs v) {b : Binding} {slot : Nat}
    (mem : slot ∈ plan.slotsFor b) : xs[slot]? = some b.var := by
  unfold slotsFor at mem
  split at mem
  · simp at mem
  · rw [slots] at mem
    exact mem_positionsFrom_zero.mp mem

/-- Different variables feed different slots. -/
theorem nodup_flatMap_slotsFor (plan : Plan)
    (slots : ∀ v, plan.interface.outputs.slots v = positionsFrom 0 xs v) {bs : List Binding}
    (distinct : (bs.map Binding.var).Nodup) : (bs.flatMap plan.slotsFor).Nodup := by
  rw [List.nodup_flatMap]
  constructor
  · intro b _
    unfold slotsFor
    split
    · exact List.nodup_nil
    · rw [slots]
      exact nodup_positionsFrom 0 xs b.var
  · refine (List.pairwise_map.mp distinct).imp fun {b c} differ => ?_
    show List.Disjoint _ _
    rw [List.disjoint_left]
    intro slot in_b in_c
    exact differ (Option.some.inj ((getElem?_of_mem_slotsFor slots in_b).symm.trans
      (getElem?_of_mem_slotsFor slots in_c)))

end Plan

namespace Segment

/-- The slots committed to in the code of segments, each with the result of the commit. -/
def entries (gs : List Segment) : List (Nat × VarId) := gs.flatMap fun g => g.slots.zip g.acks

theorem map_fst_entries (gs : List Segment) :
    (entries gs).map Prod.fst = gs.flatMap Segment.slots := by
  rw [entries, List.map_flatMap]
  refine List.flatMap_congr fun g _ => ?_
  rw [List.map_fst_zip (by simp [acks])]

end Segment

namespace Draft

variable {calls : StoreCalls} {plan : Plan} {d : Draft} {bs : List Binding} {gs : List Segment}

theorem slots_segment {b : Binding} {g : Segment} (placed : d.segment calls plan b = .ok g) :
    g.slots = plan.slotsFor b := by
  unfold segment at placed
  unfold Plan.slotsFor
  split at placed
  · next is_output =>
    obtain ⟨_, _, _, _, rfl⟩ := outputSegment_eq_ok placed
    rw [if_pos is_output]
  · next ordinary =>
    obtain ⟨_, _, _, _, rfl⟩ := valueSegment_eq_ok placed
    rw [if_neg ordinary]

theorem flatMap_slots_segments (laid : d.segments calls plan bs = .ok gs) :
    gs.flatMap Segment.slots = bs.flatMap plan.slotsFor := by
  have slots := map_segments_eq (fun _ _ _ => slots_segment) laid
  rw [List.flatMap_def, slots, ← List.flatMap_def]

end Draft

/-! ### From lowering to a layout -/

/-- Of the bindings of a function with an interface, only the one of the tuple binds the output. -/
theorem OutputTuple.eq_of_var_eq {f : Func} {c : Convention} {i : Interface}
    (o : OutputTuple f c i) (follows : f.Follows c) {b : Binding} (mem : b ∈ f.bindings)
    (is_output : b.var = c.output) : b = ⟨c.output, .tuple (o.fields.map .var)⟩ := by
  rw [o.split] at mem
  rcases List.mem_append.mp mem with before | rest
  · exact absurd is_output (o.var_ne_output follows b (List.mem_append_left _ before))
  rcases List.mem_cons.mp rest with same | after
  · exact same
  · exact absurd is_output (o.var_ne_output follows b (List.mem_append_right _ after))

namespace Draft

variable {f : Func} {calls : StoreCalls} {plan : Plan} {tracked : List VarId} {gs : List Segment}

/-- The map of values at the end of the layout. -/
def finalValues (gs : List Segment) : Assoc VarId VarId :=
  Assoc.insertAll [] (gs.map fun g => (g.source.var, g.target))

/-- The map of commits at the end of the layout. -/
def finalCommits (gs : List Segment) : Assoc Nat VarId :=
  Assoc.insertAll [] (gs.flatMap fun g => g.slots.zip g.acks)

/-- Every binding keeps its entry to the end. -/
theorem get?_finalValues (planned : f.Planned plan tracked)
    (laid : Draft.segments calls plan {} f.bindings = .ok gs) {g : Segment} (mem : g ∈ gs) :
    (finalValues gs).get? g.source.var = some g.target := by
  refine Assoc.get?_insertAll_of_mem ?_ (List.mem_map_of_mem mem)
  have keys : (gs.map fun g => (g.source.var, g.target)).map Prod.fst =
      f.bindings.map Binding.var := by
    rw [← map_source_segments laid, List.map_map, List.map_map]
    rfl
  rw [keys]
  exact planned.follows.ordered.nodup

/-- What is looked up on the way is what the map says at the end. -/
theorem get?_finalValues_of_earlier (planned : f.Planned plan tracked)
    (laid : Draft.segments calls plan {} f.bindings = .ok gs) {earlier later : List Segment}
    (split : gs = earlier ++ later) {v w : VarId}
    (found : (Draft.placeAll {} earlier).values.get? v = some w) :
    (finalValues gs).get? v = some w := by
  rw [values_placeAll] at found
  rcases Assoc.get?_insertAll_eq_some found with mem | absent
  · obtain ⟨g, g_mem, same⟩ := List.mem_map.mp mem
    obtain ⟨rfl, rfl⟩ := Prod.mk.inj same
    exact get?_finalValues planned laid (split ▸ List.mem_append_left _ g_mem)
  · simp at absent

/-- No slot is committed to twice, so every commit keeps its entry to the end. -/
theorem get?_finalCommits (planned : f.Planned plan tracked)
    (laid : Draft.segments calls plan {} f.bindings = .ok gs) {g : Segment} (mem : g ∈ gs)
    {j : Nat} {w : VarId} (ack : (j, w) ∈ g.slots.zip g.acks) :
    (finalCommits gs).get? j = some w := by
  obtain ⟨o⟩ := planned.follows.exists_outputTuple planned.interface
  refine Assoc.get?_insertAll_of_mem ?_ (List.mem_flatMap.mpr ⟨g, mem, ack⟩)
  show ((Segment.entries gs).map Prod.fst).Nodup
  rw [Segment.map_fst_entries, flatMap_slots_segments laid]
  exact plan.nodup_flatMap_slotsFor o.slots planned.follows.ordered.nodup

/-- What is looked up among the commits on the way is what the map says at the end. -/
theorem get?_finalCommits_of_earlier (planned : f.Planned plan tracked)
    (laid : Draft.segments calls plan {} f.bindings = .ok gs) {earlier later : List Segment}
    (split : gs = earlier ++ later) {j : Nat} {w : VarId}
    (found : (Draft.placeAll {} earlier).commits.get? j = some w) :
    (finalCommits gs).get? j = some w := by
  rw [commits_placeAll] at found
  rcases Assoc.get?_insertAll_eq_some found with mem | absent
  · obtain ⟨g, g_mem, ack⟩ := List.mem_flatMap.mp mem
    exact get?_finalCommits planned laid (split ▸ List.mem_append_left _ g_mem) ack
  · simp at absent

/-- The new name of a variable, and any variable for one that has none. -/
def newName (gs : List Segment) (v : VarId) : VarId := ((finalValues gs).get? v).getD v

/-- The result of the commit to a slot, and any variable for a slot without one. -/
def commitResult (gs : List Segment) (slot : Nat) : VarId :=
  ((finalCommits gs).get? slot).getD default

/-- The segment of an ordinary binding, once its lookups are read off the final maps. -/
theorem isValue_of_segments (planned : f.Planned plan tracked)
    (laid : Draft.segments calls plan {} f.bindings = .ok gs) {g : Segment} (mem : g ∈ gs)
    (ordinary : g.source.var ≠ plan.convention.output) : g.IsValue calls plan (newName gs) := by
  obtain ⟨earlier, later, split⟩ := List.append_of_mem mem
  have placed := segment_of_split laid split
  rw [segment, if_neg ordinary] at placed
  obtain ⟨value, dying, rerouted, looked_up, whole⟩ := valueSegment_eq_ok placed
  have names : ∀ {v w}, (finalValues gs).get? v = some w → newName gs v = w := by
    intro v w found
    simp [newName, found]
  have value_eq : value = g.source.value.streamed calls plan.convention.param (newName gs)
      (Draft.placeAll {} earlier).next := by
    unfold Lowering.valueFor at rerouted
    unfold Expr.streamed
    cases is_input : g.source.value.inputIndex? plan.convention.param with
    | some i =>
      rw [is_input] at rerouted
      exact (Except.pure_eq_ok_iff.mp rerouted).symm
    | none =>
      rw [is_input] at rerouted
      have agree : Expr.Extends (Draft.placeAll {} earlier).values (newName gs)
          g.source.value.reads :=
        fun v _ w found => names (get?_finalValues_of_earlier planned laid split found)
      exact ((Expr.reroute_eq_ok_iff _ _ agree).mp rerouted).2.2.symm
  have dying_eq : dying = (plan.lastUses.dyingAt g.source.var).map (newName gs) := by
    refine Except.eq_map_of_mapM_eq_ok looked_up fun v _ w found => ?_
    -- The lookup sees the entry of the binding itself as well.
    have found_at : (Draft.placeAll {} (earlier ++ [g])).values.get? v = some w := by
      have same : (Draft.placeAll {} (earlier ++ [g])).values =
          (Draft.placeAll {} earlier).values.insert g.source.var g.target := by
        simp [placeAll, place]
      rw [same]
      exact valueOf_eq_ok_iff.mp found
    rw [List.append_cons] at split
    exact (names (get?_finalValues_of_earlier planned laid split found_at)).symm
  have start : g.start = (Draft.placeAll {} earlier).next := by rw [whole]
  refine ⟨by rw [whole], ?_, by rw [whole], ?_⟩
  · rw [start, ← value_eq, whole]
  · rw [← dying_eq, whole]

/-- The commits looked up for the fields of a tuple: there is one for each, and they are listed by
slot. -/
theorem commits_of_looked_up {d : Draft} {fields commits : List Expr}
    (looked_up : fields.zipIdx.mapM (fun (field, slot) => d.commitOf field slot) = .ok commits) :
    (∀ slot < fields.length, ∃ w, d.commits.get? slot = some w) ∧
      commits = (List.range fields.length).map fun slot =>
        .var ((d.commits.get? slot).getD default) := by
  constructor
  · intro slot inside
    have entry : (fields[slot], slot) ∈ fields.zipIdx := by
      simp [List.mem_zipIdx_iff_getElem?, inside]
    obtain ⟨e, found⟩ := Except.exists_of_mapM_eq_ok looked_up entry
    obtain ⟨w, is_w, -⟩ := commitOf_eq_ok found
    exact ⟨w, is_w⟩
  · rw [List.range_eq_range', ← List.zipIdx_map_snd 0 fields, List.map_map]
    refine Except.eq_map_of_mapM_eq_ok looked_up fun entry _ e found => ?_
    obtain ⟨w, is_w, rfl⟩ := commitOf_eq_ok found
    simp [is_w]

/-- The segment of the output, once its lookups are read off the final maps. -/
theorem isOutput_of_segments (planned : f.Planned plan tracked)
    (laid : Draft.segments calls plan {} f.bindings = .ok gs) {g : Segment} (mem : g ∈ gs)
    (is_output : g.source.var = plan.convention.output) : g.IsOutput plan (commitResult gs) := by
  obtain ⟨o⟩ := planned.follows.exists_outputTuple planned.interface
  obtain ⟨earlier, later, split⟩ := List.append_of_mem mem
  have placed := segment_of_split laid split
  rw [segment, if_pos is_output] at placed
  obtain ⟨fields, commits, is_tuple, looked_up, whole⟩ := outputSegment_eq_ok placed
  have arity : fields.length = plan.interface.outputs.arity := by
    rw [o.eq_of_var_eq planned.follows (source_mem_of_segments laid mem) is_output,
      Expr.tuple.injEq] at is_tuple
    rw [o.arity, ← is_tuple, List.length_map]
  obtain ⟨found, commits_eq⟩ := commits_of_looked_up looked_up
  have by_slot : commits =
      (List.range plan.interface.outputs.arity).map fun slot => .var (commitResult gs slot) := by
    rw [commits_eq, arity]
    refine List.map_congr_left fun slot mem => ?_
    obtain ⟨w, is_w⟩ := found slot (arity ▸ List.mem_range.mp mem)
    rw [commitResult, get?_finalCommits_of_earlier planned laid split is_w, is_w]
  exact ⟨by rw [whole], by rw [← by_slot, whole], by rw [whole], by rw [whole]⟩

/-- The layout of a function that has a plan. -/
def layout (planned : f.Planned plan tracked)
    (laid : Draft.segments calls plan {} f.bindings = .ok gs) : Layout f calls plan where
  segments := gs
  rename := newName gs
  commitVar := commitResult gs
  sources := map_source_segments laid
  contiguous := contiguous_segments laid
  rename_var g mem := by simp [newName, get?_finalValues planned laid mem]
  map_commitVar g mem := by
    have fst : (g.slots.zip g.acks).map Prod.fst = g.slots :=
      List.map_fst_zip (by simp [Segment.acks])
    have snd : (g.slots.zip g.acks).map Prod.snd = g.acks :=
      List.map_snd_zip (by simp [Segment.acks])
    rw [← snd]
    conv_lhs => rw [← fst]
    rw [List.map_map]
    refine List.map_congr_left fun entry ack => ?_
    simp [commitResult, get?_finalCommits planned laid mem ack]
  isValue g mem := isValue_of_segments planned laid mem
  isOutput g mem := isOutput_of_segments planned laid mem

end Draft

/-! ### What building keeps -/

/-- A property of builders that no operation of lowering breaks. -/
structure Builder.Invariant (P : Builder → Prop) : Prop where
  setAttr : ∀ {b : Builder} (name : Symbol) (value : AttrValue), P b → P (b.setAttr name value)
  beginBlock : ∀ {b : Builder} (kind : BlockKind), P b → P (b.beginBlock kind)
  emitTyped : ∀ {b : Builder} (name : Symbol) (value : Expr) (ty : Ty),
    P b → P (b.emitTyped name value ty)

namespace Builder.Invariant

variable {P : Builder → Prop} {f : Func} {calls : StoreCalls} {plan : Plan}

theorem emitAll (keeps : Invariant P) (values : List Expr) {b : Builder} (holds : P b) :
    P (b.emitAll values) := by
  induction values generalizing b with
  | nil => exact holds
  | cons value values ih => exact ih (keeps.emitTyped _ _ _ holds)

theorem lowerBinding (keeps : Invariant P) {s s' : Lowering} {b : Binding} (holds : P s.builder)
    (lowered : s.lowerBinding f calls plan b = .ok s') : P s'.builder := by
  unfold Lowering.lowerBinding at lowered
  split at lowered
  · rw [Lowering.lowerOutput_eq] at lowered
    obtain ⟨g, -, rfl⟩ := Except.map_eq_ok_iff.mp lowered
    exact keeps.emitTyped _ _ _ holds
  · rw [Lowering.lowerValue_eq] at lowered
    obtain ⟨g, -, rfl⟩ := Except.map_eq_ok_iff.mp lowered
    exact keeps.emitAll _ (keeps.emitAll _ (keeps.emitTyped _ _ _ (keeps.emitAll _ holds)))

/-- What holds of the empty builder and is never broken holds when all blocks are lowered. -/
theorem lowered (keeps : Invariant P) (empty : P .empty) {s : Lowering}
    (lowered : f.lowered calls plan = .ok s) : P s.builder := by
  have start : P (Lowering.start f).builder :=
    List.foldlRecOn f.attrs _ empty fun _ holds _ _ => keeps.setAttr _ _ holds
  refine Except.foldlM_preserves (P := fun s => P s.builder) ?_ lowered start
  intro s block s' lowered_block holds
  refine Except.foldlM_preserves (P := fun s => P s.builder) ?_ lowered_block
    (keeps.beginBlock _ holds)
  intro s b s' lowered_binding holds
  exact keeps.lowerBinding holds lowered_binding

end Builder.Invariant

/-- Lowering declares no parameters. -/
theorem Builder.invariant_params : Builder.Invariant fun b => b.params = [] :=
  ⟨fun _ _ none => none, fun _ none => none, fun _ _ _ none => none⟩

/-! ### Layouts of streaming forms -/

namespace Layout

variable {f : Func} {calls : StoreCalls} {plan : Plan} {tracked : List VarId}

/-- A function that can be lowered can be laid out. -/
theorem exists_segments_of_lower {g : Func} (lowered : f.lower calls plan = .ok g) :
    ∃ gs, Draft.segments calls plan {} f.bindings = .ok gs := by
  obtain ⟨s, -, lowered_all, -⟩ := Func.lower_eq_ok_iff.mp lowered
  have viewed := f.map_view_lowered calls plan
  rw [lowered_all] at viewed
  obtain ⟨gs, laid, -⟩ := Except.map_eq_ok_iff.mp viewed.symm
  exact ⟨gs, laid⟩

/-- The map of values is that of the layout. -/
theorem values_of_lowered {s : Lowering} {gs : List Segment}
    (laid : Draft.segments calls plan {} f.bindings = .ok gs)
    (lowered : f.lowered calls plan = .ok s) : s.values = Draft.finalValues gs := by
  have viewed := f.map_view_lowered calls plan
  rw [lowered, laid] at viewed
  have draft : s.draft = Draft.placeAll {} gs := congrArg Prod.fst (Except.ok.inj viewed)
  rw [show s.values = s.draft.values from rfl, draft, Draft.values_placeAll]
  rfl

/-- The layout describes the streaming form, and its new names are those recorded by the
lowering. -/
theorem describes_of_lower {g : Func} {gs : List Segment} (planned : f.Planned plan tracked)
    (laid : Draft.segments calls plan {} f.bindings = .ok gs)
    (lowered : f.lower calls plan = .ok g) :
    (Draft.layout planned laid).Describes g ∧ ∃ s, f.lowered calls plan = .ok s ∧
      ∀ v w, s.values.get? v = some w ↔
        v ∈ f.bindings.map Binding.var ∧ (Draft.layout planned laid).rename v = w := by
  obtain ⟨s, result, lowered_all, rerouted, finished⟩ := Func.lower_eq_ok_iff.mp lowered
  have viewed := f.map_view_lowered calls plan
  rw [lowered_all, laid] at viewed
  obtain ⟨draft, code⟩ := Prod.mk.inj (Except.ok.inj viewed)
  have values := values_of_lowered laid lowered_all
  have entries : ∀ v w, s.values.get? v = some w ↔
      v ∈ f.bindings.map Binding.var ∧ Draft.newName gs v = w := by
    intro v w
    rw [values]
    constructor
    · intro found
      refine ⟨?_, by simp [Draft.newName, found]⟩
      rcases Assoc.get?_insertAll_eq_some found with mem | absent
      · obtain ⟨h, h_mem, same⟩ := List.mem_map.mp mem
        obtain ⟨rfl, rfl⟩ := Prod.mk.inj same
        rw [← Draft.map_source_segments laid, List.map_map]
        exact List.mem_map_of_mem h_mem
      · simp at absent
    · rintro ⟨bound, rfl⟩
      rw [← Draft.map_source_segments laid, List.map_map] at bound
      obtain ⟨h, h_mem, rfl⟩ := List.mem_map.mp bound
      have found := Draft.get?_finalValues planned laid h_mem
      simp only [Function.comp_apply]
      rw [found, Draft.newName, found, Option.getD_some]
  refine ⟨?_, s, lowered_all, entries⟩
  have renamed : result = .var (Draft.newName gs plan.convention.output) := by
    have agree : Expr.Extends s.values (Draft.newName gs) f.result.reads :=
      fun v _ w found => ((entries v w).mp found).2
    have redirected := ((Expr.reroute_eq_ok_iff _ _ agree).mp rerouted).2.2
    rw [← redirected, planned.follows.result]
    rfl
  rw [← finished, planned.follows.inputReads_result]
  refine ⟨Builder.invariant_params.lowered rfl lowered_all, code, renamed, ?_⟩
  change s.draft.next = _
  rw [draft, Draft.next_placeAll, Nat.zero_add]
  rfl

/-- **The streaming form has a layout.**  The new names of the layout are those recorded by the
lowering. -/
theorem exists_of_lower {g : Func} (planned : f.Planned plan tracked)
    (lowered : f.lower calls plan = .ok g) :
    ∃ (l : Layout f calls plan) (s : Lowering), l.Describes g ∧ f.lowered calls plan = .ok s ∧
      ∀ v w, s.values.get? v = some w ↔ v ∈ f.bindings.map Binding.var ∧ l.rename v = w := by
  obtain ⟨gs, laid⟩ := exists_segments_of_lower lowered
  obtain ⟨describes, s, lowered_all, entries⟩ := describes_of_lower planned laid lowered
  exact ⟨Draft.layout planned laid, s, describes, lowered_all, entries⟩

/-- What is known of a function that has a streaming form: a plan, the symbols of the services, a
layout of the form, and the new names recorded while it was made. -/
theorem exists_of_stream {g : Func} {table names : SymbolTable} {intermediates : Bool}
    (streamed : f.stream table intermediates = (.ok g, names)) :
    ∃ plan s, ∃ l : Layout f (StoreCalls.intern table).1 plan,
      f.plan intermediates = .ok plan ∧ (StoreCalls.intern table).1.Resolved names ∧
      f.lowered (StoreCalls.intern table).1 plan = .ok s ∧ l.Describes g ∧
      ∀ v w, s.values.get? v = some w ↔ v ∈ f.bindings.map Binding.var ∧ l.rename v = w := by
  obtain ⟨plan, has_plan, lowered, rfl⟩ := Func.stream_eq_iff.mp streamed
  obtain ⟨l, s, describes, has_state, entries⟩ :=
    exists_of_lower (Func.Planned.of_plan has_plan) lowered
  exact ⟨plan, s, l, has_plan, StoreCalls.resolved_intern table, has_state, describes, entries⟩

variable (l : Layout f calls plan)

/-- Segments before and after one are the code for the bindings before and after its own. -/
theorem bindings_split {earlier later : List Segment} {g : Segment}
    (split : l.segments = earlier ++ g :: later) :
    f.bindings = earlier.map Segment.source ++ g.source :: later.map Segment.source := by
  rw [← l.sources, split, List.map_append, List.map_cons]

theorem source_mem {g : Segment} (mem : g ∈ l.segments) : g.source ∈ f.bindings := by
  rw [← l.sources]
  exact List.mem_map_of_mem mem

/-- Every binding has its segment. -/
theorem exists_segment {b : Binding} (mem : b ∈ f.bindings) : ∃ g ∈ l.segments, g.source = b := by
  rw [← l.sources] at mem
  exact List.mem_map.mp mem

/-- Different variables have different new names. -/
theorem rename_inj {b c : Binding} (b_mem : b ∈ f.bindings) (c_mem : c ∈ f.bindings)
    (same : l.rename b.var = l.rename c.var) : b = c := by
  obtain ⟨g, g_mem, rfl⟩ := l.exists_segment b_mem
  obtain ⟨h, h_mem, rfl⟩ := l.exists_segment c_mem
  rw [l.rename_var g g_mem, l.rename_var h h_mem] at same
  rw [l.contiguous.eq_of_owns g_mem h_mem g.owns_target (same ▸ h.owns_target)]

/-- A segment is for another variable than those before it. -/
theorem source_var_ne (planned : f.Planned plan tracked) {earlier later : List Segment}
    {g h : Segment} (split : l.segments = earlier ++ g :: later) (mem : h ∈ earlier) :
    g.source.var ≠ h.source.var := by
  intro same
  have nodup := planned.follows.ordered.nodup
  rw [l.bindings_split split, List.map_append, List.map_cons, List.map_map] at nodup
  exact (List.nodup_append.mp nodup).2.2 h.source.var (List.mem_map_of_mem mem) g.source.var
    (by simp) same.symm

/-! ### Where variables come from -/

/-- What a binding reads, the parameter aside, is the value of an earlier segment. -/
theorem exists_done_of_read (planned : f.Planned plan tracked) {done later : List Segment}
    {g : Segment} (split : l.segments = done ++ g :: later) {v : VarId}
    (read : v ∈ g.source.value.reads) (not_param : v ≠ plan.convention.param) :
    ∃ h ∈ done, h.source.var = v := by
  have ordered := planned.follows.ordered
  rw [l.bindings_split split] at ordered
  rcases ordered.reads_defined v read with is_param | bound
  · exact absurd (List.mem_singleton.mp is_param) not_param
  · rw [List.map_map] at bound
    exact List.mem_map.mp bound

/-- What earlier segments bind comes before a segment. -/
theorem lt_start {done later : List Segment} {g h : Segment}
    (split : l.segments = done ++ g :: later) (mem : h ∈ done) {t : VarId} (owns : h.Owns t) :
    t.index < g.start := by
  have contiguous := l.contiguous
  rw [split, Segment.Contiguous.append_iff] at contiguous
  have ends := contiguous.1.end_le h mem
  have starts := contiguous.2.1
  simp only [Segment.Owns, Expr.InRange] at owns
  omega

/-- The slots of a segment are the positions of its variable in the output tuple. -/
theorem mem_slots (planned : f.Planned plan tracked)
    (o : OutputTuple f plan.convention plan.interface) {g : Segment} (mem : g ∈ l.segments)
    {slot : Nat} : slot ∈ g.slots ↔ o.fields[slot]? = some g.source.var := by
  by_cases is_output : g.source.var = plan.convention.output
  · rw [(l.isOutput g mem is_output).slots]
    refine ⟨by simp, fun at_slot => ?_⟩
    rw [← o.mem_slots, o.slots_eq_nil planned.follows (.inl is_output)] at at_slot
    exact at_slot
  · rw [(l.isValue g mem is_output).slots, o.mem_slots]

/-- A segment releases the tracked variables that its binding touches and that no ordinary binding
after it reads. -/
theorem mem_dying_iff (planned : f.Planned plan tracked) {done later : List Segment}
    {g : Segment} (split : l.segments = done ++ g :: later) {t : VarId} :
    t ∈ g.dying ↔ g.source.var ≠ plan.convention.output ∧
      ∃ v ∈ tracked, l.rename v = t ∧ v ∈ g.source.touches ∧
        ∀ h ∈ later, h.source.var ≠ plan.convention.output → v ∉ h.source.value.reads := by
  have g_mem : g ∈ l.segments := split ▸ by simp
  by_cases is_output : g.source.var = plan.convention.output
  · simp [(l.isOutput g g_mem is_output).dying, is_output]
  · have dies := fun v => planned.follows.mem_dyingAt_lastUses planned.param_untracked
      (l.bindings_split split) is_output (x := v)
    rw [(l.isValue g g_mem is_output).dying, List.mem_map, planned.lastUses]
    simp only [dies, List.forall_mem_map]
    constructor
    · rintro ⟨v, ⟨touched, v_tracked, unread⟩, rfl⟩
      exact ⟨is_output, v, v_tracked, rfl, touched, unread⟩
    · rintro ⟨-, v, v_tracked, rfl, touched, unread⟩
      exact ⟨v, ⟨touched, v_tracked, unread⟩, rfl⟩

/-! ### Services called -/

/-- The value of a segment is the fetch of an input, for a binding that is this input, or it refers
to no service that the function does not refer to. -/
theorem fetch_or_avoids {table : SymbolTable} {service : StoreService}
    (avoids : f.Avoids table service) {g : Segment} (mem : g ∈ l.segments) :
    (∃ i, g.source.value.inputIndex? plan.convention.param = some i ∧ g.value = calls.fetch i) ∨
      g.value.Avoids table service := by
  by_cases is_output : g.source.var = plan.convention.output
  · refine .inr fun name name_mem => ?_
    rw [(l.isOutput g mem is_output).value, Expr.hosts, Expr.hostsAll_eq_flatMap] at name_mem
    simp [Expr.hosts] at name_mem
  · rw [(l.isValue g mem is_output).value, Expr.streamed]
    cases is_input : g.source.value.inputIndex? plan.convention.param with
    | some i => exact .inl ⟨i, rfl, rfl⟩
    | none =>
      refine .inr ((avoids.1 g.source (l.source_mem mem)).mono ?_)
      rw [Expr.hosts_redirect]
      exact List.Subset.refl _

end Layout

end ParamStream
