import Mathlib.Data.List.Nodup
import ParamStream.Proofs.OutputTuple
import ParamStream.Proofs.Redirect
import ParamStream.Proofs.Sequences

/-!
# The code emitted for a binding

Lowering threads a builder through the function.  For what the new function computes, little of
that builder matters: the number of variables so far, and the two maps.  A `Draft` holds these, and
a `Segment` the code emitted for one binding, as data: the inputs fetched first, the value, the
slots committed to and the variables released.  `Draft.segments` lays out the bindings of a
function one segment after the other, without a builder and without blocks.

`Func.map_view_lowered` says that lowering is this layout: it fails when the layout fails, with the
same error, and otherwise its code is the concatenation of the segments.

## Main definitions

* `numbered` — bindings of expressions to consecutive variables;
* `Builder.code` — the bindings emitted so far;
* `Segment`, `Segment.code`;
* `Draft`, `Draft.segment`, `Draft.segments`.
-/

namespace ParamStream

/-! ### Consecutive bindings -/

/-- The variables `start`, …, `start + count - 1`. -/
def varsFrom (start count : Nat) : List VarId := (List.range' start count).map VarId.mk

@[simp] theorem length_varsFrom (start count : Nat) : (varsFrom start count).length = count := by
  simp [varsFrom]

theorem mem_varsFrom {start count : Nat} {v : VarId} :
    v ∈ varsFrom start count ↔ Expr.InRange start count v := by
  obtain ⟨index⟩ := v
  simp [varsFrom, Expr.InRange, List.mem_range'_1]

theorem nodup_varsFrom (start count : Nat) : (varsFrom start count).Nodup := by
  refine List.Nodup.map (fun m n same => ?_) List.nodup_range'
  exact VarId.mk.inj same

theorem varsFrom_concat (start count : Nat) :
    varsFrom start (count + 1) = varsFrom start count ++ [⟨start + count⟩] := by
  simp [varsFrom, List.range'_concat]

/-- Bindings of the expressions to the variables from `start` on. -/
def numbered (start : Nat) : List Expr → List Binding
  | [] => []
  | e :: es => ⟨⟨start⟩, e⟩ :: numbered (start + 1) es

@[simp] theorem numbered_nil (start : Nat) : numbered start [] = [] := rfl

@[simp] theorem numbered_cons (start : Nat) (e : Expr) (es : List Expr) :
    numbered start (e :: es) = ⟨⟨start⟩, e⟩ :: numbered (start + 1) es := rfl

theorem numbered_append (start : Nat) (es more : List Expr) :
    numbered start (es ++ more) = numbered start es ++ numbered (start + es.length) more := by
  induction es generalizing start with
  | nil => rfl
  | cons e es ih => simp [ih, Nat.add_assoc, Nat.add_comm 1]

@[simp] theorem length_numbered (start : Nat) (es : List Expr) :
    (numbered start es).length = es.length := by
  induction es generalizing start with
  | nil => rfl
  | cons e es ih => simp [ih]

/-- A consecutive binding stands at the distance of its variable from the first one. -/
theorem mem_numbered {start : Nat} {es : List Expr} {b : Binding} :
    b ∈ numbered start es ↔ ∃ k, es[k]? = some b.value ∧ b.var = ⟨start + k⟩ := by
  induction es generalizing start with
  | nil => simp
  | cons e es ih =>
    rw [numbered_cons, List.mem_cons, ih]
    constructor
    · rintro (rfl | ⟨k, at_k, is_var⟩)
      · exact ⟨0, rfl, rfl⟩
      · exact ⟨k + 1, at_k, by rw [is_var, Nat.add_assoc, Nat.add_comm 1]⟩
    · rintro ⟨k, at_k, is_var⟩
      obtain ⟨v, value⟩ := b
      cases k with
      | zero =>
        simp only [List.getElem?_cons_zero, Option.some.injEq] at at_k
        simp_all
      | succ k =>
        refine .inr ⟨k, at_k, ?_⟩
        rw [is_var, Nat.add_assoc, Nat.add_comm 1]

@[simp] theorem map_value_numbered (start : Nat) (es : List Expr) :
    (numbered start es).map Binding.value = es := by
  induction es generalizing start with
  | nil => rfl
  | cons e es ih => simp [ih]

theorem value_mem_of_mem_numbered {start : Nat} {es : List Expr} {b : Binding}
    (mem : b ∈ numbered start es) : b.value ∈ es := by
  obtain ⟨k, at_k, -⟩ := mem_numbered.mp mem
  exact List.mem_of_getElem? at_k

namespace Builder

/-- The bindings emitted so far, in order. -/
def code (b : Builder) : List Binding := b.sealed.flatMap Block.bindings

@[simp] theorem bindings_finish (b : Builder) (result : Expr) (ty : Ty) :
    (b.finish result ty).bindings = b.code := rfl

/-- The blocks of a builder hold those it has closed and then the pending one. -/
theorem code_eq (b : Builder) :
    b.code = b.closed.flatMap Block.bindings ++ (b.pending.map Block.bindings).getD [] := by
  unfold code Builder.sealed
  cases pending : b.pending with
  | none => simp
  | some block =>
    by_cases empty : block.bindings.isEmpty
    · have nil : block.bindings = [] := by simpa using empty
      simp [nil]
    · simp [empty]

@[simp] theorem code_beginBlock (b : Builder) (kind : BlockKind) :
    (b.beginBlock kind).code = b.code := by
  rw [code_eq (b.beginBlock kind)]
  simp [beginBlock, code]

@[simp] theorem code_endBlock (b : Builder) : b.endBlock.code = b.code := by
  rw [code_eq b.endBlock]
  simp [endBlock, code]

@[simp] theorem code_emitTyped (b : Builder) (name : Symbol) (value : Expr) (ty : Ty) :
    (b.emitTyped name value ty).code = b.code ++ [⟨b.next, value⟩] := by
  rw [code_eq, code_eq]
  cases pending : b.pending with
  | none => simp [emitTyped, pending]
  | some block => simp [emitTyped, pending]

@[simp] theorem code_emit (b : Builder) (name : Symbol) (value : Expr) :
    (b.emit name value).code = b.code ++ [⟨b.next, value⟩] := code_emitTyped _ _ _ _

@[simp] theorem vars_length_emit (b : Builder) (name : Symbol) (value : Expr) :
    (b.emit name value).vars.length = b.vars.length + 1 := by
  simp [emit]

theorem code_emitAll (b : Builder) (values : List Expr) :
    (b.emitAll values).code = b.code ++ numbered b.vars.length values := by
  induction values generalizing b with
  | nil => simp
  | cons value values ih =>
    rw [emitAll_cons, ih, code_emit, vars_length_emit, numbered_cons]
    simp [next]

end Builder

/-! ### Segments -/

/-- The code emitted for a binding.  Its variables are consecutive from `start` on. -/
structure Segment where
  /-- the binding that the code is for -/
  source : Binding
  start : Nat
  /-- the inputs fetched before the value is computed -/
  fetches : List Nat
  value : Expr
  /-- the slots to which the value is committed -/
  slots : List Nat
  /-- the new variables released, besides those fetched here -/
  dying : List VarId

namespace Segment

/-- The variable that holds the value. -/
def target (g : Segment) : VarId := ⟨g.start + g.fetches.length⟩

/-- The variables that hold the inputs fetched first. -/
def fetched (g : Segment) : List VarId := varsFrom g.start g.fetches.length

/-- The variables that hold the results of the commits. -/
def acks (g : Segment) : List VarId := varsFrom (g.target.index + 1) g.slots.length

/-- The variables released, in order. -/
def released (g : Segment) : List VarId := g.dying ++ g.fetched

/-- The expressions bound, in order. -/
def exprs (calls : StoreCalls) (g : Segment) : List Expr :=
  g.fetches.map calls.fetch ++
    g.value :: (g.slots.map (calls.commit g.target) ++ g.released.map calls.release)

def size (g : Segment) : Nat :=
  g.fetches.length + 1 + g.slots.length + (g.dying.length + g.fetches.length)

def code (calls : StoreCalls) (g : Segment) : List Binding := numbered g.start (g.exprs calls)

@[simp] theorem length_released (g : Segment) :
    g.released.length = g.dying.length + g.fetches.length := by
  simp [released, fetched]

@[simp] theorem length_exprs (calls : StoreCalls) (g : Segment) :
    (g.exprs calls).length = g.size := by
  simp only [exprs, size, List.length_append, List.length_map, List.length_cons, length_released]
  omega

/-- The code up to the value: the fetches and the value itself. -/
def head (calls : StoreCalls) (g : Segment) : List Binding :=
  numbered g.start (g.fetches.map calls.fetch) ++ [⟨g.target, g.value⟩]

/-- The code after the value: the commits, then the releases. -/
def tail (calls : StoreCalls) (g : Segment) : List Binding :=
  numbered (g.target.index + 1) (g.slots.map (calls.commit g.target)) ++
    numbered (g.target.index + 1 + g.slots.length) (g.released.map calls.release)

theorem code_eq (calls : StoreCalls) (g : Segment) :
    g.code calls = g.head calls ++ g.tail calls := by
  simp [code, exprs, head, tail, numbered_append, target]

theorem value_mem_code (calls : StoreCalls) (g : Segment) :
    ⟨g.target, g.value⟩ ∈ g.code calls := by
  rw [code_eq, head]
  simp

/-- Every expression of a segment is bound in its code. -/
theorem exists_of_mem_exprs {g : Segment} (calls : StoreCalls) {e : Expr}
    (mem : e ∈ g.exprs calls) : ∃ b ∈ g.code calls, b.value = e := by
  rw [← map_value_numbered g.start (g.exprs calls)] at mem
  exact List.mem_map.mp mem

theorem exists_release {g : Segment} (calls : StoreCalls) {t : VarId} (mem : t ∈ g.released) :
    ∃ b ∈ g.code calls, b.value = calls.release t := by
  refine exists_of_mem_exprs calls ?_
  unfold exprs
  simp only [List.mem_append, List.mem_cons]
  exact .inr (.inr (.inr (List.mem_map_of_mem mem)))

theorem mem_head {calls : StoreCalls} {g : Segment} {b : Binding} (mem : b ∈ g.head calls) :
    (∃ i ∈ g.fetches, b.value = calls.fetch i ∧ b.var ∈ g.fetched) ∨ b = ⟨g.target, g.value⟩ := by
  rcases List.mem_append.mp mem with fetch | value
  · obtain ⟨i, i_mem, same⟩ := List.mem_map.mp (value_mem_of_mem_numbered fetch)
    obtain ⟨k, at_k, is_var⟩ := mem_numbered.mp fetch
    have inside : k < g.fetches.length := by
      simpa using (List.getElem?_eq_some_iff.mp at_k).1
    refine .inl ⟨i, i_mem, same.symm, mem_varsFrom.mpr ?_⟩
    simp only [is_var, Expr.InRange]
    omega
  · exact .inr (List.mem_singleton.mp value)

theorem mem_tail {calls : StoreCalls} {g : Segment} {b : Binding} (mem : b ∈ g.tail calls) :
    ((∃ slot ∈ g.slots, b.value = calls.commit g.target slot) ∨
      ∃ t ∈ g.released, b.value = calls.release t) ∧ g.target.index < b.var.index := by
  rcases List.mem_append.mp mem with commit | release
  · obtain ⟨slot, slot_mem, same⟩ := List.mem_map.mp (value_mem_of_mem_numbered commit)
    obtain ⟨k, -, is_var⟩ := mem_numbered.mp commit
    refine ⟨.inl ⟨slot, slot_mem, same.symm⟩, ?_⟩
    simp only [is_var]
    omega
  · obtain ⟨t, t_mem, same⟩ := List.mem_map.mp (value_mem_of_mem_numbered release)
    obtain ⟨k, -, is_var⟩ := mem_numbered.mp release
    refine ⟨.inr ⟨t, t_mem, same.symm⟩, ?_⟩
    simp only [is_var]
    omega

/-- The code consists of fetches, the value, commits of the value, and releases. -/
theorem cases_of_mem_code {calls : StoreCalls} {g : Segment} {b : Binding}
    (mem : b ∈ g.code calls) :
    (∃ i ∈ g.fetches, b.value = calls.fetch i) ∨ b = ⟨g.target, g.value⟩ ∨
      (∃ slot ∈ g.slots, b.value = calls.commit g.target slot) ∨
      ∃ t ∈ g.released, b.value = calls.release t := by
  rw [code_eq, List.mem_append] at mem
  rcases mem with head | tail
  · rcases mem_head head with ⟨i, i_mem, same, -⟩ | value
    · exact .inl ⟨i, i_mem, same⟩
    · exact .inr (.inl value)
  · exact .inr (.inr (mem_tail tail).1)

theorem lt_target_of_mem_fetched {g : Segment} {t : VarId} (mem : t ∈ g.fetched) :
    t.index < g.target.index := by
  have range := mem_varsFrom.mp mem
  simp only [Expr.InRange, target] at range ⊢
  omega

/-- The code reads backwards if the value does and nothing is released ahead of its binding. -/
theorem reads_lt_of_mem_code {calls : StoreCalls} {g : Segment} {b : Binding} {t : VarId}
    (value : ∀ t ∈ g.value.reads, t.index < g.target.index)
    (dying : ∀ t ∈ g.dying, t.index ≤ g.target.index) (mem : b ∈ g.code calls)
    (read : t ∈ b.value.reads) : t.index < b.var.index := by
  rw [code_eq, List.mem_append] at mem
  rcases mem with head | tail
  · rcases mem_head head with ⟨i, -, is_fetch, -⟩ | rfl
    · rw [is_fetch] at read
      simp at read
    · exact value t read
  · obtain ⟨kind, after⟩ := mem_tail tail
    refine Nat.lt_of_le_of_lt ?_ after
    rcases kind with ⟨slot, -, is_commit⟩ | ⟨u, u_mem, is_release⟩
    · rw [is_commit, StoreCalls.reads_commit, List.mem_singleton] at read
      exact Nat.le_of_eq (by rw [read])
    · rw [is_release, StoreCalls.reads_release, List.mem_singleton] at read
      rw [read]
      rcases List.mem_append.mp u_mem with dies | fetch
      · exact dying u dies
      · exact Nat.le_of_lt (lt_target_of_mem_fetched fetch)

end Segment

/-! ### Laying out bindings -/

/-- What the code of the next binding depends on. -/
structure Draft where
  /-- number of variables so far -/
  next : Nat := 0
  /-- the variable that holds the value of an old variable -/
  values : Assoc VarId VarId := []
  /-- the variable that holds the result of the commit to a slot -/
  commits : Assoc Nat VarId := []

namespace Draft

/-- The new variable that holds the value of `v`. -/
def valueOf (d : Draft) (v : VarId) : Except StreamError VarId :=
  match d.values.get? v with
  | some w => pure w
  | none => throw (.unmapped v)

/-- The result of the commit that stands for a field of the output tuple. -/
def commitOf (d : Draft) (field : Expr) (slot : Nat) : Except StreamError Expr :=
  match field.asVar? with
  | none => throw (.outputFieldNotVar slot)
  | some v =>
    match d.commits.get? slot with
    | some w => pure (.var w)
    | none => throw (.unmapped v)

theorem valueOf_eq_ok_iff {d : Draft} {v w : VarId} :
    d.valueOf v = .ok w ↔ d.values.get? v = some w := by
  unfold valueOf
  cases d.values.get? v <;> simp

theorem commitOf_eq_ok {d : Draft} {field e : Expr} {slot : Nat}
    (found : d.commitOf field slot = .ok e) :
    ∃ w, d.commits.get? slot = some w ∧ e = .var w := by
  unfold commitOf at found
  split at found
  · simp at found
  · split at found
    · next w has_entry => exact ⟨w, has_entry, (Except.pure_eq_ok_iff.mp found).symm⟩
    · simp at found

/-- The draft after a segment. -/
def place (d : Draft) (g : Segment) : Draft where
  next := d.next + g.size
  values := d.values.insert g.source.var g.target
  commits := d.commits.insertAll (g.slots.zip g.acks)

/-- The code for a binding other than that of the output. -/
def valueSegment (calls : StoreCalls) (plan : Plan) (d : Draft) (b : Binding) :
    Except StreamError Segment := do
  let param := plan.convention.param
  let fetches := Lowering.hoisted param b.value
  let value ← Lowering.valueFor calls param d.values d.next b.value
  let target : VarId := ⟨d.next + fetches.length⟩
  let dying ← (plan.lastUses.dyingAt b.var).mapM
    { d with values := d.values.insert b.var target }.valueOf
  pure ⟨b, d.next, fetches, value, plan.interface.outputs.slots b.var, dying⟩

/-- The code for the binding of the output. -/
def outputSegment (d : Draft) (b : Binding) : Except StreamError Segment :=
  match b.value with
  | .tuple fields => do
    let fields ← fields.zipIdx.mapM fun (field, slot) => d.commitOf field slot
    pure ⟨b, d.next, [], .tuple fields, [], []⟩
  | _ => throw (.outputNotTuple b.var)

/-- The code for a binding. -/
def segment (calls : StoreCalls) (plan : Plan) (d : Draft) (b : Binding) :
    Except StreamError Segment :=
  if b.var = plan.convention.output then d.outputSegment b else d.valueSegment calls plan b

/-- The code for bindings in order. -/
def segments (calls : StoreCalls) (plan : Plan) : Draft → List Binding →
    Except StreamError (List Segment)
  | _, [] => pure []
  | d, b :: bs => do
    let g ← d.segment calls plan b
    let gs ← segments calls plan (d.place g) bs
    pure (g :: gs)

/-- The draft after segments. -/
def placeAll (d : Draft) (gs : List Segment) : Draft := gs.foldl place d

@[simp] theorem placeAll_nil (d : Draft) : d.placeAll [] = d := rfl

@[simp] theorem placeAll_cons (d : Draft) (g : Segment) (gs : List Segment) :
    d.placeAll (g :: gs) = (d.place g).placeAll gs := rfl

/-- Lay out bindings after a draft and the code that led to it. -/
def layOut (calls : StoreCalls) (plan : Plan) (bs : List Binding) (v : Draft × List Binding) :
    Except StreamError (Draft × List Binding) :=
  (v.1.segments calls plan bs).map fun gs =>
    (v.1.placeAll gs, v.2 ++ gs.flatMap (Segment.code calls))

@[simp] theorem layOut_nil (calls : StoreCalls) (plan : Plan) (v : Draft × List Binding) :
    layOut calls plan [] v = pure v := by
  simp [layOut, segments]

theorem layOut_cons (calls : StoreCalls) (plan : Plan) (b : Binding) (bs : List Binding)
    (v : Draft × List Binding) :
    layOut calls plan (b :: bs) v = (do
      let v ← (v.1.segment calls plan b).map fun g => (v.1.place g, v.2 ++ g.code calls)
      layOut calls plan bs v) := by
  simp only [layOut, segments]
  cases v.1.segment calls plan b with
  | error e => rfl
  | ok g =>
    simp only [Except.ok_bind, Except.map]
    cases (v.1.place g).segments calls plan bs with
    | error e => rfl
    | ok gs => simp [pure, Except.pure]

theorem layOut_append (calls : StoreCalls) (plan : Plan) (bs cs : List Binding)
    (v : Draft × List Binding) :
    layOut calls plan (bs ++ cs) v = layOut calls plan bs v >>= layOut calls plan cs := by
  induction bs generalizing v with
  | nil => simp
  | cons b bs ih =>
    rw [List.cons_append, layOut_cons, layOut_cons, bind_assoc]
    simp only [ih]

/-- What is known of the code for an ordinary binding. -/
theorem valueSegment_eq_ok {calls : StoreCalls} {plan : Plan} {d : Draft} {b : Binding}
    {g : Segment} (placed : d.valueSegment calls plan b = .ok g) :
    ∃ value dying,
      Lowering.valueFor calls plan.convention.param d.values d.next b.value = .ok value ∧
      (plan.lastUses.dyingAt b.var).mapM
        { d with values := d.values.insert b.var g.target }.valueOf = .ok dying ∧
      g = ⟨b, d.next, Lowering.hoisted plan.convention.param b.value, value,
        plan.interface.outputs.slots b.var, dying⟩ := by
  simp only [valueSegment, Except.bind_eq_ok_iff, Except.pure_eq_ok_iff] at placed
  obtain ⟨value, rerouted, dying, looked_up, rfl⟩ := placed
  exact ⟨value, dying, rerouted, looked_up, rfl⟩

/-- What is known of the code for the binding of the output. -/
theorem outputSegment_eq_ok {d : Draft} {b : Binding} {g : Segment}
    (placed : d.outputSegment b = .ok g) :
    ∃ fields commits, b.value = .tuple fields ∧
      fields.zipIdx.mapM (fun (field, slot) => d.commitOf field slot) = .ok commits ∧
      g = ⟨b, d.next, [], .tuple commits, [], []⟩ := by
  unfold outputSegment at placed
  split at placed
  · next fields is_tuple =>
    obtain ⟨commits, looked_up, whole⟩ := Except.bind_eq_ok_iff.mp placed
    obtain rfl := Except.pure_eq_ok_iff.mp whole
    exact ⟨fields, commits, is_tuple, looked_up, rfl⟩
  · simp at placed

/-- A segment starts where the draft ends, and is for the binding it was asked for. -/
theorem segment_eq_ok {calls : StoreCalls} {plan : Plan} {d : Draft} {b : Binding} {g : Segment}
    (placed : d.segment calls plan b = .ok g) : g.source = b ∧ g.start = d.next := by
  unfold segment at placed
  split at placed
  · obtain ⟨_, _, _, _, rfl⟩ := outputSegment_eq_ok placed
    exact ⟨rfl, rfl⟩
  · obtain ⟨_, _, _, _, rfl⟩ := valueSegment_eq_ok placed
    exact ⟨rfl, rfl⟩

end Draft

/-! ### Lowering is laying out -/

namespace Builder

theorem next_emitAll (b : Builder) (values : List Expr) :
    (b.emitAll values).next = ⟨b.vars.length + values.length⟩ := by
  rw [next, length_vars_emitAll]

end Builder

namespace Lowering

/-- The part of a lowering that the code of the next binding depends on. -/
def draft (s : Lowering) : Draft := ⟨s.builder.vars.length, s.values, s.commits⟩

/-- What a lowering has come to: its draft and its code. -/
def view (s : Lowering) : Draft × List Binding := (s.draft, s.builder.code)

/-- Emit the code of a segment for a binding other than that of the output. -/
def emitValue (f : Func) (calls : StoreCalls) (s : Lowering) (g : Segment) : Lowering :=
  (((s.emitAll (g.fetches.map calls.fetch)).define g.source.var (f.hint g.source.var)
    g.value).commitTo calls g.target g.slots).emitAll (g.released.map calls.release)

/-- Emit the code of the segment for the binding of the output. -/
def emitOutput (f : Func) (s : Lowering) (g : Segment) : Lowering :=
  { s with
    builder := s.builder.emitTyped (f.hint g.source.var) g.value .object
    values := s.values.insert g.source.var s.builder.next }

theorem view_emitValue {s : Lowering} {g : Segment} (f : Func) (calls : StoreCalls)
    (start : g.start = s.builder.vars.length) :
    (s.emitValue f calls g).view = (s.draft.place g, s.builder.code ++ g.code calls) := by
  have lengths : (s.emitValue f calls g).builder.vars.length = s.builder.vars.length + g.size := by
    simp only [emitValue, emitAll, define, commitTo, Builder.length_vars_emitAll,
      Builder.vars_length_emit, List.length_map, Segment.length_released, Segment.size]
    omega
  have code : (s.emitValue f calls g).builder.code = s.builder.code ++ g.code calls := by
    simp only [emitValue, emitAll, define, commitTo, Builder.code_emitAll, Builder.code_emit,
      Builder.length_vars_emitAll, Builder.vars_length_emit, Builder.next_emitAll,
      List.length_map, Segment.code_eq, Segment.head, Segment.tail, Segment.target, start]
    simp
  have values : (s.emitValue f calls g).values = s.values.insert g.source.var g.target := by
    simp [emitValue, emitAll, define, commitTo, Builder.next_emitAll, Segment.target, start]
  have commits : (s.emitValue f calls g).commits =
      s.commits.insertAll (g.slots.zip g.acks) := by
    simp [emitValue, emitAll, define, commitTo, Builder.upcoming, Builder.length_vars_emitAll,
      Segment.acks, varsFrom, Segment.target, start]
  simp only [view, draft, Draft.place, lengths, code, values, commits]

theorem view_emitOutput {s : Lowering} {g : Segment} (f : Func) (calls : StoreCalls)
    (start : g.start = s.builder.vars.length) (no_fetches : g.fetches = [])
    (no_slots : g.slots = []) (no_dying : g.dying = []) :
    (s.emitOutput f g).view = (s.draft.place g, s.builder.code ++ g.code calls) := by
  have code : g.code calls = [⟨s.builder.next, g.value⟩] := by
    simp [Segment.code_eq, Segment.head, Segment.tail, Segment.released, Segment.fetched,
      Segment.target, varsFrom, no_fetches, no_slots, no_dying, Builder.next, start]
  have target : g.target = s.builder.next := by
    simp [Segment.target, no_fetches, Builder.next, start]
  simp [view, draft, Draft.place, emitOutput, Segment.size, code, target, no_fetches, no_slots,
    no_dying]

/-- Lowering an ordinary binding emits its segment. -/
theorem lowerValue_eq (f : Func) (calls : StoreCalls) (plan : Plan) (s : Lowering) (b : Binding) :
    s.lowerValue f calls plan b =
      (s.draft.valueSegment calls plan b).map (s.emitValue f calls) := by
  have target : (s.builder.emitAll
      ((hoisted plan.convention.param b.value).map calls.fetch)).next =
        ⟨s.draft.next + (hoisted plan.convention.param b.value).length⟩ := by
    rw [Builder.next_emitAll, List.length_map]
    rfl
  unfold lowerValue Draft.valueSegment
  simp only [emitAll, define, commitTo, target, Except.map_bind, Except.map_pure, emitValue]
  rfl

/-- Lowering the binding of the output emits its segment. -/
theorem lowerOutput_eq (f : Func) (s : Lowering) (b : Binding) :
    s.lowerOutput f b = (s.draft.outputSegment b).map (s.emitOutput f) := by
  unfold lowerOutput Draft.outputSegment
  cases b.value with
  | tuple fields =>
    simp only [Except.map_bind, Except.map_pure]
    rfl
  | _ => rfl

/-- Lowering a binding fails when its segment does, with the same error, and emits it otherwise. -/
theorem map_view_lowerBinding (f : Func) (calls : StoreCalls) (plan : Plan) (s : Lowering)
    (b : Binding) :
    (s.lowerBinding f calls plan b).map view =
      (s.draft.segment calls plan b).map fun g =>
        (s.draft.place g, s.builder.code ++ g.code calls) := by
  have start : ∀ g, s.draft.segment calls plan b = .ok g → g.start = s.builder.vars.length :=
    fun g placed => (Draft.segment_eq_ok placed).2
  unfold lowerBinding
  unfold Draft.segment at start ⊢
  split
  · next is_output =>
    rw [if_pos is_output] at start
    rw [lowerOutput_eq]
    cases placed : s.draft.outputSegment b with
    | error e => rfl
    | ok g =>
      have begins := start g placed
      obtain ⟨_, _, _, _, rfl⟩ := Draft.outputSegment_eq_ok placed
      exact congrArg _ (view_emitOutput f calls begins rfl rfl rfl)
  · next ordinary =>
    rw [if_neg ordinary] at start
    rw [lowerValue_eq]
    cases placed : s.draft.valueSegment calls plan b with
    | error e => rfl
    | ok g => exact congrArg _ (view_emitValue f calls (start g placed))

/-- Lowering bindings lays them out one after the other. -/
theorem map_view_lowerBindings (f : Func) (calls : StoreCalls) (plan : Plan) (s : Lowering)
    (bs : List Binding) :
    (bs.foldlM (lowerBinding f calls plan) s).map view = Draft.layOut calls plan bs s.view := by
  induction bs generalizing s with
  | nil => simp
  | cons b bs ih =>
    rw [List.foldlM_cons, Draft.layOut_cons]
    exact Except.map_bind_eq (map_view_lowerBinding f calls plan s b) ih

/-- Lowering blocks lays out their bindings: where a block begins leaves the code alone. -/
theorem map_view_lowerBlocks (f : Func) (calls : StoreCalls) (plan : Plan) (s : Lowering)
    (blocks : List Block) :
    (blocks.foldlM (lowerBlock f calls plan) s).map view =
      Draft.layOut calls plan (blocks.flatMap Block.bindings) s.view := by
  induction blocks generalizing s with
  | nil => simp
  | cons block blocks ih =>
    have begun : view { s with builder := s.builder.beginBlock block.kind } = s.view := by
      simp [view, draft]
    rw [List.foldlM_cons, List.flatMap_cons, Draft.layOut_append]
    refine Except.map_bind_eq ?_ ih
    rw [lowerBlock, map_view_lowerBindings, begun]

/-- Attributes are no code. -/
theorem view_start (f : Func) : (start f).view = ({}, []) := by
  have vars : (start f).builder.vars = [] :=
    List.foldl_keeps Builder.vars f.attrs .empty fun _ _ => rfl
  have code : (start f).builder.code = [] :=
    List.foldl_keeps Builder.code f.attrs .empty fun _ _ => rfl
  simp only [view, draft, vars, code]
  rfl

end Lowering

/-! ### Functions -/

namespace Func

/-- What lowering has come to after the last block. -/
def lowered (f : Func) (calls : StoreCalls) (plan : Plan) : Except StreamError Lowering :=
  f.blocks.foldlM (Lowering.lowerBlock f calls plan) (Lowering.start f)

/-- **Lowering is laying out.**  It fails when the layout of the bindings does, with the same
error, and its code is the concatenation of their segments. -/
theorem map_view_lowered (f : Func) (calls : StoreCalls) (plan : Plan) :
    (f.lowered calls plan).map Lowering.view =
      ((Draft.segments calls plan {} f.bindings).map fun gs =>
        (Draft.placeAll {} gs, gs.flatMap (Segment.code calls))) := by
  rw [lowered, Lowering.map_view_lowerBlocks, Lowering.view_start]
  rfl

/-- A streaming form is what the blocks are lowered to, after the fetches of the result. -/
theorem lower_eq_ok_iff {f g : Func} {calls : StoreCalls} {plan : Plan} :
    f.lower calls plan = .ok g ↔ ∃ s result, f.lowered calls plan = .ok s ∧
      f.result.reroute plan.convention.param s.values s.builder.next.index = .ok result ∧
      (s.builder.emitAll ((f.result.inputReads plan.convention.param).map calls.fetch)).finish
        result .object = g := by
  simp only [lower, lowered, Except.bind_eq_ok_iff, Except.pure_eq_ok_iff, Lowering.emitAll]
  constructor
  · rintro ⟨s, reached, result, rerouted, finished⟩
    exact ⟨s, result, reached, rerouted, finished⟩
  · rintro ⟨s, result, reached, rerouted, finished⟩
    exact ⟨s, reached, result, rerouted, finished⟩

end Func

end ParamStream
