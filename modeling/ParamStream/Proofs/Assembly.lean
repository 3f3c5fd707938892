import ParamStream.Proofs.Layout

/-!
# Blocks and table of a streaming form

A layout says which bindings a streaming form consists of, but not how they are divided into
blocks, nor what the variable table says of them.  Both are functions of the segments.  The code of
a segment goes to the pending block as a whole, and brings its own entries of the table: unnamed
objects for the fetches, the entry of the value, and unnamed units for commits and releases.

## Main definitions

* `Builder.append` — more code in the pending block, with its entries of the table;
* `Segment.decls`, `Segment.declsFrom` — the entries for the code of segments;
* `Segment.blocks` — the blocks that the code of segments makes;
* `Func.Assembled` — a function made of segments.

## Main statements

* `Lowering.lowerBinding_eq_ok` — one step: lowering a binding appends the code of its segment;
* `Lowering.lowerBlocks_eq_ok` — the run over all blocks;
* `Func.assembled_of_lower` — the streaming form is assembled from the segments of its layout.
-/

namespace ParamStream

/-! ### Appending code -/

namespace Builder

/-- More code in the pending block, with its entries of the table. -/
def append (b : Builder) (code : List Binding) (decls : List VarDecl) : Builder :=
  { b with
    pending := b.pending.map fun block => ⟨block.kind, block.bindings ++ code⟩
    vars := b.vars ++ decls }

@[simp] theorem vars_append (b : Builder) (code : List Binding) (decls : List VarDecl) :
    (b.append code decls).vars = b.vars ++ decls := rfl

@[simp] theorem isSome_pending_append (b : Builder) (code : List Binding) (decls : List VarDecl) :
    (b.append code decls).pending.isSome = b.pending.isSome := Option.isSome_map

theorem append_nil (b : Builder) : b.append [] [] = b := by
  obtain ⟨params, closed, pending, vars, attrs⟩ := b
  cases pending with
  | none => simp [append]
  | some block => simp [append]

theorem append_append (b : Builder) (code code' : List Binding) (decls decls' : List VarDecl) :
    (b.append code decls).append code' decls' = b.append (code ++ code') (decls ++ decls') := by
  simp [append, Function.comp_def]

/-- A binding emitted goes to the pending block. -/
theorem emitTyped_eq_append {b : Builder} (opened : b.pending.isSome) (name : Symbol)
    (value : Expr) (ty : Ty) :
    b.emitTyped name value ty = b.append [⟨b.next, value⟩] [⟨name, ty⟩] := by
  obtain ⟨block, pending⟩ := Option.isSome_iff_exists.mp opened
  simp [emitTyped, append, pending]

/-- So do bindings of one type that are emitted in a row. -/
theorem emitAll_eq_append {b : Builder} (opened : b.pending.isSome) {values : List Expr} {ty : Ty}
    (typed : ∀ e ∈ values, ∀ vars, e.typeIn vars = ty) :
    b.emitAll values =
      b.append (numbered b.vars.length values) (List.replicate values.length ⟨.empty, ty⟩) := by
  induction values generalizing b with
  | nil => exact b.append_nil.symm
  | cons value values ih =>
    rw [List.forall_mem_cons] at typed
    rw [emitAll_cons, emit, typeOf, typed.1, emitTyped_eq_append opened,
      ih (by simpa using opened) typed.2, append_append]
    simp [next, List.replicate_succ]

/-- A block that was begun and filled ends up last, unless there is nothing in it. -/
theorem sealed_append_beginBlock (b : Builder) (kind : BlockKind) (code : List Binding)
    (decls : List VarDecl) :
    ((b.beginBlock kind).append code decls).sealed =
      b.sealed ++ if code.isEmpty then [] else [⟨kind, code⟩] := by
  show (if ([] ++ code).isEmpty then b.sealed else b.sealed ++ [⟨kind, [] ++ code⟩]) = _
  rw [List.nil_append]
  split
  · simp
  · rfl

end Builder

/-! ### Entries of the table -/

namespace Segment

/-- The entries for the code of a segment, when the table holds `vars` already.  A value keeps the
name hint of its binding and has the type that it has over the table. -/
def decls (f : Func) (output : VarId) (vars : List VarDecl) (g : Segment) : List VarDecl :=
  let fetched := List.replicate g.fetches.length ⟨.empty, .object⟩
  let ty := if g.source.var = output then .object else g.value.typeIn (vars ++ fetched)
  fetched ++ ⟨f.hint g.source.var, ty⟩ ::
    List.replicate (g.slots.length + g.released.length) ⟨.empty, .unit⟩

/-- The entries for the code of segments in order. -/
def declsFrom (f : Func) (output : VarId) : List VarDecl → List Segment → List VarDecl
  | _, [] => []
  | vars, g :: gs =>
    g.decls f output vars ++ declsFrom f output (vars ++ g.decls f output vars) gs

variable {f : Func} {output : VarId}

@[simp] theorem length_decls (vars : List VarDecl) (g : Segment) :
    (g.decls f output vars).length = g.size := by
  simp only [decls, size, List.length_append, List.length_replicate, List.length_cons,
    length_released]
  omega

theorem declsFrom_append (vars : List VarDecl) (gs hs : List Segment) :
    declsFrom f output vars (gs ++ hs) =
      declsFrom f output vars gs ++ declsFrom f output (vars ++ declsFrom f output vars gs) hs := by
  induction gs generalizing vars with
  | nil => simp [declsFrom]
  | cons g gs ih => simp [declsFrom, ih]

/-! ### Blocks -/

/-- The blocks that the code of segments makes, when these are the segments for the bindings of
`blocks`: one for each that has bindings. -/
def blocks (calls : StoreCalls) : List Block → List Segment → List Block
  | [], _ => []
  | block :: rest, gs =>
    let later := blocks calls rest (gs.drop block.bindings.length)
    if block.bindings.isEmpty then later
    else ⟨block.kind, (gs.take block.bindings.length).flatMap (code calls)⟩ :: later

/-- The code of segments is empty only if there are none. -/
theorem isEmpty_flatMap_code (calls : StoreCalls) (gs : List Segment) :
    (gs.flatMap (code calls)).isEmpty = gs.isEmpty := by
  cases gs with
  | nil => rfl
  | cons g gs => simp [code_eq, head]

end Segment

/-! ### Lowering appends segments -/

/-- Bindings are laid out part by part. -/
theorem Draft.segments_append {calls : StoreCalls} {plan : Plan} {d : Draft}
    {bs : List Binding} {gs : List Segment} (laid : d.segments calls plan bs = .ok gs)
    (cs : List Binding) :
    d.segments calls plan (bs ++ cs) =
      ((d.placeAll gs).segments calls plan cs).map (gs ++ ·) := by
  induction bs generalizing d gs with
  | nil =>
    obtain rfl := Except.pure_eq_ok_iff.mp laid
    show _ = (d.segments calls plan cs).map id
    rw [Except.map_id]
    rfl
  | cons b bs ih =>
    obtain ⟨g, rest, placed, laid_bs, rfl⟩ := segments_cons_eq_ok laid
    rw [List.cons_append, segments, placed, Except.ok_bind, ih laid_bs, placeAll_cons]
    cases ((d.place g).placeAll rest).segments calls plan cs with
    | error e => rfl
    | ok hs => rfl

namespace Lowering

variable {f : Func} {calls : StoreCalls} {plan : Plan} {s s' : Lowering}

theorem builder_emitValue {g : Segment} {output : VarId} (opened : s.builder.pending.isSome)
    (start : g.start = s.builder.vars.length) (ordinary : g.source.var ≠ output) :
    (s.emitValue f calls g).builder =
      s.builder.append (g.code calls) (g.decls f output s.builder.vars) := by
  have fetches : ∀ e ∈ g.fetches.map calls.fetch, ∀ vars, e.typeIn vars = .object := by
    simp [StoreCalls.fetch, Expr.typeIn]
  have commits : ∀ e ∈ g.slots.map (calls.commit g.target), ∀ vars, e.typeIn vars = .unit := by
    simp [StoreCalls.commit, Expr.typeIn]
  have releases : ∀ e ∈ g.released.map calls.release, ∀ vars, e.typeIn vars = .unit := by
    simp [StoreCalls.release, Expr.typeIn]
  simp only [emitValue, emitAll, define, commitTo, Builder.emit]
  rw [Builder.emitAll_eq_append opened fetches,
    Builder.emitTyped_eq_append (by simpa using opened), Builder.append_append,
    Builder.emitAll_eq_append (by simpa using opened) commits, Builder.append_append,
    Builder.emitAll_eq_append (by simpa using opened) releases, Builder.append_append]
  congr 1
  · simp [Segment.code_eq, Segment.head, Segment.tail, Segment.target, start, Builder.next,
      Nat.add_assoc, Nat.add_comm 1]
  · simp [Segment.decls, Builder.typeOf, ordinary]

theorem builder_emitOutput {g : Segment} {output : VarId} (opened : s.builder.pending.isSome)
    (start : g.start = s.builder.vars.length) (is_output : g.source.var = output)
    (no_fetches : g.fetches = []) (no_slots : g.slots = []) (no_dying : g.dying = []) :
    (s.emitOutput f g).builder =
      s.builder.append (g.code calls) (g.decls f output s.builder.vars) := by
  rw [emitOutput, Builder.emitTyped_eq_append opened]
  simp [Segment.code_eq, Segment.head, Segment.tail, Segment.released, Segment.fetched,
    Segment.target, Segment.decls, varsFrom, Builder.next, no_fetches, no_slots, no_dying,
    is_output, start]

/-- Lowering a binding appends the code of its segment to the pending block. -/
theorem lowerBinding_eq_ok {b : Binding} (opened : s.builder.pending.isSome)
    (lowered : s.lowerBinding f calls plan b = .ok s') :
    ∃ g, s.draft.segment calls plan b = .ok g ∧ s'.draft = s.draft.place g ∧
      s'.builder =
        s.builder.append (g.code calls) (g.decls f plan.convention.output s.builder.vars) := by
  unfold lowerBinding at lowered
  unfold Draft.segment
  split at lowered
  · next is_output =>
    rw [if_pos is_output]
    rw [lowerOutput_eq] at lowered
    obtain ⟨g, placed, rfl⟩ := Except.map_eq_ok_iff.mp lowered
    refine ⟨g, placed, ?_⟩
    obtain ⟨_, _, _, _, rfl⟩ := Draft.outputSegment_eq_ok placed
    exact ⟨congrArg Prod.fst (view_emitOutput f calls rfl rfl rfl rfl),
      builder_emitOutput opened rfl is_output rfl rfl rfl⟩
  · next ordinary =>
    rw [if_neg ordinary]
    rw [lowerValue_eq] at lowered
    obtain ⟨g, placed, rfl⟩ := Except.map_eq_ok_iff.mp lowered
    refine ⟨g, placed, ?_⟩
    obtain ⟨_, _, _, _, rfl⟩ := Draft.valueSegment_eq_ok placed
    exact ⟨congrArg Prod.fst (view_emitValue f calls rfl),
      builder_emitValue opened rfl ordinary⟩

/-- Lowering bindings appends the code of their segments. -/
theorem lowerBindings_eq_ok {bs : List Binding} (opened : s.builder.pending.isSome)
    (lowered : bs.foldlM (lowerBinding f calls plan) s = .ok s') :
    ∃ gs, s.draft.segments calls plan bs = .ok gs ∧ s'.draft = s.draft.placeAll gs ∧
      s'.builder = s.builder.append (gs.flatMap (Segment.code calls))
        (Segment.declsFrom f plan.convention.output s.builder.vars gs) := by
  induction bs generalizing s with
  | nil =>
    obtain rfl := Except.pure_eq_ok_iff.mp lowered
    exact ⟨[], rfl, rfl, s.builder.append_nil.symm⟩
  | cons b bs ih =>
    rw [List.foldlM_cons] at lowered
    obtain ⟨t, first, rest⟩ := Except.bind_eq_ok_iff.mp lowered
    obtain ⟨g, placed, draft, builder⟩ := lowerBinding_eq_ok opened first
    obtain ⟨gs, laid, final, appended⟩ := ih (by rw [builder]; simpa using opened) rest
    rw [draft] at laid final
    refine ⟨g :: gs, ?_, final, ?_⟩
    · simp [Draft.segments, placed, laid]
    · rw [appended, builder, Builder.append_append]
      rfl

/-- Lowering a block adds one block, for the code of its segments, unless there is none. -/
theorem lowerBlock_eq_ok {block : Block} (lowered : s.lowerBlock f calls plan block = .ok s') :
    ∃ gs, s.draft.segments calls plan block.bindings = .ok gs ∧ s'.draft = s.draft.placeAll gs ∧
      s'.builder.sealed = s.builder.sealed ++
        (if gs.isEmpty then [] else [⟨block.kind, gs.flatMap (Segment.code calls)⟩]) ∧
      s'.builder.vars = s.builder.vars ++
        Segment.declsFrom f plan.convention.output s.builder.vars gs ∧
      s'.builder.attrs = s.builder.attrs := by
  obtain ⟨gs, laid, draft, builder⟩ :=
    lowerBindings_eq_ok (s := { s with builder := s.builder.beginBlock block.kind }) rfl lowered
  refine ⟨gs, laid, draft, ?_, ?_, ?_⟩
  · rw [builder, Builder.sealed_append_beginBlock, Segment.isEmpty_flatMap_code]
  · rw [builder]
    rfl
  · rw [builder]
    rfl

/-- Lowering blocks adds the blocks that the code of their segments makes. -/
theorem lowerBlocks_eq_ok {blocks : List Block}
    (lowered : blocks.foldlM (lowerBlock f calls plan) s = .ok s') :
    ∃ gs, s.draft.segments calls plan (blocks.flatMap Block.bindings) = .ok gs ∧
      s'.builder.sealed = s.builder.sealed ++ Segment.blocks calls blocks gs ∧
      s'.builder.vars = s.builder.vars ++
        Segment.declsFrom f plan.convention.output s.builder.vars gs ∧
      s'.builder.attrs = s.builder.attrs := by
  induction blocks generalizing s with
  | nil =>
    obtain rfl := Except.pure_eq_ok_iff.mp lowered
    exact ⟨[], rfl, by simp [Segment.blocks], by simp [Segment.declsFrom], rfl⟩
  | cons block blocks ih =>
    rw [List.foldlM_cons] at lowered
    obtain ⟨t, first, rest⟩ := Except.bind_eq_ok_iff.mp lowered
    obtain ⟨gs, laid, draft, sealed_first, vars_first, attrs_first⟩ := lowerBlock_eq_ok first
    obtain ⟨hs, laid_rest, sealed_rest, vars_rest, attrs_rest⟩ := ih rest
    have length : block.bindings.length = gs.length := by
      rw [← Draft.map_source_segments laid, List.length_map]
    have nonempty : block.bindings.isEmpty = gs.isEmpty := by
      rw [← Draft.map_source_segments laid, List.isEmpty_map]
    refine ⟨gs ++ hs, ?_, ?_, ?_, attrs_rest.trans attrs_first⟩
    · rw [List.flatMap_cons]
      rw [Draft.segments_append laid, ← draft, laid_rest]
      rfl
    · rw [sealed_rest, sealed_first, Segment.blocks, length, List.take_left, List.drop_left,
        nonempty, List.append_assoc]
      split
      · rfl
      · rfl
    · rw [vars_rest, vars_first, Segment.declsFrom_append, List.append_assoc]

end Lowering

/-! ### Streaming forms -/

namespace Func

variable {f g : Func} {calls : StoreCalls} {plan : Plan}

/-- The function has the blocks and the table that the code of segments makes, with the attributes
of `f`. -/
structure Assembled (f : Func) (calls : StoreCalls) (output : VarId) (gs : List Segment)
    (g : Func) : Prop where
  blocks : g.blocks = Segment.blocks calls f.blocks gs
  vars : g.vars = Segment.declsFrom f output [] gs
  attrs : g.attrs = (Lowering.start f).builder.attrs
  resultTy : g.resultTy = .object

/-- **A streaming form is assembled from the segments of its layout.** -/
theorem assembled_of_lower (follows : f.Follows plan.convention) {gs : List Segment}
    (laid : Draft.segments calls plan {} f.bindings = .ok gs)
    (lowered : f.lower calls plan = .ok g) : f.Assembled calls plan.convention.output gs g := by
  obtain ⟨s, result, reached, -, rfl⟩ := lower_eq_ok_iff.mp lowered
  obtain ⟨hs, laid', blocks, vars, attrs⟩ := Lowering.lowerBlocks_eq_ok reached
  have start : (Lowering.start f).draft = {} := congrArg Prod.fst (Lowering.view_start f)
  have no_blocks : (Lowering.start f).builder.sealed = [] :=
    List.foldl_keeps Builder.sealed f.attrs .empty fun _ _ => rfl
  have no_vars : (Lowering.start f).builder.vars = [] :=
    List.foldl_keeps Builder.vars f.attrs .empty fun _ _ => rfl
  rw [start] at laid'
  obtain rfl : gs = hs := Except.ok.inj (laid.symm.trans laid')
  rw [follows.inputReads_result]
  refine ⟨?_, ?_, attrs, rfl⟩
  · show s.builder.sealed = _
    rw [blocks, no_blocks, List.nil_append]
  · show s.builder.vars = _
    rw [vars, no_vars, List.nil_append]

end Func

end ParamStream
