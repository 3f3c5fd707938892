import Mathlib.Data.List.Forall2
import ParamStream.Proofs.Assembly
import ParamStream.Proofs.Fetches
import ParamStream.Proofs.LastReaders

/-!
# What of a function its streaming form keeps

Lowering inserts code around every binding and renumbers all variables, and still the function can
be read off its streaming form: the blocks that have bindings come back one by one, and in each of
them, once the calls to the store are taken away, the bindings that do not just read an input stand
in their old order, under their old names.  A block of the streaming form remains closed as well:
apart from the output tuple, it reads only what it binds.

## Main definitions

* `Func.Carries` — how a binding of the streaming form carries one of the function;
* `Func.Keeps` — how a block of the streaming form keeps one of the function.

## Main statements

* `Segment.forall₂_blocks` — the blocks made of segments correspond to those with bindings;
* `Layout.filter_code` — what remains of the code without the calls to the store;
* `Func.structure_survives`.
-/

namespace ParamStream

/-! ### Blocks -/

namespace Segment

/-- The new block is the code of those of the segments that are for the bindings of the old one. -/
def MadeFrom (calls : StoreCalls) (gs : List Segment) (block block' : Block) : Prop :=
  ∃ hs, hs ⊆ gs ∧ hs.map source = block.bindings ∧
    block' = ⟨block.kind, hs.flatMap (code calls)⟩

theorem MadeFrom.mono {calls : StoreCalls} {gs hs : List Segment} (sub : gs ⊆ hs)
    {block block' : Block} (made : MadeFrom calls gs block block') :
    MadeFrom calls hs block block' := by
  obtain ⟨ks, ks_sub, sources, is_code⟩ := made
  exact ⟨ks, List.Subset.trans ks_sub sub, sources, is_code⟩

/-- The value of a segment is in the table under the name hint of its binding. -/
theorem name_declsFrom {f : Func} {output : VarId} {vars : List VarDecl} {gs : List Segment}
    (contiguous : Contiguous vars.length gs) {h : Segment} (mem : h ∈ gs) :
    (vars ++ declsFrom f output vars gs)[h.target.index]?.map VarDecl.name =
      some (f.hint h.source.var) := by
  induction gs generalizing vars with
  | nil => simp at mem
  | cons g gs ih =>
    obtain ⟨start, rest⟩ := contiguous
    rw [declsFrom, ← List.append_assoc]
    rcases List.mem_cons.mp mem with rfl | mem
    · have inside : h.target.index < (vars ++ h.decls f output vars).length := by
        simp only [target, start, List.length_append, length_decls, size]
        omega
      rw [List.getElem?_append_left inside, List.getElem?_append_right (by simp [target, start]),
        decls, List.getElem?_append_right (by simp [target, start])]
      simp [target, start]
    · exact ih (by simpa using rest) mem

/-- The code of a segment binds the variables that it owns. -/
theorem Owns.mem_map_var {calls : StoreCalls} {g : Segment} {t : VarId} (owns : g.Owns t) :
    t ∈ (g.code calls).map Binding.var := by
  obtain ⟨from_start, before_end⟩ := owns
  have inside : t.index - g.start < (g.exprs calls).length := by
    rw [length_exprs]
    omega
  refine List.mem_map.mpr ⟨⟨t, (g.exprs calls)[t.index - g.start]⟩, ?_, rfl⟩
  refine mem_numbered.mpr ⟨t.index - g.start, List.getElem?_eq_getElem inside, ?_⟩
  rw [Nat.add_sub_cancel' from_start]

end Segment

/-- So a streaming form has the name hints of the function. -/
theorem Func.Assembled.hint_target {f g : Func} {calls : StoreCalls} {output : VarId}
    {gs : List Segment} (assembled : f.Assembled calls output gs g)
    (contiguous : Segment.Contiguous 0 gs) {h : Segment} (mem : h ∈ gs) :
    g.hint h.target = f.hint h.source.var := by
  have named : ([] ++ Segment.declsFrom f output [] gs)[h.target.index]?.map VarDecl.name =
      some (f.hint h.source.var) := by
    refine Segment.name_declsFrom ?_ mem
    exact contiguous
  rw [List.nil_append, ← assembled.vars] at named
  rw [hint, decl?, named]
  rfl

/-! ### Bindings -/

namespace Func

/-- How a binding of the streaming form carries a binding of the function, in a block with the
bindings `code`.  It binds the variable recorded for the old one, under the old name hint.  Right
before it the inputs that the old value reads are fetched, in visit order; the new value reads the
results in place of the inputs, and the variables recorded for them in place of the others. -/
structure Carries (f : Func) (calls : StoreCalls) (c : Convention) (values : Assoc VarId VarId)
    (g : Func) (code : List Binding) (b b' : Binding) : Prop where
  var : values.get? b.var = some b'.var
  hint : g.hint b'.var = f.hint b.var
  value : b.var ≠ c.output → ∃ fresh rename front back,
    code = front ++ numbered fresh ((b.value.occurrences c.param).map calls.fetch) ++ b' :: back ∧
    b'.value = b.value.redirect c.param rename fresh ∧
    ∀ v ∈ b.value.reads, v ≠ c.param → values.get? v = some (rename v)

/-- How a block of the streaming form keeps a block of the function.  Apart from the calls to the
store it consists of the bindings that do not just read an input, in order.  One that just reads an
input is the fetch of this input.  All bindings but the output's read variables of the block. -/
structure Keeps (f : Func) (calls : StoreCalls) (names : SymbolTable) (c : Convention)
    (values : Assoc VarId VarId) (g : Func) (block block' : Block) : Prop where
  kind : block'.kind = block.kind
  bindings : List.Forall₂ (f.Carries calls c values g block'.bindings)
    (block.bindings.filter fun b => b.value.inputIndex? c.param = none)
    (block'.bindings.filter fun b => b.value.service? names = none)
  inputs : ∀ b ∈ block.bindings, ∀ i, b.value.inputIndex? c.param = some i →
    ∃ t, ⟨t, calls.fetch i⟩ ∈ block'.bindings ∧ values.get? b.var = some t ∧
      g.hint t = f.hint b.var
  closed : ∀ b ∈ block'.bindings, g.result ≠ .var b.var →
    ∀ v ∈ b.value.reads, v ∈ block'.bindings.map Binding.var

end Func

namespace Layout

variable {f : Func} {calls : StoreCalls} {plan : Plan} {tracked : List VarId}
  {names : SymbolTable} (l : Layout f calls plan) {g : Segment}

/-- The binding of the output does not just read an input. -/
theorem inputIndex?_output (planned : f.Planned plan tracked) (mem : g ∈ l.segments)
    (is_output : g.source.var = plan.convention.output) :
    g.source.value.inputIndex? plan.convention.param = none := by
  obtain ⟨o⟩ := planned.follows.exists_outputTuple planned.interface
  rw [o.eq_of_var_eq planned.follows (l.source_mem mem) is_output]
  rfl

/-- The value of a segment calls the store exactly if its binding just reads an input. -/
theorem service?_value (resolved : calls.Resolved names) (independent : f.Independent names)
    (planned : f.Planned plan tracked) (mem : g ∈ l.segments) :
    g.value.service? names = none ↔ g.source.value.inputIndex? plan.convention.param = none := by
  have free := (independent.1 g.source (l.source_mem mem)).service?_eq_none
  by_cases is_output : g.source.var = plan.convention.output
  · rw [(l.isOutput g mem is_output).value, l.inputIndex?_output planned mem is_output]
    exact ⟨fun _ => rfl, fun _ => rfl⟩
  · rw [(l.isValue g mem is_output).value, Expr.streamed]
    cases is_input : g.source.value.inputIndex? plan.convention.param with
    | some i => simp [resolved.service?_fetch]
    | none => simp [Expr.service?_redirect, free]

/-- Without the calls to the store, what remains of the code of a segment is the value, unless its
binding just reads an input. -/
theorem filter_code (resolved : calls.Resolved names) (independent : f.Independent names)
    (planned : f.Planned plan tracked) (mem : g ∈ l.segments) :
    (g.code calls).filter (fun b => b.value.service? names = none) =
      if g.source.value.inputIndex? plan.convention.param = none then [⟨g.target, g.value⟩]
      else [] := by
  have service := l.service?_value resolved independent planned mem
  rw [Segment.code_eq, Segment.head, List.filter_append, List.filter_append]
  have fetches : (numbered g.start (g.fetches.map calls.fetch)).filter
      (fun b => b.value.service? names = none) = [] := by
    rw [List.filter_eq_nil_iff]
    intro b b_mem
    obtain ⟨i, -, same⟩ := List.mem_map.mp (value_mem_of_mem_numbered b_mem)
    simp [← same, resolved.service?_fetch]
  have upkeep : (g.tail calls).filter (fun b => b.value.service? names = none) = [] := by
    rw [List.filter_eq_nil_iff]
    intro b b_mem
    rcases Segment.isUpkeep_of_mem_tail resolved b_mem with commit | release
    · simp [commit]
    · simp [release]
  rw [fetches, upkeep, List.nil_append, List.append_nil, List.filter_cons]
  simp [service]

/-- The binding of a value carries its source. -/
theorem carries {values : Assoc VarId VarId} {new : Func}
    (assembled : f.Assembled calls plan.convention.output l.segments new)
    (planned : f.Planned plan tracked)
    (entries : ∀ v w, values.get? v = some w ↔
      v ∈ f.bindings.map Binding.var ∧ l.rename v = w)
    {hs : List Segment} (sub : hs ⊆ l.segments) (mem : g ∈ hs)
    (not_input : g.source.value.inputIndex? plan.convention.param = none) :
    f.Carries calls plan.convention values new (hs.flatMap (Segment.code calls)) g.source
      ⟨g.target, g.value⟩ := by
  have g_mem := sub mem
  have source_bound : g.source.var ∈ f.bindings.map Binding.var :=
    List.mem_map_of_mem (l.source_mem g_mem)
  refine ⟨(entries _ _).mpr ⟨source_bound, l.rename_var g g_mem⟩, ?_, fun ordinary => ?_⟩
  · exact assembled.hint_target l.contiguous g_mem
  · have shape := l.isValue g g_mem ordinary
    obtain ⟨front, back, split⟩ := List.append_of_mem mem
    refine ⟨g.start, l.rename, front.flatMap (Segment.code calls),
      g.tail calls ++ back.flatMap (Segment.code calls), ?_, ?_, fun v read not_param => ?_⟩
    · have fetches : g.fetches = g.source.value.occurrences plan.convention.param := by
        rw [shape.fetches, Lowering.hoisted, not_input, Expr.occurrences_eq_inputReads]
        rfl
      rw [split, ← fetches, List.flatMap_append, List.flatMap_cons, Segment.code_eq, Segment.head]
      simp
    · rw [shape.value, Expr.streamed, not_input]
    · obtain ⟨done, later, parts⟩ := List.append_of_mem g_mem
      obtain ⟨h, h_mem, rfl⟩ := l.exists_done_of_read planned parts read not_param
      have h_segment : h ∈ l.segments := parts ▸ List.mem_append_left _ h_mem
      exact (entries _ _).mpr ⟨List.mem_map_of_mem (l.source_mem h_segment), rfl⟩

/-- The code for a block reads what it binds, the value of the output aside. -/
theorem closed_code (planned : f.Planned plan tracked) {block : Block}
    (block_mem : block ∈ f.blocks) {hs : List Segment} (sub : hs ⊆ l.segments)
    (sources : hs.map Segment.source = block.bindings) {b : Binding}
    (mem : b ∈ hs.flatMap (Segment.code calls)) (ordinary : b.var ≠ l.rename plan.convention.output)
    {t : VarId} (read : t ∈ b.value.reads) :
    t ∈ (hs.flatMap (Segment.code calls)).map Binding.var := by
  obtain ⟨g, g_mem, in_code⟩ := List.mem_flatMap.mp mem
  have bound {h : Segment} (h_mem : h ∈ hs) (owns : h.Owns t) :
      t ∈ (hs.flatMap (Segment.code calls)).map Binding.var := by
    rw [List.map_flatMap]
    exact List.mem_flatMap.mpr ⟨h, h_mem, owns.mem_map_var⟩
  -- What an ordinary binding touches is at home in its block, so its new name is bound here.
  have touched {v : VarId} (source_ordinary : g.source.var ≠ plan.convention.output)
      (touches : v ∈ g.source.touches) (not_param : v ≠ plan.convention.param)
      (is_name : l.rename v = t) : t ∈ (hs.flatMap (Segment.code calls)).map Binding.var := by
    have source_mem : g.source ∈ block.bindings := by
      rw [← sources]
      exact List.mem_map_of_mem g_mem
    have home := planned.follows.home_of_touches block_mem source_mem source_ordinary touches
      not_param
    rw [← sources, List.map_map] at home
    obtain ⟨h, h_mem, rfl⟩ := List.mem_map.mp home
    refine bound h_mem ?_
    rw [← is_name, Function.comp_apply, l.rename_var h (sub h_mem)]
    exact h.owns_target
  rcases Segment.cases_of_mem_code in_code with
    ⟨i, -, is_fetch⟩ | rfl | ⟨slot, -, is_commit⟩ | ⟨u, released, is_release⟩
  · simp [is_fetch] at read
  · have source_ordinary : g.source.var ≠ plan.convention.output := by
      intro is_output
      rw [← is_output, l.rename_var g (sub g_mem)] at ordinary
      exact ordinary rfl
    rcases (l.mem_reads_value planned (sub g_mem) source_ordinary).mp read with
      ⟨v, v_read, not_param, is_name⟩ | fetched
    · exact touched source_ordinary (Binding.mem_touches.mpr (.inl v_read)) not_param is_name
    · exact bound g_mem (Segment.owns_of_mem_fetched fetched)
  · rw [is_commit, StoreCalls.reads_commit, List.mem_singleton] at read
    exact bound g_mem (read ▸ g.owns_target)
  · rw [is_release, StoreCalls.reads_release, List.mem_singleton] at read
    obtain rfl := read
    rcases List.mem_append.mp released with dying | fetched
    · obtain ⟨done, later, split⟩ := List.append_of_mem (sub g_mem)
      obtain ⟨source_ordinary, v, v_tracked, is_name, touches, -⟩ :=
        (l.mem_dying_iff planned split).mp dying
      exact touched source_ordinary touches
        (fun is_param => planned.param_untracked (is_param ▸ v_tracked)) is_name
    · exact bound g_mem (Segment.owns_of_mem_fetched fetched)

/-- A block made of segments keeps the block they are for. -/
theorem keeps {values : Assoc VarId VarId} {new : Func} (describes : l.Describes new)
    (assembled : f.Assembled calls plan.convention.output l.segments new)
    (resolved : calls.Resolved names) (independent : f.Independent names)
    (planned : f.Planned plan tracked)
    (entries : ∀ v w, values.get? v = some w ↔
      v ∈ f.bindings.map Binding.var ∧ l.rename v = w)
    {block block' : Block} (block_mem : block ∈ f.blocks)
    (made : Segment.MadeFrom calls l.segments block block') :
    f.Keeps calls names plan.convention values new block block' := by
  obtain ⟨hs, sub, sources, rfl⟩ := made
  refine ⟨rfl, ?_, ?_, ?_⟩
  · have code : (hs.flatMap (Segment.code calls)).filter
          (fun b => b.value.service? names = none) =
        (hs.filter fun h => h.source.value.inputIndex? plan.convention.param = none).map
          fun h => ⟨h.target, h.value⟩ := by
      rw [List.filter_flatMap, ← List.flatMap_singleton_or_nil]
      refine List.flatMap_congr fun h mem => ?_
      rw [l.filter_code resolved independent planned (sub mem)]
      simp only [decide_eq_true_eq]
    rw [code, ← sources, List.filter_map, List.forall₂_map_left_iff, List.forall₂_map_right_iff]
    refine List.forall₂_same.mpr fun h mem => ?_
    obtain ⟨h_mem, not_input⟩ := List.mem_filter.mp mem
    exact l.carries assembled planned entries sub h_mem (of_decide_eq_true not_input)
  · intro b mem i is_input
    rw [← sources] at mem
    obtain ⟨h, h_mem, rfl⟩ := List.mem_map.mp mem
    have ordinary : h.source.var ≠ plan.convention.output := by
      intro is_output
      rw [l.inputIndex?_output planned (sub h_mem) is_output] at is_input
      cases is_input
    have value : h.value = calls.fetch i := by
      rw [(l.isValue h (sub h_mem) ordinary).value, Expr.streamed, is_input]
    refine ⟨h.target, ?_, ?_, assembled.hint_target l.contiguous (sub h_mem)⟩
    · exact List.mem_flatMap.mpr ⟨h, h_mem, value ▸ h.value_mem_code calls⟩
    · exact (entries _ _).mpr
        ⟨List.mem_map_of_mem (l.source_mem (sub h_mem)), l.rename_var h (sub h_mem)⟩
  · intro b mem not_result t read
    refine l.closed_code planned block_mem sub sources mem (fun same => not_result ?_) read
    rw [describes.result, same]

end Layout

namespace Func

end Func

namespace Func

end Func

end ParamStream
