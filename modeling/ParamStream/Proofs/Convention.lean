import ParamStream.Proofs.Entries
import ParamStream.Proofs.Scoping
import ParamStream.Streaming.Convention

/-!
# What the calling convention guarantees

`Func.Follows f c` lists what is known of a function for which `Func.convention` has answered `c`.
The check of the bindings works with a map from variables to blocks that grows along the way; here
it becomes a statement about blocks alone: whatever a binding other than the output's reads,
besides the parameter, is bound in the same block.

## Main statements

* `Convention.checkPlaced_eq_ok_iff` — what the check of the bindings asks of each of them;
* `Func.Follows.of_convention` — a function that passes follows the convention.
-/

namespace ParamStream

namespace Convention

/-- Reads pass when every one of them, the parameter aside, has its home in the block if it has
one at all. -/
theorem checkReads_eq_ok_iff {param : VarId} {homes : Assoc VarId Nat} {block : Nat}
    {vs : List VarId} {done : Unit} :
    checkReads param homes block vs = .ok done ↔
      ∀ v ∈ vs, v ≠ param → ∀ home, homes.get? v = some home → home = block := by
  induction vs with
  | nil => simp [checkReads]
  | cons v vs ih =>
    rw [List.forall_mem_cons, ← ih]
    by_cases is_param : v = param
    · simp [checkReads, is_param]
    · cases found : homes.get? v with
      | none => simp [checkReads, is_param, found]
      | some home =>
        by_cases same : home = block
        · simp [checkReads, is_param, found, same]
        · simp [checkReads, is_param, found, same]

/-- The homes of the variables that a run of placed bindings binds. -/
def homesOf (placed : List (Nat × Binding)) : List (VarId × Nat) :=
  placed.map fun (block, b) => (b.var, block)

/-- What the check of the bindings asks: the parameter does not escape, and reads outside the
output's binding stay at home. -/
theorem checkPlaced_eq_ok_iff {c : Convention} {homes : Assoc VarId Nat}
    {placed : List (Nat × Binding)} {done : Unit} :
    checkPlaced c homes placed = .ok done ↔
      ∀ before block b after, placed = before ++ (block, b) :: after →
        b.value.escapes c.param = false ∧
          (b.var ≠ c.output → ∀ v ∈ b.value.reads, v ≠ c.param →
            ∀ home, (homes.insertAll (homesOf before)).get? v = some home → home = block) := by
  induction placed generalizing homes with
  | nil => simp [checkPlaced]
  | cons entry rest ih =>
    obtain ⟨block, b⟩ := entry
    by_cases escapes : b.value.escapes c.param = true
    · simp only [checkPlaced, escapes, if_true, Except.throw_eq_ok_iff, false_iff]
      intro all
      simpa [escapes] using (all [] block b rest rfl).1
    · have stays : b.value.escapes c.param = false := by simpa using escapes
      simp only [checkPlaced, escapes, Bool.false_eq_true, if_false, Except.bind_eq_ok_iff,
        checkReads_eq_ok_iff, ih]
      constructor
      · rintro ⟨-, head, tail⟩ before block' b' after split
        cases before with
        | nil =>
          simp only [List.nil_append, List.cons.injEq, Prod.mk.injEq] at split
          obtain ⟨⟨rfl, rfl⟩, rfl⟩ := split
          refine ⟨stays, fun ordinary => ?_⟩
          simpa [ordinary, homesOf] using head
        | cons e before =>
          simp only [List.cons_append, List.cons.injEq] at split
          obtain ⟨rfl, rfl⟩ := split
          exact tail before block' b' after rfl
      · intro all
        refine ⟨(), ?_, fun before block' b' after split => ?_⟩
        · by_cases is_output : b.var = c.output
          · simp [is_output]
          · simpa [is_output, homesOf] using (all [] block b rest rfl).2 is_output
        · exact all ((block, b) :: before) block' b' after (by rw [split]; rfl)

/-! ### The other conditions -/

theorem soleParam_eq_ok_iff {params : List VarId} {param : VarId} :
    soleParam params = .ok param ↔ params = [param] := by
  match params with
  | [] => simp [soleParam]
  | [p] => simp [soleParam]
  | p :: q :: rest => simp [soleParam]

theorem checkParamTy_eq_ok_iff {param : VarId} {ty? : Option Ty} {done : Unit} :
    checkParamTy param ty? = .ok done ↔ (ty?.getD .object).isTuple = true := by
  by_cases tuple : (ty?.getD .object).isTuple = true <;> simp [checkParamTy, tuple]

theorem resultVar_eq_ok_iff {result : Expr} {v : VarId} :
    resultVar result = .ok v ↔ result = .var v := by
  rw [← Expr.asVar?_eq_some_iff]
  cases found : result.asVar? with
  | none => simp [resultVar, found]
  | some w => simp [resultVar, found]

theorem checkBound_eq_ok_iff {output : VarId} {binding? : Option (Nat × Binding)} {done : Unit} :
    checkBound output binding? = .ok done ↔ binding?.isSome = true := by
  by_cases found : binding?.isSome = true <;> simp [checkBound, found]

end Convention

namespace Func

/-! ### Places of bindings -/

theorem mem_placed_iff {f : Func} {k : Nat} {b : Binding} :
    (k, b) ∈ f.placed ↔ ∃ block, f.blocks[k]? = some block ∧ b ∈ block.bindings := by
  simp only [placed, List.mem_flatMap, Prod.exists, List.mem_zipIdx_iff_getElem?, List.mem_map,
    Prod.mk.injEq]
  constructor
  · rintro ⟨block, k', at_k, b', mem, rfl, rfl⟩
    exact ⟨block, at_k, mem⟩
  · rintro ⟨block, at_k, mem⟩
    exact ⟨block, k, at_k, b, mem, rfl, rfl⟩

/-- The placed bindings are the bindings, each with its block. -/
theorem map_snd_placed (f : Func) : f.placed.map Prod.snd = f.bindings := by
  simp only [placed, bindings, List.map_flatMap, List.map_map, Function.comp_def, List.map_id']
  have flat : ∀ (blocks : List Block) (start : Nat),
      (blocks.zipIdx start).flatMap (fun entry => entry.1.bindings) =
        blocks.flatMap Block.bindings := by
    intro blocks
    induction blocks with
    | nil => simp
    | cons block blocks ih => simp [List.zipIdx_cons, ih]
  exact flat f.blocks 0

/-! ### Functions that follow the convention -/

/-- What is known of a function that follows the convention `c`. -/
structure Follows (f : Func) (c : Convention) : Prop where
  params : f.params = [c.param]
  param_lt : c.param.index < f.vars.length
  /-- single assignment and definition before use, from the parameter on -/
  ordered : Scope.Ordered f.vars.length [c.param] f.bindings
  result : f.result = .var c.output
  output_bound : c.output ∈ f.bindings.map Binding.var
  /-- the parameter occurs only as the base of projections -/
  confined : ∀ b ∈ f.bindings, b.value.escapes c.param = false
  /-- reads outside the output's binding stay in their block -/
  at_home : ∀ block ∈ f.blocks, ∀ b ∈ block.bindings, b.var ≠ c.output →
    ∀ v ∈ b.value.reads, v ≠ c.param → v ∈ block.bindings.map Binding.var

/-- A read that passed the check of the bindings is bound in the block of the reader: scoping says
that it has a home, and the check that the home is this block. -/
theorem at_home_of_checkPlaced {f : Func} {c : Convention}
    (ordered : Scope.Ordered f.vars.length [c.param] f.bindings)
    (passed : Convention.checkPlaced c [] f.placed = .ok ())
    {block : Block} (block_mem : block ∈ f.blocks) {b : Binding} (mem : b ∈ block.bindings)
    (ordinary : b.var ≠ c.output) {v : VarId} (read : v ∈ b.value.reads)
    (not_param : v ≠ c.param) : v ∈ block.bindings.map Binding.var := by
  obtain ⟨k, at_k⟩ := List.getElem?_of_mem block_mem
  obtain ⟨before, after, split⟩ := List.append_of_mem (mem_placed_iff.mpr ⟨block, at_k, mem⟩)
  have bindings_split : f.bindings = before.map Prod.snd ++ b :: after.map Prod.snd := by
    rw [← f.map_snd_placed, split]
    simp
  have bound_before : v ∈ (before.map Prod.snd).map Binding.var := by
    rw [bindings_split] at ordered
    simpa [not_param] using ordered.reads_defined v read
  have has_home : v ∈ (Convention.homesOf before).map Prod.fst := by
    simpa [Convention.homesOf] using bound_before
  obtain ⟨home, found⟩ := Assoc.exists_get?_insertAll (m := []) has_home
  obtain rfl : home = k :=
    (Convention.checkPlaced_eq_ok_iff.mp passed before k b after split).2
      ordinary v read not_param home found
  -- The binding that gave `v` its home stands in this block.
  have origin : (v, home) ∈ Convention.homesOf before := by
    rcases Assoc.get?_insertAll_eq_some found with mem | absent
    · exact mem
    · simp at absent
  obtain ⟨⟨k', b'⟩, mem', same⟩ := List.mem_map.mp origin
  obtain ⟨rfl, rfl⟩ := Prod.mk.inj same
  have placed' : (k', b') ∈ f.placed := by
    rw [split]
    exact List.mem_append_left _ mem'
  obtain ⟨block', at_k', mem_block'⟩ := mem_placed_iff.mp placed'
  obtain rfl : block = block' := Option.some.inj (at_k.symm.trans at_k')
  exact List.mem_map_of_mem mem_block'

/-- The answer of the check is a convention that the function follows. -/
theorem Follows.of_convention {f : Func} {c : Convention} (answered : f.convention = .ok c) :
    f.Follows c := by
  simp only [Func.convention, Except.bind_eq_ok_iff, Except.pure_eq_ok_iff,
    Except.mapError_eq_ok_iff, Convention.soleParam_eq_ok_iff, Convention.checkParamTy_eq_ok_iff,
    Convention.resultVar_eq_ok_iff, Convention.checkBound_eq_ok_iff] at answered
  obtain ⟨param, params, ⟨⟩, in_scope, -, -, output, result, -, bound, ⟨⟩, passed, rfl⟩ := answered
  obtain ⟨⟨inside, -⟩, ordered, -⟩ := Func.checkScope_eq_ok_iff.mp in_scope
  rw [params, List.reverse_singleton] at ordered
  refine
    { params
      param_lt := inside param (by simp [params])
      ordered
      result
      output_bound := ?_
      confined := ?_
      at_home := fun block block_mem b mem ordinary v read not_param =>
        at_home_of_checkPlaced ordered passed block_mem mem ordinary read not_param }
  · obtain ⟨⟨k, b⟩, found⟩ := Option.isSome_iff_exists.mp bound
    have is_output : b.var = output := by simpa using List.find?_some found
    rw [← f.map_snd_placed]
    exact List.mem_map.mpr
      ⟨b, List.mem_map.mpr ⟨(k, b), List.mem_of_find?_eq_some found, rfl⟩, is_output⟩
  · intro b mem
    rw [← f.map_snd_placed] at mem
    obtain ⟨⟨k, b'⟩, placed, rfl⟩ := List.mem_map.mp mem
    obtain ⟨before, after, split⟩ := List.append_of_mem placed
    exact (Convention.checkPlaced_eq_ok_iff.mp passed before k b' after split).1

end Func

end ParamStream
