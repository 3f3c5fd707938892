import Mathlib.Data.List.Nodup
import ParamStream.Proofs.Convention
import ParamStream.Proofs.Subexpressions

/-!
# Which functions the calling convention accepts

`Func.convention` looks at the bindings last, with a map from the variables bound so far to their
blocks.  What the map answers for a variable that a binding reads is the block that binds it in the
whole function: scoping puts that binding before the reader, and single assignment makes it the
only one.  So acceptance can be said of blocks and occurrences, and a rejection at this stage is
that of the first binding that offends.

## Main definitions

* `Func.Conforms` — what is asked of a function apart from the values of its bindings;
* `Func.BoundIn` — the block that binds a variable;
* `Func.Offends` — the two ways in which a binding breaks the convention.

## Main statements

* `Convention.checkPlaced_eq_error_iff` — the check of the bindings fails at the first that fails;
* `Func.checkEntry_eq_error_iff` — a binding fails with the error for its offence;
* `Func.convention_decided`.
-/

namespace ParamStream

namespace Convention

variable {c : Convention} {homes : Assoc VarId Nat} {e : StreamError}

/-- Reads fail at the first of them whose home is another block. -/
theorem checkReads_eq_error_iff {param : VarId} {block : Nat} {vs : List VarId} :
    checkReads param homes block vs = .error e ↔
      ∃ front x back home, vs = front ++ x :: back ∧
        (∀ v ∈ front, v ≠ param → ∀ j, homes.get? v = some j → j = block) ∧
        x ≠ param ∧ homes.get? x = some home ∧ home ≠ block ∧ e = .crossBlockRead x home block := by
  induction vs with
  | nil => exact ⟨nofun, by simp⟩
  | cons v vs ih =>
    -- A first read that passes leaves the others to decide.
    have passes (fine : v ≠ param → ∀ j, homes.get? v = some j → j = block) :
        (∃ front x back home, vs = front ++ x :: back ∧
          (∀ v ∈ front, v ≠ param → ∀ j, homes.get? v = some j → j = block) ∧
          x ≠ param ∧ homes.get? x = some home ∧ home ≠ block ∧
          e = .crossBlockRead x home block) ↔
        ∃ front x back home, v :: vs = front ++ x :: back ∧
          (∀ v ∈ front, v ≠ param → ∀ j, homes.get? v = some j → j = block) ∧
          x ≠ param ∧ homes.get? x = some home ∧ home ≠ block ∧
          e = .crossBlockRead x home block := by
      constructor
      · rintro ⟨front, x, back, home, rfl, front_fine, found⟩
        exact ⟨v :: front, x, back, home, rfl, List.forall_mem_cons.mpr ⟨fine, front_fine⟩, found⟩
      · rintro ⟨front, x, back, home, split, front_fine, not_param, found, away, rfl⟩
        cases front with
        | nil =>
          obtain ⟨rfl, -⟩ := List.cons.inj split
          exact absurd (fine not_param home found) away
        | cons y front =>
          obtain ⟨rfl, rfl⟩ := List.cons.inj split
          exact ⟨front, x, back, home, rfl, (List.forall_mem_cons.mp front_fine).2, not_param,
            found, away, rfl⟩
    rw [checkReads]
    split
    · next is_param => exact ih.trans (passes fun not_param => absurd is_param not_param)
    · next not_param =>
      split
      · next home found =>
        split
        · next same =>
          refine ih.trans (passes fun _ j found' => ?_)
          exact (Option.some.inj (found'.symm.trans found)).trans same
        · next away =>
          constructor
          · rintro ⟨⟩
            exact ⟨[], v, vs, home, rfl, by simp, not_param, found, away, rfl⟩
          · rintro ⟨front, x, back, home', split, front_fine, -, found', -, rfl⟩
            cases front with
            | nil =>
              obtain ⟨rfl, -⟩ := List.cons.inj split
              obtain rfl := Option.some.inj (found.symm.trans found')
              rfl
            | cons y front =>
              obtain ⟨rfl, -⟩ := List.cons.inj split
              exact absurd (front_fine v (by simp) not_param home found) away
      · next absent =>
        refine ih.trans (passes fun _ j found => ?_)
        simp [absent] at found

/-- What the check of the bindings does at one of them. -/
def checkEntry (c : Convention) (homes : Assoc VarId Nat) (block : Nat) (b : Binding) :
    Except StreamError Unit :=
  if b.value.escapes c.param then throw (.paramEscapes c.param)
  else checkReads c.param homes block (if b.var = c.output then [] else b.value.reads)

theorem checkPlaced_cons (block : Nat) (b : Binding) (rest : List (Nat × Binding)) :
    checkPlaced c homes ((block, b) :: rest) =
      checkEntry c homes block b >>= fun _ => checkPlaced c (homes.insert b.var block) rest := by
  rw [checkPlaced, checkEntry]
  split
  · rfl
  · rfl

/-- The check of a run of bindings continues with the homes that the first part has given out. -/
theorem checkPlaced_append (placed more : List (Nat × Binding)) :
    checkPlaced c homes (placed ++ more) =
      checkPlaced c homes placed >>= fun _ =>
        checkPlaced c (homes.insertAll (homesOf placed)) more := by
  induction placed generalizing homes with
  | nil => rfl
  | cons entry placed ih =>
    obtain ⟨block, b⟩ := entry
    rw [List.cons_append, checkPlaced_cons, checkPlaced_cons, bind_assoc]
    congr
    funext _
    exact ih

/-- The check of the bindings fails at the first binding that fails. -/
theorem checkPlaced_eq_error_iff {placed : List (Nat × Binding)} :
    checkPlaced c homes placed = .error e ↔
      ∃ before block b after, placed = before ++ (block, b) :: after ∧
        checkPlaced c homes before = .ok () ∧
        checkEntry c (homes.insertAll (homesOf before)) block b = .error e := by
  constructor
  · intro fails
    induction placed generalizing homes with
    | nil => cases fails
    | cons entry rest ih =>
      obtain ⟨block, b⟩ := entry
      rw [checkPlaced_cons, Except.bind_eq_error_iff] at fails
      rcases fails with fails | ⟨_, passes, fails⟩
      · exact ⟨[], block, b, rest, rfl, rfl, fails⟩
      · obtain ⟨before, block', b', after, rfl, earlier, at_entry⟩ := ih fails
        refine ⟨(block, b) :: before, block', b', after, rfl, ?_, at_entry⟩
        rw [checkPlaced_cons, passes]
        exact earlier
  · rintro ⟨before, block, b, after, rfl, earlier, at_entry⟩
    rw [checkPlaced_append, earlier, Except.ok_bind, checkPlaced_cons, at_entry]
    rfl

end Convention

namespace Func

open Convention

/-- A function whose only parameter is a tuple, which is well scoped and returns a variable that it
binds.  These conditions do not look at the values of its bindings beyond scoping. -/
structure Conforms (f : Func) (c : Convention) : Prop where
  params : f.params = [c.param]
  checked : f.checkScope = .ok ()
  tuple : ∃ tys, f.varTy? c.param = some (.tuple tys)
  result : f.result = .var c.output
  bound : ∃ b ∈ f.bindings, b.var = c.output

/-- A binding of block `k` binds the variable. -/
def BoundIn (f : Func) (k : Nat) (v : VarId) : Prop := ∃ b, (k, b) ∈ f.placed ∧ b.var = v

/-- How a binding of block `k` breaks the convention: the parameter occurs in it other than as the
base of a projection, or else it is not the output's and reads a variable of another block.  The
error names the first such variable in visit order and the two blocks. -/
inductive Offends (f : Func) (c : Convention) (k : Nat) (b : Binding) : StreamError → Prop
  | escape (escapes : ¬ b.value.OnlyProjected c.param) : f.Offends c k b (.paramEscapes c.param)
  | read {front back : List VarId} {x : VarId} {home : Nat}
      (confined : b.value.OnlyProjected c.param) (ordinary : b.var ≠ c.output)
      (reads : b.value.visited = front ++ x :: back)
      (at_home : ∀ v ∈ front, ∀ j, f.BoundIn j v → j = k) (bound : f.BoundIn home x)
      (away : home ≠ k) : f.Offends c k b (.crossBlockRead x home k)

variable {f : Func} {c : Convention}

/-! ### Homes -/

/-- Single assignment and definition before use, from the parameter on. -/
theorem Conforms.ordered (conforms : f.Conforms c) :
    Scope.Ordered f.vars.length [c.param] f.bindings := by
  simpa [conforms.params] using (checkScope_eq_ok_iff.mp conforms.checked).2.1

/-- A variable has one home. -/
theorem Conforms.boundIn_unique (conforms : f.Conforms c) {j k : Nat} {v : VarId}
    (here : f.BoundIn j v) (there : f.BoundIn k v) : j = k := by
  obtain ⟨b, placed, rfl⟩ := here
  obtain ⟨b', placed', same⟩ := there
  have distinct : (f.placed.map fun entry => entry.2.var).Nodup := by
    have nodup := conforms.ordered.nodup
    rwa [← f.map_snd_placed, List.map_map] at nodup
  exact congrArg Prod.fst (List.inj_on_of_nodup_map distinct placed placed' same.symm)

/-- The parameter has no home. -/
theorem Conforms.not_boundIn_param (conforms : f.Conforms c) (k : Nat) :
    ¬ f.BoundIn k c.param := by
  rintro ⟨b, placed, is_param⟩
  have bound : b.var ∈ f.bindings.map Binding.var := by
    rw [← f.map_snd_placed]
    exact List.mem_map_of_mem (List.mem_map_of_mem (f := Prod.snd) placed)
  exact conforms.ordered.var_notMem _ bound (by simp [is_param])

/-- Where a binding stands, the map built so far knows the home of everything that it reads. -/
theorem Conforms.get?_homesOf_iff (conforms : f.Conforms c) {before after : List (Nat × Binding)}
    {k : Nat} {b : Binding} (split : f.placed = before ++ (k, b) :: after) {v : VarId}
    (read : v ∈ b.value.reads) (not_param : v ≠ c.param) {j : Nat} :
    (Assoc.insertAll [] (homesOf before)).get? v = some j ↔ f.BoundIn j v := by
  have bound_of_found {i : Nat}
      (found : (Assoc.insertAll [] (homesOf before)).get? v = some i) : f.BoundIn i v := by
    obtain ⟨⟨i', b'⟩, mem, same⟩ := List.mem_map.mp
      ((Assoc.get?_insertAll_eq_some found).resolve_right (by simp))
    obtain ⟨rfl, rfl⟩ := Prod.mk.inj same
    exact ⟨b', by rw [split]; exact List.mem_append_left _ mem, rfl⟩
  refine ⟨bound_of_found, fun bound => ?_⟩
  have bound_before : v ∈ (homesOf before).map Prod.fst := by
    have ordered := conforms.ordered
    rw [← f.map_snd_placed, split, List.map_append, List.map_cons] at ordered
    simpa [not_param, homesOf] using ordered.reads_defined v read
  obtain ⟨i, found⟩ := Assoc.exists_get?_insertAll (m := []) bound_before
  rw [found, conforms.boundIn_unique (bound_of_found found) bound]

/-! ### Offences -/

/-- Where a binding stands, it fails with the error for its offence. -/
theorem Conforms.checkEntry_eq_error_iff (conforms : f.Conforms c)
    {before after : List (Nat × Binding)} {k : Nat} {b : Binding}
    (split : f.placed = before ++ (k, b) :: after) {e : StreamError} :
    checkEntry c (Assoc.insertAll [] (homesOf before)) k b = .error e ↔ f.Offends c k b e := by
  have home {v : VarId} (read : v ∈ b.value.reads) (not_param : v ≠ c.param) {j : Nat} :=
    conforms.get?_homesOf_iff split read not_param (j := j)
  have not_param_of_bound {j : Nat} {v : VarId} (bound : f.BoundIn j v) : v ≠ c.param := by
    rintro rfl
    exact conforms.not_boundIn_param j bound
  rw [checkEntry]
  by_cases escapes : b.value.escapes c.param = true
  · have not_confined : ¬ b.value.OnlyProjected c.param := by
      rw [← Expr.escapes_eq_false_iff, escapes]
      simp
    rw [if_pos escapes]
    constructor
    · rintro ⟨⟩
      exact .escape not_confined
    · rintro (_ | ⟨confined⟩)
      · rfl
      · exact absurd confined not_confined
  · have confined : b.value.OnlyProjected c.param :=
      Expr.escapes_eq_false_iff _ |>.mp (Bool.eq_false_iff.mpr escapes)
    rw [if_neg escapes, checkReads_eq_error_iff]
    constructor
    · rintro ⟨front, x, back, home', reads, at_home, not_param, found, away, rfl⟩
      have ordinary : b.var ≠ c.output := by
        intro is_output
        simp [is_output] at reads
      rw [if_neg ordinary] at reads
      refine .read confined ordinary (b.value.reads_eq_visited ▸ reads) (fun v mem j bound => ?_)
        ((home (by simp [reads]) not_param).mp found) away
      have is_other := not_param_of_bound bound
      exact at_home v mem is_other j ((home (by simp [reads, mem]) is_other).mpr bound)
    · rintro (not_confined | ⟨-, ordinary, reads, at_home, bound, away⟩)
      · exact absurd confined not_confined
      · rw [← Expr.reads_eq_visited] at reads
        have not_param := not_param_of_bound bound
        rw [if_neg ordinary]
        refine ⟨_, _, _, _, reads, fun v mem is_other j found => ?_, not_param,
          (home (by simp [reads]) not_param).mpr bound, away, rfl⟩
        exact at_home v mem j ((home (by simp [reads, mem]) is_other).mp found)

/-- The bindings up to a point pass exactly if none of them offends. -/
theorem Conforms.checkPlaced_eq_ok_iff (conforms : f.Conforms c)
    {before after : List (Nat × Binding)} (split : f.placed = before ++ after) :
    checkPlaced c [] before = .ok () ↔ ∀ k b, (k, b) ∈ before → ∀ e, ¬ f.Offends c k b e := by
  constructor
  · intro passes k b mem e offends
    obtain ⟨front, back, rfl⟩ := List.append_of_mem mem
    rw [checkPlaced_append, Except.bind_eq_ok_iff] at passes
    obtain ⟨_, -, rest⟩ := passes
    have at_entry := (conforms.checkEntry_eq_error_iff (by simpa using split)).mpr offends
    rw [checkPlaced_cons, at_entry] at rest
    cases rest
  · intro none_offends
    cases outcome : checkPlaced c [] before with
    | ok _ => rfl
    | error e =>
      obtain ⟨front, k, b, back, rfl, -, fails⟩ := checkPlaced_eq_error_iff.mp outcome
      exact absurd ((conforms.checkEntry_eq_error_iff (by simpa using split)).mp fails)
        (none_offends k b (by simp) e)

/-! ### Acceptance -/

theorem isTuple_getD_iff {ty? : Option Ty} :
    (ty?.getD .object).isTuple = true ↔ ∃ tys, ty? = some (.tuple tys) := by
  cases ty? with
  | none => simp [Ty.isTuple]
  | some ty => cases ty <;> simp [Ty.isTuple]

theorem isSome_bindingOf?_iff {v : VarId} :
    (f.bindingOf? v).isSome = true ↔ ∃ b ∈ f.bindings, b.var = v := by
  rw [bindingOf?, List.find?_isSome, ← f.map_snd_placed]
  constructor
  · rintro ⟨⟨k, b⟩, placed, same⟩
    exact ⟨b, List.mem_map_of_mem (f := Prod.snd) placed, of_decide_eq_true same⟩
  · rintro ⟨_, mem, same⟩
    obtain ⟨⟨k, b⟩, placed, rfl⟩ := List.mem_map.mp mem
    exact ⟨(k, b), placed, decide_eq_true same⟩

/-- The answer is positive exactly if the function conforms and its bindings pass. -/
theorem convention_eq_ok_iff :
    f.convention = .ok c ↔ f.Conforms c ∧ checkPlaced c [] f.placed = .ok () := by
  simp only [Func.convention, Except.bind_eq_ok_iff, Except.pure_eq_ok_iff,
    Except.mapError_eq_ok_iff, soleParam_eq_ok_iff, checkParamTy_eq_ok_iff, resultVar_eq_ok_iff,
    checkBound_eq_ok_iff, isTuple_getD_iff, isSome_bindingOf?_iff]
  constructor
  · rintro ⟨param, params, _, checked, _, tuple, output, result, _, bound, _, passes, rfl⟩
    exact ⟨⟨params, checked, tuple, result, bound⟩, passes⟩
  · rintro ⟨⟨params, checked, tuple, result, bound⟩, passes⟩
    exact ⟨c.param, params, (), checked, (), tuple, c.output, result, (), bound, (), passes, rfl⟩

/-- Of a function that conforms, the bindings decide. -/
theorem Conforms.convention_eq (conforms : f.Conforms c) :
    f.convention = checkPlaced c [] f.placed >>= fun _ => pure c := by
  have in_scope : f.checkScope.mapError StreamError.illScoped = .ok () :=
    Except.mapError_eq_ok_iff.mpr conforms.checked
  have tuple : checkParamTy c.param (f.varTy? c.param) = .ok () :=
    checkParamTy_eq_ok_iff.mpr (isTuple_getD_iff.mpr conforms.tuple)
  have bound : checkBound c.output (f.bindingOf? c.output) = .ok () :=
    checkBound_eq_ok_iff.mpr (isSome_bindingOf?_iff.mpr conforms.bound)
  rw [convention, soleParam_eq_ok_iff.mpr conforms.params, Except.ok_bind, in_scope,
    Except.ok_bind, tuple, Except.ok_bind, resultVar_eq_ok_iff.mpr conforms.result, Except.ok_bind,
    bound, Except.ok_bind]

/-- The bindings pass exactly if the parameter is only projected and reads stay in their block, the
output's aside. -/
theorem Conforms.checkPlaced_eq_ok_iff_at_home (conforms : f.Conforms c) :
    checkPlaced c [] f.placed = .ok () ↔
      (∀ b ∈ f.bindings, b.value.OnlyProjected c.param) ∧
        ∀ block ∈ f.blocks, ∀ b ∈ block.bindings, b.var ≠ c.output →
          ∀ v ∈ b.value.visited, v ≠ c.param → v ∈ block.bindings.map Binding.var := by
  simp only [← Expr.reads_eq_visited]
  constructor
  · intro passes
    have follows := Follows.of_convention (convention_eq_ok_iff.mpr ⟨conforms, passes⟩)
    exact ⟨fun b mem => (Expr.escapes_eq_false_iff _).mp (follows.confined b mem), follows.at_home⟩
  · rintro ⟨confined, at_home⟩
    refine Convention.checkPlaced_eq_ok_iff.mpr fun before k b after split => ?_
    have placed : (k, b) ∈ f.placed := by simp [split]
    obtain ⟨block, at_k, mem⟩ := mem_placed_iff.mp placed
    refine ⟨(Expr.escapes_eq_false_iff _).mpr (confined b ?_), ?_⟩
    · rw [← f.map_snd_placed]
      exact List.mem_map_of_mem (f := Prod.snd) placed
    · intro ordinary v read not_param home found
      have elsewhere := (conforms.get?_homesOf_iff split read not_param).mp found
      obtain ⟨b', mem', same⟩ := List.mem_map.mp
        (at_home block (List.mem_of_getElem? at_k) b mem ordinary v read not_param)
      exact conforms.boundIn_unique elsewhere ⟨b', mem_placed_iff.mpr ⟨block, at_k, mem'⟩, same⟩

/-- **Acceptance is decided, and the first offence is reported.**  The convention `c` is the answer
exactly if the function conforms to it, its bindings only project the parameter, and all but the
output's read variables of their own block.  A function that conforms is rejected with the error of
the first binding, in program order, that offends. -/
theorem convention_decided (f : Func) (c : Convention) :
    (f.convention = .ok c ↔
      f.Conforms c ∧ (∀ b ∈ f.bindings, b.value.OnlyProjected c.param) ∧
        ∀ block ∈ f.blocks, ∀ b ∈ block.bindings, b.var ≠ c.output →
          ∀ v ∈ b.value.visited, v ≠ c.param → v ∈ block.bindings.map Binding.var) ∧
      (f.Conforms c → ∀ e, f.convention = .error e ↔
        ∃ before k b after, f.placed = before ++ (k, b) :: after ∧ f.Offends c k b e ∧
          ∀ k' b', (k', b') ∈ before → ∀ e', ¬ f.Offends c k' b' e') := by
  constructor
  · rw [convention_eq_ok_iff]
    exact and_congr_right fun conforms => conforms.checkPlaced_eq_ok_iff_at_home
  · intro conforms e
    rw [conforms.convention_eq, Except.bind_eq_error_iff, checkPlaced_eq_error_iff]
    constructor
    · rintro (⟨before, k, b, after, split, earlier, fails⟩ | ⟨_, -, passes⟩)
      · exact ⟨before, k, b, after, split, (conforms.checkEntry_eq_error_iff split).mp fails,
          (conforms.checkPlaced_eq_ok_iff split).mp earlier⟩
      · cases passes
    · rintro ⟨before, k, b, after, split, offends, none_before⟩
      exact .inl ⟨before, k, b, after, split,
        (conforms.checkPlaced_eq_ok_iff split).mpr none_before,
        (conforms.checkEntry_eq_error_iff split).mpr offends⟩

end Func

/-- The second block reads a variable of the first, below a call, before it returns the parameter
among its outputs. -/
def Sample.crossing : Func where
  params := [⟨0⟩]
  blocks :=
    [⟨.dataflow,
      [⟨⟨1⟩, .proj (.var ⟨0⟩) 0⟩,
        ⟨⟨2⟩, .call (.op ⟨6⟩) [.var ⟨1⟩] .tensor⟩]⟩,
      ⟨.plain,
      [⟨⟨3⟩, .proj (.var ⟨0⟩) 1⟩,
        ⟨⟨4⟩, .call (.op ⟨7⟩) [.var ⟨3⟩, .call (.op ⟨6⟩) [.var ⟨2⟩] .tensor] .tensor⟩,
        ⟨⟨5⟩, .tuple [.var ⟨4⟩, .var ⟨0⟩]⟩]⟩]
  result := .var ⟨5⟩
  resultTy := .tuple [.tensor, .tuple [.tensor, .tensor]]
  vars :=
    [⟨⟨1⟩, .tuple [.tensor, .tensor]⟩, ⟨⟨2⟩, .tensor⟩, ⟨⟨3⟩, .tensor⟩, ⟨⟨4⟩, .tensor⟩,
      ⟨.empty, .tensor⟩, ⟨⟨5⟩, .tuple [.tensor, .tuple [.tensor, .tensor]]⟩]
  attrs := []

namespace Func

open Sample in
/-- The read of 2 is reported, and not the escape of the parameter after it. -/
theorem convention_decided_crossing : ∃ c,
    crossing.Conforms c ∧ crossing.convention = .error (.crossBlockRead ⟨2⟩ 0 1) ∧
      (∃ before k b after, crossing.placed = before ++ (k, b) :: after ∧
        crossing.Offends c k b (.crossBlockRead ⟨2⟩ 0 1) ∧
        ∀ k' b', (k', b') ∈ before → ∀ e', ¬ crossing.Offends c k' b' e') ∧
      crossing.Offends c 1 ⟨⟨5⟩, .tuple [.var ⟨4⟩, .var ⟨0⟩]⟩ (.paramEscapes ⟨0⟩) := by
  have conforms : crossing.Conforms ⟨⟨0⟩, ⟨5⟩⟩ :=
    { params := rfl
      checked := rfl
      tuple := ⟨_, rfl⟩
      result := rfl
      bound := by decide }
  have rejected : crossing.convention = .error (.crossBlockRead ⟨2⟩ 0 1) := rfl
  refine ⟨_, conforms, rejected, ((convention_decided crossing _).2 conforms _).mp rejected, ?_⟩
  exact .escape fun confined => absurd ((Expr.escapes_eq_false_iff _).mpr confined) (by decide)

end Func

end ParamStream
