import ParamStream.Proofs.Releases

/-!
# Storage that several variables share

A binding of a bare variable makes a copy: two variables now stand for one piece of storage.  Last
uses are found for each variable by itself, so a variable may be released while a copy of it is
still in use, or be released together with a copy.

`Func.CopySafe` is a condition on the function alone: no copy of an input is released besides the
input, and none is used after the last use of the input itself.  `Func.storageSafe_iff` says that it
decides whether the streaming form ever touches storage that it has given back.

## Main definitions

* `Expr.passed` — the variables handed to operators, commits and releases;
* `Func.Denotes` — a variable stands for the storage of another one;
* `Func.StorageSafe`, `Func.CopySafe`.
-/

namespace ParamStream

/-! ### What is passed to calls -/

namespace Expr

/-- Whether a call of this callee uses the storage of what it is given: it is an operator, or the
host's commit or release. -/
def consumes (table : SymbolTable) : Expr → Bool
  | .op _ => true
  | .host name =>
    match StoreService.ofName? (table.resolve name) with
    | some .commit | some .release => true
    | _ => false
  | _ => false

mutual

/-- The variables in the arguments of operators, commits and releases, at any depth. -/
def passed (table : SymbolTable) : Expr → List VarId
  | .tuple fields => passedAll table fields
  | .proj base _ => base.passed table
  | .call callee args _ =>
    (if callee.consumes table then readsAll args else []) ++
      (callee.passed table ++ passedAll table args)
  | .var _ | .lit _ | .host _ | .op _ => []

/-- `passed` for a list of expressions, from left to right. -/
def passedAll (table : SymbolTable) : List Expr → List VarId
  | [] => []
  | e :: es => e.passed table ++ passedAll table es

end

variable {table : SymbolTable} {param t : VarId}

theorem passedAll_eq_flatMap (es : List Expr) :
    passedAll table es = es.flatMap (passed table) := by
  induction es with
  | nil => rfl
  | cons e es ih => simp [passedAll, ih]

mutual

theorem passed_subset_reads (e : Expr) : ∀ v ∈ e.passed table, v ∈ e.reads := by
  match e with
  | .tuple fields => exact passedAll_subset_readsAll fields
  | .proj base i => exact passed_subset_reads base
  | .call callee args ty =>
    intro v mem
    have head := passed_subset_reads callee v
    have rest := passedAll_subset_readsAll args v
    simp only [passed, List.mem_append] at mem
    rw [reads, List.mem_append]
    rcases mem with direct | in_callee | in_args
    · split at direct
      · exact .inr direct
      · simp at direct
    · exact .inl (head in_callee)
    · exact .inr (rest in_args)
  | .var v => simp [passed]
  | .lit l => simp [passed]
  | .host name => simp [passed]
  | .op name => simp [passed]

theorem passedAll_subset_readsAll (es : List Expr) :
    ∀ v ∈ passedAll table es, v ∈ readsAll es := by
  match es with
  | [] => simp [passedAll]
  | e :: es =>
    intro v mem
    rw [passedAll, List.mem_append] at mem
    rw [readsAll, List.mem_append]
    exact mem.imp (passed_subset_reads e v) (passedAll_subset_readsAll es v)

end

theorem consumes_redirect (rename : VarId → VarId) (fresh : Nat) (e : Expr) :
    (e.redirect param rename fresh).consumes table = e.consumes table := by
  cases e with
  | proj base i =>
    by_cases is_input : base.asVar? = some param <;> simp [redirect, is_input, consumes]
  | _ => simp [redirect, consumes]

mutual

/-- What the new expression passes on: the new names of what the old one does, and besides only
inputs that were fetched for it. -/
theorem mem_passed_redirect (table : SymbolTable) (rename : VarId → VarId) (fresh : Nat) (e : Expr)
    (stays : e.escapes param = false) :
    ((∃ v ∈ e.passed table, v ≠ param ∧ rename v = t) →
      t ∈ (e.redirect param rename fresh).passed table) ∧
    (t ∈ (e.redirect param rename fresh).passed table →
      (∃ v ∈ e.passed table, v ≠ param ∧ rename v = t) ∨
        InRange fresh (e.inputReads param).length t) := by
  match e with
  | .tuple fields => exact mem_passedAll_redirectAll table rename fresh fields stays
  | .proj base i =>
    by_cases is_input : base.asVar? = some param
    · obtain rfl := asVar?_eq_some_iff.mp is_input
      simp [redirect, asVar?, passed]
    · rw [escapes, if_neg is_input] at stays
      rw [redirect, if_neg is_input, inputReads, if_neg is_input]
      exact mem_passed_redirect table rename fresh base stays
  | .call callee args ty =>
    rw [escapes, Bool.or_eq_false_iff] at stays
    have head := mem_passed_redirect table rename fresh callee stays.1
    have rest := mem_passedAll_redirectAll table rename
      (fresh + (callee.inputReads param).length) args stays.2
    have direct := mem_readsAll_redirectAll rename (fresh + (callee.inputReads param).length) args
      stays.2 t
    simp only [redirect, passed, consumes_redirect, inputReads, List.mem_append,
      List.length_append]
    cases callee.consumes table <;> grind [InRange]
  | .var v => simp [redirect, passed]
  | .lit l => simp [redirect, passed]
  | .host name => simp [redirect, passed]
  | .op name => simp [redirect, passed]

/-- `mem_passed_redirect` for a list of expressions. -/
theorem mem_passedAll_redirectAll (table : SymbolTable) (rename : VarId → VarId) (fresh : Nat)
    (es : List Expr) (stay : escapesAny param es = false) :
    ((∃ v ∈ passedAll table es, v ≠ param ∧ rename v = t) →
      t ∈ passedAll table (redirectAll param rename fresh es)) ∧
    (t ∈ passedAll table (redirectAll param rename fresh es) →
      (∃ v ∈ passedAll table es, v ≠ param ∧ rename v = t) ∨
        InRange fresh (inputReadsAll param es).length t) := by
  match es with
  | [] => simp [redirectAll, passedAll]
  | e :: es =>
    rw [escapesAny, Bool.or_eq_false_iff] at stay
    have head := mem_passed_redirect table rename fresh e stay.1
    have rest := mem_passedAll_redirectAll table rename (fresh + (e.inputReads param).length) es
      stay.2
    simp only [redirectAll, passedAll, inputReadsAll, List.mem_append, List.length_append]
    grind [InRange]

end

end Expr

namespace StoreCalls.Resolved

variable {calls : StoreCalls} {table : SymbolTable} (resolved : calls.Resolved table)
include resolved

theorem passed_fetch (i : Nat) : (calls.fetch i).passed table = [] := by
  simp [StoreCalls.fetch, Expr.passed, Expr.passedAll, Expr.consumes, resolved.fetch]

theorem passed_commit (v : VarId) (slot : Nat) : (calls.commit v slot).passed table = [v] := by
  simp [StoreCalls.commit, Expr.passed, Expr.passedAll, Expr.consumes, resolved.commit,
    Expr.readsAll, Expr.reads]

theorem passed_release (v : VarId) : (calls.release v).passed table = [v] := by
  simp [StoreCalls.release, Expr.passed, Expr.passedAll, Expr.consumes, resolved.release,
    Expr.readsAll, Expr.reads]

end StoreCalls.Resolved

/-! ### Copies -/

namespace Func

/-- The variable stands for the storage of `t`: it is `t`, or a copy of a variable that does. -/
inductive Denotes (f : Func) (t : VarId) : VarId → Prop
  | self : Denotes f t t
  | copy {u a : VarId} : ⟨u, .var a⟩ ∈ f.bindings → Denotes f t a → Denotes f t u

/-- A copy of a bound variable is bound. -/
theorem Denotes.bound {f : Func} {t u : VarId} (denotes : f.Denotes t u)
    (bound : ∃ b ∈ f.bindings, b.var = t) : ∃ b ∈ f.bindings, b.var = u := by
  cases denotes with
  | self => exact bound
  | copy mem _ => exact ⟨_, mem, rfl⟩

/-- Without bindings of bare variables there are no copies. -/
theorem Denotes.eq_of_no_copy {f : Func} (no_copy : ∀ b ∈ f.bindings, b.value.asVar? = none)
    {t u : VarId} (denotes : f.Denotes t u) : u = t := by
  cases denotes with
  | self => rfl
  | copy mem _ => simpa [Expr.asVar?] using no_copy _ mem

/-- Once the storage of a fetched input has been released, under whatever name, no variable that
stands for it is passed to an operator, committed or released. -/
def StorageSafe (table : SymbolTable) (f : Func) : Prop :=
  ∀ before b after a t, f.bindings = before ++ b :: after → b.value.released? table = some a →
    (∃ c ∈ f.bindings, c.var = t ∧ c.value.service? table = some .fetch) → f.Denotes t a →
      ∀ c ∈ after, ∀ u ∈ c.value.passed table, ¬ f.Denotes t u

/-- `d` is the last ordinary binding that reads or binds `v`, when `after` follows it. -/
def IsLastUse (output v : VarId) (d : Binding) (after : List Binding) : Prop :=
  d.var ≠ output ∧ v ∈ d.touches ∧ ∀ k ∈ after, k.var ≠ output → v ∉ k.value.reads

/-- Copies of an input are neither released nor outlive its last use. -/
structure CopySafe (table : SymbolTable) (f : Func) (plan : Plan) (tracked : List VarId) :
    Prop where
  released_once : ∀ v ∈ plan.interface.projections, ∀ u ∈ tracked, f.Denotes v u → u = v
  /-- after the last use of an input, no copy of it is passed on or bound as an output -/
  not_outlived : ∀ v ∈ plan.interface.projections, ∀ before d after,
    f.bindings = before ++ d :: after → IsLastUse plan.convention.output v d after →
      ∀ k ∈ after, k.var ≠ plan.convention.output →
        (∀ u ∈ k.value.passed table, ¬ f.Denotes v u) ∧
          (f.Denotes v k.var → plan.interface.outputs.slots k.var = [])

end Func

namespace Layout

variable {f g : Func} {calls : StoreCalls} {plan : Plan} {tracked : List VarId}
  {table : SymbolTable} (l : Layout f calls plan) {done later : List Segment} {h k : Segment}
  {t u v : VarId}

/-- A copy in the code is the copy of a variable in the function. -/
theorem exists_copy_of_mem_code (planned : f.Planned plan tracked) {a : VarId}
    (mem : ⟨u, .var a⟩ ∈ l.code) :
    ∃ h ∈ l.segments, ∃ x, h.source.value = .var x ∧ (∃ b ∈ f.bindings, b.var = x) ∧
      l.rename x = a ∧ h.target = u := by
  obtain ⟨h, h_mem, in_code⟩ := List.mem_flatMap.mp mem
  rcases Segment.cases_of_mem_code in_code with
    ⟨i, -, is_fetch⟩ | is_value | ⟨slot, -, is_commit⟩ | ⟨w, -, is_release⟩
  · simp [StoreCalls.fetch] at is_fetch
  · obtain ⟨rfl, value⟩ := Binding.mk.inj is_value
    have ordinary : h.source.var ≠ plan.convention.output := by
      intro is_output
      rw [(l.isOutput h h_mem is_output).value] at value
      simp at value
    rw [(l.isValue h h_mem ordinary).value, Expr.streamed] at value
    have not_input : h.source.value.inputIndex? plan.convention.param = none := by
      cases is_input : h.source.value.inputIndex? plan.convention.param with
      | some i => simp [is_input, StoreCalls.fetch] at value
      | none => rfl
    rw [not_input] at value
    have as_var := congrArg Expr.asVar? value
    rw [Expr.asVar?_redirect, not_input] at as_var
    obtain ⟨x, is_x, same⟩ := Option.map_eq_some_iff.mp as_var.symm
    have is_copy := Expr.asVar?_eq_some_iff.mp is_x
    have not_param : x ≠ plan.convention.param := by
      have stays := planned.follows.confined h.source (l.source_mem h_mem)
      simpa [is_copy, Expr.escapes] using stays
    obtain ⟨before, after, split⟩ := List.append_of_mem h_mem
    obtain ⟨k, k_mem, is_source⟩ := l.exists_done_of_read planned split
      (by simp [is_copy, Expr.reads]) not_param
    exact ⟨h, h_mem, x, is_copy,
      ⟨k.source, l.source_mem (split ▸ List.mem_append_left _ k_mem), is_source⟩, same, rfl⟩
  · simp [StoreCalls.commit] at is_commit
  · simp [StoreCalls.release] at is_release

/-- Copies correspond: the copies of a new name are the new names of the copies. -/
theorem denotes_rename_iff (planned : f.Planned plan tracked) (describes : l.Describes g)
    (bound : ∃ b ∈ f.bindings, b.var = v) :
    g.Denotes (l.rename v) u ↔ ∃ w, f.Denotes v w ∧ l.rename w = u := by
  constructor
  · intro denotes
    induction denotes with
    | self => exact ⟨v, .self, rfl⟩
    | copy mem _ ih =>
      obtain ⟨w, copied, same⟩ := ih
      rw [describes.code] at mem
      obtain ⟨h, h_mem, x, is_copy, ⟨b, b_mem, rfl⟩, is_name, rfl⟩ :=
        l.exists_copy_of_mem_code planned mem
      obtain ⟨c, c_mem, rfl⟩ := copied.bound bound
      rw [← is_name] at same
      obtain rfl := l.rename_inj c_mem b_mem same
      refine ⟨h.source.var, .copy ?_ copied, l.rename_var h h_mem⟩
      rw [← is_copy]
      exact l.source_mem h_mem
  · rintro ⟨w, copied, rfl⟩
    induction copied with
    | self => exact .self
    | @copy w a mem _ ih =>
      obtain ⟨h, h_mem, is_source⟩ := l.exists_segment mem
      have ordinary : h.source.var ≠ plan.convention.output := by
        intro is_output
        obtain ⟨o⟩ := planned.follows.exists_outputTuple planned.interface
        have whole := o.eq_of_var_eq planned.follows (l.source_mem h_mem) is_output
        rw [is_source] at whole
        simp at whole
      have value : h.value = .var (l.rename a) := by
        rw [(l.isValue h h_mem ordinary).value, is_source]
        rfl
      refine .copy ?_ ih
      have new_name : l.rename w = h.target := by rw [← l.rename_var h h_mem, is_source]
      rw [describes.code, new_name, ← value]
      exact List.mem_flatMap.mpr ⟨h, h_mem, h.value_mem_code calls⟩

/-- An input fetched for a single binding has no copies. -/
theorem eq_of_denotes_fetched (planned : f.Planned plan tracked) (describes : l.Describes g)
    (h_mem : h ∈ l.segments) (fetch : t ∈ h.fetched) (denotes : g.Denotes t u) : u = t := by
  induction denotes with
  | self => rfl
  | copy mem _ same =>
    subst same
    rw [describes.code] at mem
    obtain ⟨-, -, x, -, ⟨b, b_mem, rfl⟩, is_name, -⟩ := l.exists_copy_of_mem_code planned mem
    obtain ⟨k, k_mem, rfl⟩ := l.exists_segment b_mem
    rw [l.rename_var k k_mem] at is_name
    exact absurd (is_name ▸ fetch) (l.target_notMem_fetched k_mem h_mem)

/-- The new name of a variable is released at the last use of the variable, if that is tracked. -/
theorem rename_mem_released_iff (planned : f.Planned plan tracked)
    (split : l.segments = done ++ h :: later) (bound : ∃ b ∈ f.bindings, b.var = v) :
    l.rename v ∈ h.released ↔ v ∈ tracked ∧
      Func.IsLastUse plan.convention.output v h.source (later.map Segment.source) := by
  have h_mem : h ∈ l.segments := split ▸ by simp
  obtain ⟨b, b_mem, rfl⟩ := bound
  unfold Func.IsLastUse
  rw [List.forall_mem_map]
  constructor
  · intro released
    rcases List.mem_append.mp released with dying | fetch
    · obtain ⟨ordinary, x, x_tracked, same, touched, unread⟩ :=
        (l.mem_dying_iff planned split).mp dying
      obtain ⟨c, c_mem, rfl, -⟩ := planned.tracked_bound x x_tracked
      obtain rfl := l.rename_inj c_mem b_mem same
      exact ⟨x_tracked, ordinary, touched, unread⟩
    · obtain ⟨k, k_mem, rfl⟩ := l.exists_segment b_mem
      rw [l.rename_var k k_mem] at fetch
      exact absurd fetch (l.target_notMem_fetched k_mem h_mem)
  · rintro ⟨b_tracked, ordinary, touched, unread⟩
    exact List.mem_append_left _ ((l.mem_dying_iff planned split).mpr
      ⟨ordinary, b.var, b_tracked, rfl, touched, unread⟩)

/-- What is bound to a fetch is an input fetched for a single binding, or the new name of an
input. -/
theorem fetch_bound_iff (resolved : calls.Resolved table) (independent : f.Independent table)
    (planned : f.Planned plan tracked) :
    (∃ b ∈ l.code, b.var = t ∧ b.value.service? table = some .fetch) ↔
      (∃ h ∈ l.segments, t ∈ h.fetched) ∨
        ∃ v ∈ plan.interface.projections, l.rename v = t := by
  rw [Func.projections_interface planned.interface]
  constructor
  · rintro ⟨b, b_mem, rfl, is_fetch⟩
    obtain ⟨h, h_mem, in_code⟩ := List.mem_flatMap.mp b_mem
    rw [Segment.code_eq, List.mem_append] at in_code
    rcases in_code with head | tail
    · rcases Segment.mem_head head with ⟨i, -, -, fetch⟩ | rfl
      · exact .inl ⟨h, h_mem, fetch⟩
      · refine .inr ⟨h.source.var, Func.mem_projections.mpr ?_, l.rename_var h h_mem⟩
        have ordinary : h.source.var ≠ plan.convention.output := by
          intro is_output
          simp [(l.isOutput h h_mem is_output).value, Expr.service?] at is_fetch
        refine ⟨ordinary, h.source, l.source_mem h_mem, rfl, ?_⟩
        -- A value that is not an input keeps the service it calls, and that is none.
        rw [Option.isSome_iff_ne_none]
        intro not_input
        have free := (independent.1 h.source (l.source_mem h_mem)).service?_eq_none
        rw [(l.isValue h h_mem ordinary).value, Expr.streamed, not_input] at is_fetch
        simp [Expr.service?_redirect, free] at is_fetch
    · rcases Segment.isUpkeep_of_mem_tail resolved tail with is_commit | is_release
      · simp [is_commit] at is_fetch
      · simp [is_release] at is_fetch
  · rintro (⟨h, h_mem, fetch⟩ | ⟨v, projection, rfl⟩)
    · exact ((l.mem_flatMap_fetched_iff resolved).mp (List.mem_flatMap.mpr ⟨h, h_mem, fetch⟩)).1
    · obtain ⟨ordinary, b, b_mem, rfl, is_input⟩ := Func.mem_projections.mp projection
      obtain ⟨h, h_mem, rfl⟩ := l.exists_segment b_mem
      obtain ⟨i, index⟩ := Option.isSome_iff_exists.mp is_input
      have value : h.value = calls.fetch i := by
        rw [(l.isValue h h_mem ordinary).value, Expr.streamed, index]
      refine ⟨⟨h.target, h.value⟩, List.mem_flatMap.mpr ⟨h, h_mem, h.value_mem_code calls⟩,
        (l.rename_var h h_mem).symm, ?_⟩
      rw [value]
      exact resolved.service?_fetch i

/-! ### What a segment passes on -/

/-- The value of an ordinary segment passes on the new names of what its binding passes on. -/
theorem mem_passed_value (resolved : calls.Resolved table) (planned : f.Planned plan tracked)
    (h_mem : h ∈ l.segments) (ordinary : h.source.var ≠ plan.convention.output)
    (bound : ∃ b ∈ f.bindings, b.var = v) :
    l.rename v ∈ h.value.passed table ↔ v ∈ h.source.value.passed table := by
  obtain ⟨b, b_mem, rfl⟩ := bound
  have stays := planned.follows.confined h.source (l.source_mem h_mem)
  have shape := l.isValue h h_mem ordinary
  cases is_input : h.source.value.inputIndex? plan.convention.param with
  | some i =>
    rw [shape.value, Expr.streamed, is_input, Expr.eq_proj_of_inputIndex? is_input]
    simp [resolved.passed_fetch, Expr.passed]
  | none =>
    rw [shape.value, Expr.streamed, is_input]
    have passed := Expr.mem_passed_redirect (t := l.rename b.var) table l.rename h.start
      h.source.value stays
    constructor
    · intro mem
      rcases passed.2 mem with ⟨x, x_passed, not_param, same⟩ | range
      · obtain ⟨before, after, split⟩ := List.append_of_mem h_mem
        obtain ⟨k, k_mem, rfl⟩ := l.exists_done_of_read planned split
          (Expr.passed_subset_reads _ x x_passed) not_param
        have k_source := l.source_mem (split ▸ List.mem_append_left _ k_mem)
        rwa [← l.rename_inj k_source b_mem same]
      · -- The new name of a variable is not one of the inputs just fetched.
        obtain ⟨k, k_mem, rfl⟩ := l.exists_segment b_mem
        rw [l.rename_var k k_mem] at range
        have fetch : k.target ∈ h.fetched := by
          rw [Segment.fetched, mem_varsFrom, shape.fetches, Lowering.hoisted, is_input]
          exact range
        exact absurd fetch (l.target_notMem_fetched k_mem h_mem)
    · intro mem
      exact passed.1 ⟨b.var, mem, planned.follows.var_ne_param b b_mem, rfl⟩

/-- The code of a segment passes on what its binding does; it passes on the value itself if that is
an output; and it passes on what it releases. -/
theorem passed_iff (resolved : calls.Resolved table) (planned : f.Planned plan tracked)
    (h_mem : h ∈ l.segments) (bound : ∃ b ∈ f.bindings, b.var = v) :
    (∃ c ∈ h.code calls, l.rename v ∈ c.value.passed table) ↔
      (h.source.var ≠ plan.convention.output ∧ (v ∈ h.source.value.passed table ∨
        h.source.var = v ∧ plan.interface.outputs.slots v ≠ [])) ∨
      l.rename v ∈ h.released := by
  constructor
  · rintro ⟨c, c_mem, passes⟩
    rcases Segment.cases_of_mem_code c_mem with
      ⟨i, -, is_fetch⟩ | rfl | ⟨slot, slot_mem, is_commit⟩ | ⟨w, w_mem, is_release⟩
    · rw [is_fetch, resolved.passed_fetch] at passes
      simp at passes
    · by_cases is_output : h.source.var = plan.convention.output
      · rw [(l.isOutput h h_mem is_output).value, Expr.passed, Expr.passedAll_eq_flatMap] at passes
        simp [Expr.passed] at passes
      · exact .inl ⟨is_output,
          .inl ((l.mem_passed_value resolved planned h_mem is_output bound).mp passes)⟩
    · have ordinary : h.source.var ≠ plan.convention.output := by
        intro is_output
        simp [(l.isOutput h h_mem is_output).slots] at slot_mem
      rw [is_commit, resolved.passed_commit, List.mem_singleton, ← l.rename_var h h_mem] at passes
      obtain ⟨b, b_mem, rfl⟩ := bound
      obtain rfl := l.rename_inj b_mem (l.source_mem h_mem) passes
      refine .inl ⟨ordinary, .inr ⟨rfl, ?_⟩⟩
      rw [← (l.isValue h h_mem ordinary).slots]
      exact List.ne_nil_of_mem slot_mem
    · rw [is_release, resolved.passed_release, List.mem_singleton] at passes
      exact .inr (passes ▸ w_mem)
  · rintro (⟨ordinary, passes | ⟨rfl, is_output⟩⟩ | released)
    · exact ⟨⟨h.target, h.value⟩, h.value_mem_code calls,
        (l.mem_passed_value resolved planned h_mem ordinary bound).mpr passes⟩
    · rw [← (l.isValue h h_mem ordinary).slots] at is_output
      obtain ⟨slot, slot_mem⟩ := List.exists_mem_of_ne_nil _ is_output
      have bound_commit : calls.commit h.target slot ∈ h.exprs calls := by
        unfold Segment.exprs
        simp only [List.mem_append, List.mem_cons]
        exact .inr (.inr (.inl (List.mem_map_of_mem slot_mem)))
      obtain ⟨c, c_mem, value⟩ := Segment.exists_of_mem_exprs calls bound_commit
      refine ⟨c, c_mem, ?_⟩
      rw [value, resolved.passed_commit, l.rename_var h h_mem]
      exact List.mem_singleton_self _
    · obtain ⟨c, c_mem, value⟩ := Segment.exists_release calls released
      refine ⟨c, c_mem, ?_⟩
      rw [value, resolved.passed_release]
      exact List.mem_singleton_self _

/-! ### Copies decide -/

/-- A binding in the code of a segment, and all that comes after it. -/
theorem code_split (split : l.segments = done ++ h :: later) {b : Binding}
    (mem : b ∈ h.code calls) :
    ∃ before back, l.code = before ++ b :: (back ++ later.flatMap (Segment.code calls)) := by
  obtain ⟨front, back, inner⟩ := List.append_of_mem mem
  refine ⟨done.flatMap (Segment.code calls) ++ front, back, ?_⟩
  rw [code, split, List.flatMap_append, List.flatMap_cons, inner]
  simp

/-- The segments around that of a binding. -/
theorem exists_segments_split {before after : List Binding} {d : Binding}
    (split : f.bindings = before ++ d :: after) :
    ∃ done h later, l.segments = done ++ h :: later ∧ h.source = d ∧
      later.map Segment.source = after := by
  have sources := l.sources
  rw [split] at sources
  obtain ⟨done, rest, segments, -, rest_eq⟩ := List.map_eq_append_iff.mp sources
  obtain ⟨h, later, rfl, is_source, after_eq⟩ := List.map_eq_cons_iff.mp rest_eq
  exact ⟨done, h, later, segments, is_source, after_eq⟩

variable (resolved : calls.Resolved table) (independent : f.Independent table)
  (planned : f.Planned plan tracked) (describes : l.Describes g)
include resolved independent planned describes

/-- The new name of an input is bound to a fetch. -/
theorem exists_fetch_of_projection (projection : v ∈ plan.interface.projections) :
    ∃ c ∈ g.bindings, c.var = l.rename v ∧ c.value.service? table = some .fetch := by
  rw [describes.code]
  exact (l.fetch_bound_iff resolved independent planned).mpr (.inr ⟨v, projection, rfl⟩)

/-- Two names of one storage are not both released. -/
theorem released_once_of_storageSafe (safe : g.StorageSafe table)
    (projection : v ∈ plan.interface.projections) (v_tracked : v ∈ tracked)
    (u_tracked : u ∈ tracked) (copied : f.Denotes v u) : u = v := by
  have bound := planned.exists_binding v_tracked
  have copied_new : g.Denotes (l.rename v) (l.rename u) :=
    (l.denotes_rename_iff planned describes bound).mpr ⟨u, copied, rfl⟩
  have fetched := l.exists_fetch_of_projection resolved independent planned describes projection
  -- Each of the two has a release somewhere.
  have released : ∀ x ∈ tracked, ∃ c ∈ l.code, c.value = calls.release (l.rename x) := by
    intro x x_tracked
    have dies := (l.mem_flatMap_dying_iff planned).mpr ⟨x, x_tracked, rfl⟩
    obtain ⟨h, h_mem, dying⟩ := List.mem_flatMap.mp dies
    obtain ⟨c, c_mem, value⟩ := Segment.exists_release calls (List.mem_append_left _ dying)
    exact ⟨c, List.mem_flatMap.mpr ⟨h, h_mem, c_mem⟩, value⟩
  obtain ⟨c, c_mem, value⟩ := released v v_tracked
  obtain ⟨c', c'_mem, value'⟩ := released u u_tracked
  obtain ⟨before, after, split⟩ := List.append_of_mem c_mem
  rw [split] at c'_mem
  rw [← describes.code] at split
  rcases List.mem_append.mp c'_mem with earlier | rest
  · obtain ⟨before', between, rfl⟩ := List.append_of_mem earlier
    refine absurd (Func.Denotes.self (f := g)) (safe before' c' (between ++ c :: after)
      (l.rename u) (l.rename v) (by simp [split]) ?_ fetched copied_new c (by simp) _ ?_)
    · rw [value', resolved.released?_release]
    · simp [value, resolved.passed_release]
  rcases List.mem_cons.mp rest with rfl | later
  · have same : l.rename v = l.rename u := by
      have reads := congrArg Expr.reads (value.symm.trans value')
      simpa using reads
    obtain ⟨b, b_mem, rfl⟩ := bound
    obtain ⟨b', b'_mem, rfl⟩ := planned.exists_binding u_tracked
    rw [l.rename_inj b_mem b'_mem same]
  · refine absurd copied_new (safe before c after (l.rename v) (l.rename v) split ?_ fetched .self
      c' later _ ?_)
    · rw [value, resolved.released?_release]
    · simp [value', resolved.passed_release]

/-- No copy outlives the last use of an input. -/
theorem not_outlived_of_storageSafe (safe : g.StorageSafe table)
    (projection : v ∈ plan.interface.projections) (v_tracked : v ∈ tracked)
    {before after : List Binding} {d k : Binding} (split : f.bindings = before ++ d :: after)
    (last : Func.IsLastUse plan.convention.output v d after) (k_mem : k ∈ after)
    (ordinary : k.var ≠ plan.convention.output) :
    (∀ u ∈ k.value.passed table, ¬ f.Denotes v u) ∧
      (f.Denotes v k.var → plan.interface.outputs.slots k.var = []) := by
  have bound := planned.exists_binding v_tracked
  obtain ⟨done, h, later, segments, rfl, rfl⟩ := l.exists_segments_split split
  obtain ⟨s, s_mem, rfl⟩ := List.mem_map.mp k_mem
  have released := (l.rename_mem_released_iff planned segments bound).mpr ⟨v_tracked, last⟩
  obtain ⟨c, c_mem, value⟩ := Segment.exists_release calls released
  obtain ⟨front, back, code⟩ := l.code_split segments c_mem
  have fetched := l.exists_fetch_of_projection resolved independent planned describes projection
  -- The later segment passes on no copy at all.
  have unpassed : ∀ w, f.Denotes v w →
      ¬ ∃ c ∈ s.code calls, l.rename w ∈ c.value.passed table := by
    rintro w copied ⟨c', c'_mem, passes⟩
    refine safe front c _ (l.rename v) (l.rename v) (describes.code.trans code) ?_ fetched .self
      c' (List.mem_append_right _ (List.mem_flatMap.mpr ⟨s, s_mem, c'_mem⟩)) _ passes
      ((l.denotes_rename_iff planned describes bound).mpr ⟨w, copied, rfl⟩)
    rw [value, resolved.released?_release]
  have passed := fun {w} => l.passed_iff resolved planned (v := w)
    (show s ∈ l.segments from segments ▸ by simp [s_mem])
  constructor
  · intro u passes copied
    exact unpassed u copied ((passed (copied.bound bound)).mpr (.inl ⟨ordinary, .inl passes⟩))
  · intro copied
    by_contra is_output
    exact unpassed _ copied
      ((passed (copied.bound bound)).mpr (.inl ⟨ordinary, .inr ⟨rfl, is_output⟩⟩))

/-- If copies are safe, nothing is passed on after its storage is released. -/
theorem storageSafe_of_copySafe (safe : f.CopySafe table plan tracked)
    (inputs_tracked : ∀ v ∈ plan.interface.projections, v ∈ tracked) : g.StorageSafe table := by
  intro before b after a t split releases fetched denotes_a c c_mem u passes denotes_u
  rw [describes.code] at split fetched
  have unread := (l.placed_of_release resolved independent planned split releases).1 c c_mem
  have read := Expr.passed_subset_reads _ u passes
  rcases (l.fetch_bound_iff resolved independent planned).mp fetched with
    ⟨h, h_mem, fetch⟩ | ⟨v, projection, rfl⟩
  · rw [l.eq_of_denotes_fetched planned describes h_mem fetch denotes_a] at unread
    rw [l.eq_of_denotes_fetched planned describes h_mem fetch denotes_u] at read
    exact unread read
  have bound := planned.exists_binding (inputs_tracked v projection)
  obtain ⟨w, w_copied, rfl⟩ := (l.denotes_rename_iff planned describes bound).mp denotes_a
  obtain ⟨w', copied, rfl⟩ := (l.denotes_rename_iff planned describes bound).mp denotes_u
  have bound' := copied.bound bound
  obtain ⟨done, h, later, front, back, segments, inner, rfl, rfl⟩ :=
    List.exists_part_of_flatMap_eq split
  have h_mem : h ∈ l.segments := segments ▸ by simp
  obtain ⟨between, ts, us, -, -, released, rest⟩ :=
    Segment.code_split_of_release resolved (l.released?_value resolved independent h_mem) inner
      releases
  obtain ⟨w_tracked, last⟩ := (l.rename_mem_released_iff planned segments
    (w_copied.bound bound)).mp (released ▸ by simp)
  obtain rfl := safe.released_once v projection w w_tracked w_copied
  -- Another copy that is released would be the variable itself, which is not read any more.
  have unreleased : ∀ s ∈ l.segments, l.rename w' ∉ s.released := by
    intro s s_mem again
    obtain ⟨done', later', split'⟩ := List.append_of_mem s_mem
    have tracked' := ((l.rename_mem_released_iff planned split' bound').mp again).1
    rw [safe.released_once w projection w' tracked' copied] at read
    exact unread read
  rcases List.mem_append.mp c_mem with same_segment | later_segment
  · obtain ⟨x, x_mem, is_release⟩ := rest c same_segment
    rw [is_release, resolved.passed_release, List.mem_singleton] at passes
    refine unreleased h h_mem ?_
    rw [released, passes]
    simp [x_mem]
  · obtain ⟨s, s_mem, in_code⟩ := List.mem_flatMap.mp later_segment
    have s_segment : s ∈ l.segments := segments ▸ by simp [s_mem]
    rcases (l.passed_iff resolved planned s_segment bound').mp ⟨c, in_code, passes⟩ with
      ⟨ordinary, used⟩ | again
    · obtain ⟨unpassed, no_output⟩ := safe.not_outlived w projection _ h.source _
        (l.bindings_split segments) last s.source (List.mem_map_of_mem s_mem) ordinary
      rcases used with passed | ⟨rfl, is_output⟩
      · exact unpassed w' passed copied
      · exact is_output (no_output copied)
    · exact unreleased s s_segment again

end Layout

namespace Func

/-- Without copies, copies are safe. -/
theorem Planned.copySafe_of_no_copy {f : Func} {plan : Plan} {tracked : List VarId}
    (planned : f.Planned plan tracked) (table : SymbolTable)
    (no_copy : ∀ b ∈ f.bindings, b.value.asVar? = none) : f.CopySafe table plan tracked where
  released_once v _ u _ copied := copied.eq_of_no_copy no_copy
  not_outlived v projection before d after split last k k_mem ordinary := by
    obtain ⟨-, touched, unread⟩ := last
    constructor
    · intro u passes copied
      rw [copied.eq_of_no_copy no_copy] at passes
      exact unread k k_mem ordinary (Expr.passed_subset_reads _ v passes)
    · intro copied
      rw [projections_interface planned.interface] at projection
      obtain ⟨-, b, b_mem, rfl, -⟩ := mem_projections.mp projection
      have not_param := planned.follows.var_ne_param b b_mem
      -- A copy of the input is the input, and that is not bound again.
      have unbound := planned.follows.notMem_after_of_touches split touched not_param
      rw [← copied.eq_of_no_copy no_copy] at unbound
      exact absurd (List.mem_map_of_mem k_mem) unbound

/-- **Storage.**  The streaming form never passes on what it has released exactly if copies of
inputs are safe in the function, and in particular if the function makes no copies. -/
theorem storageSafe_iff {f g : Func} {table names : SymbolTable} {intermediates : Bool}
    (streamed : f.stream table intermediates = (.ok g, names))
    (independent : f.Independent names) :
    ∃ plan, f.plan intermediates = .ok plan ∧
      (g.StorageSafe names ↔
        f.CopySafe names plan (f.tracked plan.convention plan.interface intermediates)) ∧
      ((∀ b ∈ f.bindings, b.value.asVar? = none) → g.StorageSafe names) := by
  obtain ⟨plan, -, l, has_plan, resolved, -, describes, -⟩ := Layout.exists_of_stream streamed
  have planned := Planned.of_plan has_plan
  have inputs_tracked : ∀ v ∈ plan.interface.projections,
      v ∈ f.tracked plan.convention plan.interface intermediates :=
    fun v projection => mem_tracked.mpr (.inl projection)
  have sufficient := fun safe =>
    l.storageSafe_of_copySafe resolved independent planned describes safe inputs_tracked
  refine ⟨plan, has_plan, ⟨fun safe => ⟨?_, ?_⟩, sufficient⟩, fun no_copy => ?_⟩
  · intro v projection u u_tracked copied
    exact l.released_once_of_storageSafe resolved independent planned describes safe projection
      (inputs_tracked v projection) u_tracked copied
  · intro v projection before d after split last k k_mem ordinary
    exact l.not_outlived_of_storageSafe resolved independent planned describes safe projection
      (inputs_tracked v projection) split last k_mem ordinary
  · exact sufficient (planned.copySafe_of_no_copy names no_copy)

open Sample in
/-- Nothing is copied in the negation of a difference, although the input is fetched twice. -/
theorem storageSafe_difference : ∃ g names,
    difference.stream tensorNames true = (.ok g, names) ∧ difference.Independent names ∧
      g.StorageSafe names := by
  have streamed : difference.stream tensorNames true = (.ok _, _) := rfl
  have independent : difference.Independent (StoreCalls.intern tensorNames).2 := by decide
  obtain ⟨plan, -, -, safe⟩ := storageSafe_iff streamed independent
  exact ⟨_, _, streamed, independent, safe (by decide)⟩

open Sample in
/-- **A copy may be used after its storage is released.**  The last use of the input is the binding
that copies it, so it is released there; the copy is negated afterwards. -/
theorem not_storageSafe_copy : ∃ g names,
    (negatedTensor (.var ⟨1⟩)).stream tensorNames false = (.ok g, names) ∧
      (negatedTensor (.var ⟨1⟩)).Independent names ∧ ¬ g.StorageSafe names := by
  refine ⟨_, _, rfl, by decide, fun safe => ?_⟩
  refine safe [_, _] _ [_, _, _] ⟨0⟩ ⟨0⟩ rfl rfl ⟨_, .head _, rfl, rfl⟩ .self _ (.head _) ⟨1⟩
    (by decide) ?_
  exact .copy (.tail _ (.head _)) .self

end Func

end ParamStream
