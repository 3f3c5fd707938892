import ParamStream.Func.Scope
import ParamStream.Proofs.Outcome

/-!
# What the scope check guarantees

`Scope.checkBindings` threads the list of variables defined so far through the bindings.
`Scope.Ordered` says the same without errors: each binding reads only variables that are defined
before it, and defines a variable of the table that is not.  The check succeeds exactly on ordered
bindings, and everything that later proofs need about single assignment and definition before use
is read off `Ordered`.
-/

namespace ParamStream

namespace Scope

variable {size : Nat} {defined : List VarId}

/-- A list of reads passes when every variable is in the table and defined. -/
theorem checkReads_eq_ok_iff {vs : List VarId} {done : Unit} :
    checkReads size defined vs = .ok done ↔ ∀ v ∈ vs, v.index < size ∧ v ∈ defined := by
  induction vs with
  | nil => simp [checkReads]
  | cons v vs ih =>
    by_cases outside : size ≤ v.index
    · have not_inside : ¬ v.index < size := by omega
      simp [checkReads, outside, not_inside]
    · have inside : v.index < size := by omega
      by_cases known : v ∈ defined
      · simp [checkReads, outside, inside, known, ih]
      · simp [checkReads, outside, known]

/-- A definition passes when the variable is in the table and new. -/
theorem define_eq_ok_iff {v : VarId} {after : List VarId} :
    define size defined v = .ok after ↔
      v.index < size ∧ v ∉ defined ∧ after = v :: defined := by
  by_cases outside : size ≤ v.index
  · have not_inside : ¬ v.index < size := by omega
    simp [define, outside, not_inside]
  · have inside : v.index < size := by omega
    by_cases known : v ∈ defined
    · simp [define, outside, known]
    · simp only [define, outside, inside, known, if_false, Except.pure_eq_ok_iff]
      simp [eq_comm]

/-- Definitions pass from left to right when all are in the table and none is repeated. -/
theorem defineAll_eq_ok_iff {vs after : List VarId} :
    defineAll size defined vs = .ok after ↔
      (∀ v ∈ vs, v.index < size) ∧ vs.Nodup ∧ (∀ v ∈ vs, v ∉ defined) ∧
        after = vs.reverse ++ defined := by
  induction vs generalizing defined with
  | nil =>
    simp only [defineAll, Except.pure_eq_ok_iff]
    simp [eq_comm]
  | cons v vs ih =>
    rw [List.forall_mem_cons, List.forall_mem_cons, List.nodup_cons]
    simp only [defineAll, Except.bind_eq_ok_iff, define_eq_ok_iff, ih]
    constructor
    · rintro ⟨_, ⟨inside, fresh, rfl⟩, all_inside, nodup, apart, rfl⟩
      refine ⟨⟨inside, all_inside⟩, ⟨fun again => ?_, nodup⟩, ⟨fresh, fun w mem known => ?_⟩,
        by simp⟩
      · exact apart v again (by simp)
      · exact apart w mem (by simp [known])
    · rintro ⟨⟨inside, all_inside⟩, ⟨once, nodup⟩, ⟨fresh, apart⟩, rfl⟩
      refine ⟨v :: defined, ⟨inside, fresh, rfl⟩, all_inside, nodup, fun w mem known => ?_,
        by simp⟩
      rcases List.mem_cons.mp known with rfl | known
      · exact once mem
      · exact apart w mem known

/-! ### Bindings in order -/

/-- Each binding reads variables defined before it, and defines a new one. -/
def Ordered (size : Nat) : List VarId → List Binding → Prop
  | _, [] => True
  | defined, b :: bs =>
    (∀ v ∈ b.value.reads, v.index < size ∧ v ∈ defined) ∧
      b.var.index < size ∧ b.var ∉ defined ∧ Ordered size (b.var :: defined) bs

/-- The check accepts exactly the bindings that are in order. -/
theorem checkBindings_eq_ok_iff {bs : List Binding} {after : List VarId} :
    checkBindings size defined bs = .ok after ↔
      Ordered size defined bs ∧ after = (bs.map Binding.var).reverse ++ defined := by
  induction bs generalizing defined with
  | nil =>
    simp only [checkBindings, Except.pure_eq_ok_iff, Ordered]
    simp [eq_comm]
  | cons b bs ih =>
    simp only [checkBindings, Except.bind_eq_ok_iff, checkReads_eq_ok_iff, define_eq_ok_iff, ih,
      Ordered, List.map_cons, List.reverse_cons, List.append_assoc]
    constructor
    · rintro ⟨_, reads, _, ⟨inside, fresh, rfl⟩, ordered, rfl⟩
      exact ⟨⟨reads, inside, fresh, ordered⟩, rfl⟩
    · rintro ⟨⟨reads, inside, fresh, ordered⟩, rfl⟩
      exact ⟨(), reads, b.var :: defined, ⟨inside, fresh, rfl⟩, ordered, rfl⟩

namespace Ordered

/-- Order of a concatenation: the second part starts from what the first defines. -/
theorem append_iff {bs cs : List Binding} :
    Ordered size defined (bs ++ cs) ↔
      Ordered size defined bs ∧ Ordered size ((bs.map Binding.var).reverse ++ defined) cs := by
  induction bs generalizing defined with
  | nil => simp [Ordered]
  | cons b bs ih => simp [Ordered, ih, and_assoc]

/-- A binding is not defined again: its variable is new where it stands. -/
theorem var_notMem {bs : List Binding} (ordered : Ordered size defined bs) :
    ∀ v ∈ bs.map Binding.var, v ∉ defined := by
  induction bs generalizing defined with
  | nil => simp
  | cons b bs ih =>
    obtain ⟨-, -, fresh, rest⟩ := ordered
    intro v mem
    rcases List.mem_cons.mp mem with rfl | mem
    · exact fresh
    · exact fun known => ih rest v mem (List.mem_cons_of_mem _ known)

/-- No variable is bound twice. -/
theorem nodup {bs : List Binding} (ordered : Ordered size defined bs) :
    (bs.map Binding.var).Nodup := by
  induction bs generalizing defined with
  | nil => simp
  | cons b bs ih =>
    obtain ⟨-, -, -, rest⟩ := ordered
    exact List.nodup_cons.mpr ⟨fun again => rest.var_notMem _ again (by simp), ih rest⟩

/-- Bound variables are in the table. -/
theorem var_lt_size {bs : List Binding} (ordered : Ordered size defined bs) :
    ∀ b ∈ bs, b.var.index < size := by
  induction bs generalizing defined with
  | nil => simp
  | cons b bs ih =>
    obtain ⟨-, inside, -, rest⟩ := ordered
    simpa using ⟨inside, ih rest⟩

/-- What a binding reads is defined at the outset or bound by an earlier binding. -/
theorem reads_defined {before after : List Binding} {b : Binding}
    (ordered : Ordered size defined (before ++ b :: after)) :
    ∀ v ∈ b.value.reads, v ∈ defined ∨ v ∈ before.map Binding.var := by
  intro v read
  have known := ((append_iff.mp ordered).2.1 v read).2
  rcases List.mem_append.mp known with bound | known
  · exact .inr (List.mem_reverse.mp bound)
  · exact .inl known

end Ordered

end Scope

/-! ### The whole function -/

/-- A function passes exactly when its parameters are distinct and in the table, its bindings are
in order after them, and its result reads what is defined by then. -/
theorem Func.checkScope_eq_ok_iff {f : Func} :
    f.checkScope = .ok () ↔
      ((∀ v ∈ f.params, v.index < f.vars.length) ∧ f.params.Nodup) ∧
        Scope.Ordered f.vars.length f.params.reverse f.bindings ∧
        ∀ v ∈ f.result.reads, v.index < f.vars.length ∧
          v ∈ (f.bindings.map Binding.var).reverse ++ f.params.reverse := by
  simp only [Func.checkScope, Except.bind_eq_ok_iff, Scope.defineAll_eq_ok_iff,
    Scope.checkBindings_eq_ok_iff, Scope.checkReads_eq_ok_iff, List.append_nil]
  constructor
  · rintro ⟨_, ⟨inside, nodup, -, rfl⟩, _, ⟨ordered, rfl⟩, reads⟩
    exact ⟨⟨inside, nodup⟩, ordered, reads⟩
  · rintro ⟨⟨inside, nodup⟩, ordered, reads⟩
    exact ⟨_, ⟨inside, nodup, by simp, rfl⟩, _, ⟨ordered, rfl⟩, reads⟩

end ParamStream
