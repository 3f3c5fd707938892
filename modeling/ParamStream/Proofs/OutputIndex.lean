import ParamStream.Proofs.FirstFault
import ParamStream.Proofs.Plan
import ParamStream.Proofs.Redirect

/-!
# The interface inverts the output tuple

A function lists its outputs in a tuple of variables.  `Func.interface` turns this tuple inside
out: it walks along the fields and adds each position to the slots of the variable that stands
there.  A variable may stand at several positions, so the positions are distributed over the
variables, and none is lost or given out twice.

The walk ends at the first field that is no variable, which the error then names.  In a function
that is well scoped the output is bound at most once, so the result depends on that one binding.

## Main definitions

* `OutputSlots.Inverts` — the slots are a tuple turned inside out;
* `Func.Projects` — the variables bound to an input, in program order;
* `Func.InterfaceFault` — why there is no interface.

## Main statements

* `OutputSlots.indexFrom_eq_error_iff` — the walk stops at the first field that is no variable;
* `OutputSlots.keys_indexFrom` — the variables are indexed in the order of their first positions;
* `Func.interface_inverts_output`.
-/

namespace ParamStream

namespace OutputSlots

/-! ### The walk along the fields -/

theorem keys_addSlot (index : Assoc VarId (List Nat)) (v : VarId) (slot : Nat) :
    (addSlot index v slot).keys = if v ∈ index.keys then index.keys else index.keys ++ [v] :=
  index.keys_insert v _

/-- The walk gets through a tuple of variables. -/
theorem exists_indexFrom (start : Nat) (index : Assoc VarId (List Nat)) (xs : List VarId) :
    ∃ result, indexFrom start index (xs.map .var) = .ok result := by
  induction xs generalizing start index with
  | nil => exact ⟨index, rfl⟩
  | cons x xs ih => exact ih (start + 1) (addSlot index x start)

/-- The variables are indexed in the order of their first positions. -/
theorem keys_indexFrom {start : Nat} {index result : Assoc VarId (List Nat)} {xs : List VarId}
    (distinct : index.keys.Nodup) (indexed : indexFrom start index (xs.map .var) = .ok result) :
    result.keys = (index.keys ++ xs).eraseDups := by
  induction xs generalizing start index with
  | nil =>
    obtain rfl := Except.pure_eq_ok_iff.mp indexed
    rw [List.append_nil, distinct.eraseDups_eq]
  | cons x xs ih =>
    have distinct_next : (addSlot index x start).keys.Nodup :=
      Assoc.nodup_keys_insertAll [(x, _)] distinct
    rw [ih distinct_next indexed, keys_addSlot, ← List.eraseDups_append_cons]

/-- The walk stops at the first field that is no variable, and the error names its position. -/
theorem indexFrom_eq_error_iff {start : Nat} {index : Assoc VarId (List Nat)} {fields : List Expr}
    {e : StreamError} :
    indexFrom start index fields = .error e ↔
      ∃ k field, e = .outputFieldNotVar (start + k) ∧ fields[k]? = some field ∧
        (∀ x, field ≠ .var x) ∧ ∀ j < k, ∃ x, fields[j]? = some (.var x) := by
  induction fields generalizing start index with
  | nil => simp [indexFrom, pure, Except.pure]
  | cons first fields ih =>
    cases is_var : first.asVar? with
    | none =>
      have other : ∀ x, first ≠ .var x := by
        rintro x rfl
        cases is_var
      simp only [indexFrom, is_var]
      constructor
      · intro thrown
        obtain rfl := Except.error.inj thrown
        exact ⟨0, first, rfl, rfl, other, fun j below => absurd below (Nat.not_lt_zero j)⟩
      · rintro ⟨k, field, rfl, at_k, -, earlier⟩
        cases k with
        | zero => rfl
        | succ k =>
          obtain ⟨x, at_zero⟩ := earlier 0 (Nat.succ_pos k)
          exact absurd (Option.some.inj at_zero) (other x)
    | some x =>
      obtain rfl := Expr.asVar?_eq_some_iff.mp is_var
      simp only [indexFrom, is_var, ih]
      constructor
      · rintro ⟨k, field, rfl, at_k, other, earlier⟩
        refine ⟨k + 1, field, by rw [Nat.add_right_comm, Nat.add_assoc], at_k, other, ?_⟩
        intro j below
        cases j with
        | zero => exact ⟨x, rfl⟩
        | succ j => exact earlier j (Nat.lt_of_succ_lt_succ below)
      · rintro ⟨k, field, rfl, at_k, other, earlier⟩
        cases k with
        | zero => exact absurd (Option.some.inj at_k).symm (other x)
        | succ k =>
          refine ⟨k, field, by rw [Nat.add_right_comm, Nat.add_assoc], at_k, other, ?_⟩
          exact fun j below => earlier (j + 1) (Nat.succ_lt_succ below)

/-! ### The tuple turned inside out -/

/-- The slots are those of the tuple `xs`: each variable has the positions at which it stands, so
that every position belongs to one variable. -/
structure Inverts (s : OutputSlots) (xs : List VarId) : Prop where
  arity : s.arity = xs.length
  absent : ∀ x, s.get? x = none ↔ x ∉ xs
  ascending : ∀ x slots, s.get? x = some slots → slots.Pairwise (· < ·)
  positions : ∀ x slots, s.get? x = some slots → ∀ j, j ∈ slots ↔ xs[j]? = some x
  disjoint : ∀ x y slots slots', s.get? x = some slots → s.get? y = some slots' → x ≠ y →
    slots.Disjoint slots'
  cover : ∀ j, j < s.arity ↔ ∃ x slots, s.get? x = some slots ∧ j ∈ slots
  size : s.size = xs.toFinset.card

theorem pairwise_positionsFrom_zero (xs : List VarId) (v : VarId) :
    (positionsFrom 0 xs v).Pairwise (· < ·) := by
  rw [positionsFrom_zero_eq_filter]
  exact List.pairwise_lt_range.filter _

/-- What the walk along a tuple of variables makes of it. -/
theorem inverts_of_indexFrom {index : Assoc VarId (List Nat)} {xs : List VarId}
    (indexed : indexFrom 0 [] (xs.map .var) = .ok index) :
    (OutputSlots.mk index xs.length).Inverts xs := by
  have none_yet : Assoc.keys ([] : Assoc VarId (List Nat)) = [] := rfl
  have keys : Assoc.keys index = xs.eraseDups := by
    rw [keys_indexFrom (none_yet ▸ List.nodup_nil) indexed, none_yet, List.nil_append]
  have absent : ∀ x, Assoc.get? index x = none ↔ x ∉ xs := by
    intro x
    rw [Assoc.get?_eq_none_iff, keys, List.mem_eraseDups]
  have slots_eq : ∀ x slots, Assoc.get? index x = some slots → slots = positionsFrom 0 xs x := by
    intro x slots found
    obtain ⟨ys, same, positions⟩ := indexFrom_eq_ok indexed
    obtain rfl : xs = ys := List.map_injective_iff.mpr (fun _ _ => Expr.var.inj) same
    simpa [found] using positions x
  have positions : ∀ x slots, Assoc.get? index x = some slots →
      ∀ j, j ∈ slots ↔ xs[j]? = some x := by
    intro x slots found j
    rw [slots_eq x slots found, mem_positionsFrom_zero]
  constructor
  case arity => rfl
  case absent => exact absent
  case positions => exact positions
  case ascending =>
    intro x slots found
    rw [slots_eq x slots found]
    exact pairwise_positionsFrom_zero xs x
  case disjoint =>
    intro x y slots slots' at_x at_y differ j mem mem'
    have at_j := (positions x slots at_x j).mp mem
    have at_j' := (positions y slots' at_y j).mp mem'
    exact differ (Option.some.inj (at_j.symm.trans at_j'))
  case cover =>
    intro j
    constructor
    · intro (inside : j < xs.length)
      have at_j : xs[j]? = some (xs.get ⟨j, inside⟩) := List.getElem?_eq_getElem inside
      have present := mt (absent (xs.get ⟨j, inside⟩)).mp (not_not_intro (List.get_mem ..))
      obtain ⟨slots, found⟩ := Option.ne_none_iff_exists'.mp present
      exact ⟨_, slots, found, (positions _ slots found j).mpr at_j⟩
    · rintro ⟨x, slots, found, mem⟩
      exact (List.getElem?_eq_some_iff.mp ((positions x slots found j).mp mem)).1
  case size =>
    have length : (Assoc.keys index).length = index.length := List.length_map _
    show index.length = _
    rw [← length, keys, List.length_eraseDups]

theorem ofBinding_tuple (v : VarId) (fields : List Expr) :
    ofBinding ⟨v, .tuple fields⟩ = (indexFrom 0 [] fields).map (⟨·, fields.length⟩) := by
  show indexFrom 0 [] fields >>= _ = _
  cases indexFrom 0 [] fields <;> rfl

theorem ofBinding_of_ne_tuple {b : Binding} (other : ∀ fields, b.value ≠ .tuple fields) :
    ofBinding b = .error (.outputNotTuple b.var) := by
  unfold ofBinding
  split
  · next fields is_tuple => exact absurd is_tuple (other fields)
  · rfl

end OutputSlots

namespace Func

/-! ### The binding of the output -/

/-- A variable that is bound once decides with its binding whether there is an interface. -/
theorem interface_of_bound {f : Func} (distinct : (f.bindings.map Binding.var).Nodup) {b : Binding}
    (bound : b ∈ f.bindings) (param : VarId) :
    f.interface param b.var =
      (OutputSlots.ofBinding b).map (⟨·, f.projections param b.var⟩) := by
  unfold interface
  rw [Binding.filter_var_eq distinct bound, List.mapM_cons, List.mapM_nil]
  cases OutputSlots.ofBinding b <;> rfl

theorem interface_of_unbound {f : Func} {output : VarId}
    (unbound : output ∉ f.bindings.map Binding.var) (param : VarId) :
    f.interface param output = .error (.outputUnbound output) := by
  have none_bound : f.bindings.filter (·.var = output) = [] := by
    rw [List.filter_eq_nil_iff]
    intro b mem same
    exact unbound (of_decide_eq_true same ▸ List.mem_map_of_mem mem)
  unfold interface
  rw [none_bound]
  rfl

/-! ### Projections and faults -/

/-- The variables other than `output` that are bound to an input, in program order. -/
structure Projects (f : Func) (param output : VarId) (vs : List VarId) : Prop where
  distinct : vs.Nodup
  order : vs.Sublist (f.bindings.map Binding.var)
  mem_iff : ∀ v, v ∈ vs ↔ v ≠ output ∧ ∃ k, Binding.mk v (.proj (.var param) k) ∈ f.bindings

theorem projects_projections {f : Func} (distinct : (f.bindings.map Binding.var).Nodup)
    (param output : VarId) : f.Projects param output (f.projections param output) := by
  have order : (f.projections param output).Sublist (f.bindings.map Binding.var) :=
    List.filter_sublist.map Binding.var
  refine ⟨distinct.sublist order, order, fun v => ?_⟩
  rw [mem_projections]
  constructor
  · rintro ⟨ordinary, ⟨_, value⟩, mem, rfl, is_input⟩
    obtain ⟨k, at_k⟩ := Option.isSome_iff_exists.mp is_input
    obtain rfl := Expr.eq_proj_of_inputIndex? at_k
    exact ⟨ordinary, k, mem⟩
  · rintro ⟨ordinary, k, mem⟩
    exact ⟨ordinary, _, mem, rfl, by simp [Expr.inputIndex?, Expr.asVar?]⟩

/-- Why there is no interface: the output is not bound, or to something other than a tuple, or to a
tuple in which the field at `position` is the first that is no variable. -/
inductive InterfaceFault (f : Func) (output : VarId) : StreamError → Prop
  | unbound (absent : output ∉ f.bindings.map Binding.var) :
    InterfaceFault f output (.outputUnbound output)
  | notTuple {value : Expr} (bound : Binding.mk output value ∈ f.bindings)
      (other : ∀ fields, value ≠ .tuple fields) : InterfaceFault f output (.outputNotTuple output)
  | fieldNotVar {fields : List Expr} {position : Nat} {field : Expr}
      (bound : Binding.mk output (.tuple fields) ∈ f.bindings)
      (here : fields[position]? = some field) (other : ∀ x, field ≠ .var x)
      (first : ∀ j < position, ∃ x, fields[j]? = some (.var x)) :
    InterfaceFault f output (.outputFieldNotVar position)

theorem interface_eq_error_iff {f : Func} (distinct : (f.bindings.map Binding.var).Nodup)
    (param output : VarId) {e : StreamError} :
    f.interface param output = .error e ↔ f.InterfaceFault output e := by
  constructor
  · intro failed
    by_cases is_bound : output ∈ f.bindings.map Binding.var
    · obtain ⟨⟨_, value⟩, bound, rfl⟩ := List.mem_map.mp is_bound
      rw [interface_of_bound distinct bound, Except.map_eq_error_iff] at failed
      by_cases is_tuple : ∃ fields, value = .tuple fields
      · obtain ⟨fields, rfl⟩ := is_tuple
        rw [OutputSlots.ofBinding_tuple, Except.map_eq_error_iff,
          OutputSlots.indexFrom_eq_error_iff] at failed
        obtain ⟨k, field, rfl, here, other, first⟩ := failed
        rw [Nat.zero_add]
        exact .fieldNotVar bound here other first
      · have other : ∀ fields, value ≠ .tuple fields := fun fields same => is_tuple ⟨fields, same⟩
        rw [OutputSlots.ofBinding_of_ne_tuple other] at failed
        obtain rfl := Except.error.inj failed
        exact .notTuple bound other
    · rw [interface_of_unbound is_bound] at failed
      obtain rfl := Except.error.inj failed
      exact .unbound is_bound
  · intro fault
    cases fault with
    | unbound absent => exact interface_of_unbound absent param
    | notTuple bound other =>
      rw [interface_of_bound distinct bound, OutputSlots.ofBinding_of_ne_tuple other]
      rfl
    | @fieldNotVar fields position field bound here other first =>
      rw [interface_of_bound distinct bound, OutputSlots.ofBinding_tuple, Except.map_eq_error_iff,
        Except.map_eq_error_iff, OutputSlots.indexFrom_eq_error_iff]
      exact ⟨position, field, by rw [Nat.zero_add], here, other, first⟩

/-- The interface of a function whose output is a tuple of variables. -/
theorem exists_interface {f : Func} (distinct : (f.bindings.map Binding.var).Nodup)
    {output : VarId} {xs : List VarId}
    (bound : Binding.mk output (.tuple (xs.map .var)) ∈ f.bindings) (param : VarId) :
    ∃ i, f.interface param output = .ok i ∧ i.outputs.Inverts xs ∧
      f.Projects param output i.projections := by
  obtain ⟨index, indexed⟩ := OutputSlots.exists_indexFrom 0 [] xs
  refine ⟨⟨⟨index, xs.length⟩, f.projections param output⟩, ?_,
    OutputSlots.inverts_of_indexFrom indexed, projects_projections distinct param output⟩
  rw [interface_of_bound distinct bound, OutputSlots.ofBinding_tuple, indexed]
  simp [Except.map]

/-- **The interface inverts the output tuple.**  A well-scoped function has an interface exactly if
the output is bound to a tuple of variables.  Each variable then has the positions at which it
stands, in ascending order, so that the positions are distributed over the distinct variables of
the tuple; and the projections are the other variables that are bound to an input, in program order.
If there is no interface, the error is the one that `InterfaceFault` assigns. -/
theorem interface_inverts_output {f : Func} (passes : f.checkScope = .ok ())
    (param output : VarId) :
    ((∃ i, f.interface param output = .ok i) ↔
      ∃ xs : List VarId, Binding.mk output (.tuple (xs.map .var)) ∈ f.bindings) ∧
    (∀ i xs, f.interface param output = .ok i →
      Binding.mk output (.tuple (xs.map .var)) ∈ f.bindings →
        i.outputs.Inverts xs ∧ f.Projects param output i.projections) ∧
    ∀ e, f.interface param output = .error e ↔ f.InterfaceFault output e := by
  have distinct : (f.bindings.map Binding.var).Nodup :=
    (List.nodup_append'.mp (checkScope_eq_ok_iff_wellScoped.mp passes).distinct).2.1
  refine ⟨⟨?_, ?_⟩, ?_, fun e => interface_eq_error_iff distinct param output⟩
  · rintro ⟨i, answered⟩
    by_cases is_bound : output ∈ f.bindings.map Binding.var
    · obtain ⟨⟨_, value⟩, bound, rfl⟩ := List.mem_map.mp is_bound
      rw [interface_of_bound distinct bound] at answered
      obtain ⟨outputs, indexed, -⟩ := Except.map_eq_ok_iff.mp answered
      obtain ⟨xs, rfl, -, -⟩ := OutputSlots.ofBinding_eq_ok indexed
      exact ⟨xs, bound⟩
    · rw [interface_of_unbound is_bound] at answered
      cases answered
  · rintro ⟨xs, bound⟩
    obtain ⟨i, answered, -, -⟩ := exists_interface distinct bound param
    exact ⟨i, answered⟩
  · intro i xs answered bound
    obtain ⟨i', answered', inverts, projects⟩ := exists_interface distinct bound param
    obtain rfl := Except.ok.inj (answered.symm.trans answered')
    exact ⟨inverts, projects⟩

end Func

/-- Variables 1 and 3 are inputs.  Variable 4 is a tuple of variables, two of which stand in it
twice; variable 5 is a tuple with a projection in it, before the unit. -/
def Sample.scattered : Func where
  params := [⟨0⟩]
  blocks :=
    [⟨.dataflow,
      [⟨⟨1⟩, .proj (.var ⟨0⟩) 1⟩,
        ⟨⟨2⟩, .call (.op ⟨6⟩) [.var ⟨1⟩] .tensor⟩,
        ⟨⟨3⟩, .proj (.var ⟨0⟩) 0⟩,
        ⟨⟨4⟩, .tuple [.var ⟨2⟩, .var ⟨1⟩, .var ⟨2⟩, .var ⟨3⟩, .var ⟨1⟩]⟩]⟩,
      ⟨.plain, [⟨⟨5⟩, .tuple [.var ⟨2⟩, .proj (.var ⟨4⟩) 0, .lit .unit]⟩]⟩]
  result := .var ⟨4⟩
  resultTy := .object
  vars :=
    [⟨⟨1⟩, .tuple [.tensor, .tensor]⟩, ⟨⟨2⟩, .tensor⟩, ⟨⟨3⟩, .tensor⟩, ⟨⟨4⟩, .tensor⟩,
      ⟨⟨5⟩, .object⟩, ⟨⟨5⟩, .object⟩]
  attrs := []

namespace Func

open Sample in
/-- Variable 4 as the output has five slots, of which variable 2 feeds the first and the third.
Variable 5 is refused for its second field, variable 2 as it is no tuple, and the parameter. -/
theorem interface_inverts_output_scattered :
    scattered.checkScope = .ok () ∧
      (∃ i, scattered.interface ⟨0⟩ ⟨4⟩ = .ok i ∧
        i.outputs.get? ⟨2⟩ = some [0, 2] ∧ i.outputs.size = 3 ∧ i.projections = [⟨1⟩, ⟨3⟩] ∧
        i.outputs.Inverts [⟨2⟩, ⟨1⟩, ⟨2⟩, ⟨3⟩, ⟨1⟩] ∧ scattered.Projects ⟨0⟩ ⟨4⟩ i.projections) ∧
      scattered.interface ⟨0⟩ ⟨5⟩ = .error (.outputFieldNotVar 1) ∧
      scattered.interface ⟨0⟩ ⟨2⟩ = .error (.outputNotTuple ⟨2⟩) ∧
      scattered.interface ⟨0⟩ ⟨0⟩ = .error (.outputUnbound ⟨0⟩) := by
  have passes : scattered.checkScope = .ok () := rfl
  have tuple_bound :
      Binding.mk ⟨4⟩ (.tuple ([⟨2⟩, ⟨1⟩, ⟨2⟩, ⟨3⟩, ⟨1⟩].map .var)) ∈ scattered.bindings := by
    simp [scattered, bindings]
  have mixed_bound :
      Binding.mk ⟨5⟩ (.tuple [.var ⟨2⟩, .proj (.var ⟨4⟩) 0, .lit .unit]) ∈ scattered.bindings := by
    simp [scattered, bindings]
  have call_bound :
      Binding.mk ⟨2⟩ (.call (.op ⟨6⟩) [.var ⟨1⟩] .tensor) ∈ scattered.bindings := by
    simp [scattered, bindings]
  have answered : scattered.interface ⟨0⟩ ⟨4⟩ = .ok _ := rfl
  obtain ⟨-, inverts, -⟩ := interface_inverts_output passes ⟨0⟩ ⟨4⟩
  have fails := fun output => (interface_inverts_output passes ⟨0⟩ output).2.2
  refine ⟨passes, ⟨_, answered, rfl, rfl, rfl, inverts _ _ answered tuple_bound⟩, ?_, ?_, ?_⟩
  · refine (fails ⟨5⟩ _).mpr (.fieldNotVar mixed_bound rfl (by simp) fun j below => ?_)
    obtain rfl : j = 0 := by omega
    exact ⟨⟨2⟩, rfl⟩
  · exact (fails ⟨2⟩ _).mpr (.notTuple call_bound (by simp))
  · exact (fails ⟨0⟩ _).mpr (.unbound (by simp [scattered, bindings]))

end Func

end ParamStream
