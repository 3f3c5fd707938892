import ParamStream.Expr

/-!
# Subexpressions

What an expression consists of, listed in the order in which it is visited: depth first, from left
to right, with a callee before its arguments.  Properties of all places inside an expression are
stated over these lists, without reference to the functions that walk over it.

## Main definitions

* `Expr.children` — the expressions directly below an expression;
* `Expr.inside` — its proper subexpressions, in visit order;
* `Expr.visited` — the variables among the subexpressions, in visit order;
* `Expr.OnlyProjected` — a variable occurs only directly below projections.

## Main statements

* `Expr.reads_eq_visited` — the variables read are those that a visit meets;
* `Expr.escapes_eq_false_iff` — the parameter does not escape exactly if it is only projected.
-/

namespace ParamStream

namespace Expr

/-- The expressions directly below an expression, from left to right. -/
def children : Expr → List Expr
  | .tuple fields => fields
  | .proj base _ => [base]
  | .call callee args _ => callee :: args
  | .var _ | .lit _ | .host _ | .op _ => []

mutual

/-- The expressions strictly inside an expression, depth first and from left to right, with a callee
before its arguments. -/
def inside : Expr → List Expr
  | .tuple fields => insideAll fields
  | .proj base _ => base :: base.inside
  | .call callee args _ => callee :: (callee.inside ++ insideAll args)
  | .var _ | .lit _ | .host _ | .op _ => []

/-- The expressions of a list, each followed by those inside it. -/
def insideAll : List Expr → List Expr
  | [] => []
  | e :: es => e :: (e.inside ++ insideAll es)

end

/-! ### Variables that a visit meets -/

/-- The variables that stand in an expression, in visit order and with repetitions. -/
def visited (e : Expr) : List VarId := (e :: e.inside).filterMap asVar?

mutual

/-- The variables read are those that a visit meets, in the same order. -/
theorem reads_eq_visited (e : Expr) : e.reads = e.visited := by
  match e with
  | .tuple fields => exact readsAll_eq_filterMap fields
  | .proj base i => exact reads_eq_visited base
  | .call callee args ty =>
    rw [reads, reads_eq_visited callee, readsAll_eq_filterMap args, visited,
      ← List.filterMap_append]
    rfl
  | .var _ | .lit _ | .host _ | .op _ => rfl

/-- `reads_eq_visited` for a list of expressions. -/
theorem readsAll_eq_filterMap (es : List Expr) :
    readsAll es = (insideAll es).filterMap asVar? := by
  match es with
  | [] => rfl
  | e :: es =>
    rw [readsAll, reads_eq_visited e, readsAll_eq_filterMap es, visited, ← List.filterMap_append]
    rfl

end

/-! ### Variables that are only projected -/

/-- If the variable stands directly below the expression, the expression is its projection. -/
def ProjectsOnly (v : VarId) (e : Expr) : Prop := .var v ∈ e.children → ∃ i, e = .proj (.var v) i

/-- Every occurrence of the variable in the expression is the base of a projection. -/
def OnlyProjected (v : VarId) (e : Expr) : Prop :=
  e ≠ .var v ∧ ∀ e' ∈ e :: e.inside, e'.ProjectsOnly v

mutual

/-- The parameter does not escape exactly if it is only projected. -/
theorem escapes_eq_false_iff {param : VarId} (e : Expr) :
    e.escapes param = false ↔ e.OnlyProjected param := by
  match e with
  | .var v => simp [escapes, OnlyProjected, inside, ProjectsOnly, children]
  | .tuple fields =>
    rw [escapes, escapesAny_eq_false_iff fields, OnlyProjected, inside, List.forall_mem_cons]
    simp [ProjectsOnly, children]
  | .proj base i =>
    rw [OnlyProjected, inside, List.forall_mem_cons]
    by_cases is_param : base.asVar? = some param
    · -- Here the one occurrence of the parameter is the base of a projection.
      obtain rfl := asVar?_eq_some_iff.mp is_param
      simp [escapes, asVar?, ProjectsOnly, inside, children]
    · have not_param : base ≠ .var param := fun same => is_param (asVar?_eq_some_iff.mpr same)
      rw [escapes, if_neg is_param, escapes_eq_false_iff base, OnlyProjected]
      simp [ProjectsOnly, children, not_param, not_param.symm]
  | .call callee args ty =>
    have below : ProjectsOnly param (.call callee args ty) ↔
        callee ≠ .var param ∧ .var param ∉ args := by
      simp [ProjectsOnly, children, eq_comm]
    rw [escapes, Bool.or_eq_false_iff, escapes_eq_false_iff callee, escapesAny_eq_false_iff args]
    simp only [OnlyProjected, inside, List.forall_mem_cons, List.forall_mem_append, below, ne_eq,
      reduceCtorEq, not_false_eq_true, true_and]
    rw [← and_assoc (a := ProjectsOnly param callee)]
    exact and_and_and_comm
  | .lit _ => simp [escapes, OnlyProjected, inside, ProjectsOnly, children]
  | .host _ => simp [escapes, OnlyProjected, inside, ProjectsOnly, children]
  | .op _ => simp [escapes, OnlyProjected, inside, ProjectsOnly, children]

/-- `escapes_eq_false_iff` for a list of expressions. -/
theorem escapesAny_eq_false_iff {param : VarId} (es : List Expr) :
    escapesAny param es = false ↔
      .var param ∉ es ∧ ∀ e' ∈ insideAll es, e'.ProjectsOnly param := by
  match es with
  | [] => simp [escapesAny, insideAll]
  | e :: es =>
    rw [escapesAny, Bool.or_eq_false_iff, escapes_eq_false_iff e, escapesAny_eq_false_iff es,
      OnlyProjected, insideAll, ← List.cons_append, List.forall_mem_append, List.mem_cons, not_or,
      ne_comm]
    exact and_and_and_comm

end

end Expr

end ParamStream
