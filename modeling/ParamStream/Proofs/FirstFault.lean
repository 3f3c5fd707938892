import Mathlib.Data.List.Nodup
import ParamStream.Proofs.Scoping
import ParamStream.Proofs.Subexpressions

/-!
# What the scope check reports

`Func.checkScope` carries the variables defined so far through the function and stops at the first
thing that is wrong.  Neither is needed to say what it decides.  A function is a sequence of
*mentions*, definitions and reads of variables, and whether a mention is at fault depends on the
mentions before it alone.  The check reports the first mention that is at fault, and it passes the
functions whose variables are in the table, defined once and read after their definition.

What an expression reads is not left to the walk of the check either: it is the variables among the
subexpressions, in visit order (`Expr.visited`).

## Main definitions

* `Mention`, `Func.mentions` — where a function defines and reads variables, in order;
* `Mention.fault?` — the rule that a mention breaks, after the mentions before it;
* `Func.WellScoped` — single assignment and definition before use, said of positions.

## Main statements

* `Func.checkScope_reports` — the check reports the first fault;
* `Func.scope_decided`.
-/

namespace ParamStream

/-! ### Mentions -/

/-- A place at which a function defines or reads a variable. -/
inductive Mention where
  | define (v : VarId)
  | read (v : VarId)
deriving DecidableEq

namespace Mention

/-- The rule that a mention breaks when `earlier` come before it, in a function whose table has
`size` entries.  A variable outside the table breaks that rule and no other. -/
def fault? (size : Nat) (earlier : List Mention) : Mention → Option ScopeError
  | .define v =>
    if size ≤ v.index then some (.unknown v size)
    else if .define v ∈ earlier then some (.redefined v)
    else none
  | .read v =>
    if size ≤ v.index then some (.unknown v size)
    else if .define v ∈ earlier then none
    else some (.readBeforeDefinition v)

/-- The fault of the first mention that has one, when `earlier` come before all of them. -/
def firstFault? (size : Nat) : List Mention → List Mention → Option ScopeError
  | _, [] => none
  | earlier, m :: ms => (m.fault? size earlier).or (firstFault? size (earlier ++ [m]) ms)

variable {size : Nat} {earlier : List Mention}

@[simp] theorem firstFault?_nil : firstFault? size earlier [] = none := rfl

theorem firstFault?_cons (m : Mention) (ms : List Mention) :
    firstFault? size earlier (m :: ms) =
      (m.fault? size earlier).or (firstFault? size (earlier ++ [m]) ms) := rfl

theorem firstFault?_append (ms more : List Mention) :
    firstFault? size earlier (ms ++ more) =
      (firstFault? size earlier ms).or (firstFault? size (earlier ++ ms) more) := by
  induction ms generalizing earlier with
  | nil => simp
  | cons m ms ih => simp [firstFault?_cons, ih, Option.or_assoc]

/-- The first fault is that of a mention, and no mention before it has one. -/
theorem firstFault?_eq_some_iff {ms : List Mention} {e : ScopeError} :
    firstFault? size earlier ms = some e ↔
      ∃ before m after, ms = before ++ m :: after ∧ m.fault? size (earlier ++ before) = some e ∧
        ∀ front x back, before = front ++ x :: back → x.fault? size (earlier ++ front) = none := by
  induction ms generalizing earlier with
  | nil => simp
  | cons m ms ih =>
    rw [firstFault?_cons, Option.or_eq_some_iff, ih]
    constructor
    · rintro (fault | ⟨fine, before, x, after, rfl, fault, none_before⟩)
      · exact ⟨[], m, ms, rfl, by simpa using fault, by simp⟩
      · refine ⟨m :: before, x, after, rfl, by simpa using fault, fun front y back split => ?_⟩
        cases front with
        | nil =>
          obtain ⟨rfl, -⟩ := List.cons.inj split
          simpa using fine
        | cons z front =>
          obtain ⟨rfl, split_rest⟩ := List.cons.inj split
          simpa using none_before front y back split_rest
    · rintro ⟨before, x, after, split, fault, none_before⟩
      cases before with
      | nil =>
        obtain ⟨rfl, rfl⟩ := List.cons.inj split
        exact .inl (by simpa using fault)
      | cons z before =>
        obtain ⟨rfl, rfl⟩ := List.cons.inj split
        refine .inr ⟨by simpa using none_before [] m before rfl, before, x, after, rfl,
          by simpa using fault, fun front y back split => ?_⟩
        simpa using none_before (m :: front) y back (by rw [split]; rfl)

end Mention

/-- The mentions of a binding: its reads in visit order, then the variable it defines. -/
def Binding.mentions (b : Binding) : List Mention := b.value.visited.map .read ++ [.define b.var]

/-- The mentions of a function: its parameters, its bindings in program order, then the reads of
its result. -/
def Func.mentions (f : Func) : List Mention :=
  f.params.map .define ++ (f.bindings.flatMap Binding.mentions ++ f.result.visited.map .read)

/-! ### The check reports the first fault -/

namespace Scope

open Mention

variable {size : Nat} {earlier : List Mention} {defined : List VarId}

/-- The variables defined by the mentions are the ones listed. -/
def Records (earlier : List Mention) (defined : List VarId) : Prop :=
  ∀ v, Mention.define v ∈ earlier ↔ v ∈ defined

theorem Records.read (records : Records earlier defined) (vs : List VarId) :
    Records (earlier ++ vs.map .read) defined := by
  intro v
  simpa using records v

theorem Records.define (records : Records earlier defined) (vs : List VarId) :
    Records (earlier ++ vs.map .define) (vs.reverse ++ defined) := by
  intro v
  simp [records v, or_comm]

theorem checkReads_reports (records : Records earlier defined) (vs : List VarId) :
    (checkReads size defined vs).Reports (firstFault? size earlier (vs.map .read)) := by
  induction vs generalizing earlier with
  | nil => exact .pure ()
  | cons v vs ih =>
    rw [List.map_cons, firstFault?_cons, checkReads, fault?]
    by_cases outside : size ≤ v.index
    · rw [if_pos outside, if_pos outside]
      exact .throw _
    · by_cases known : v ∈ defined
      · rw [if_neg outside, if_neg outside, if_pos known, if_pos ((records v).mpr known)]
        exact ih (records.read [v])
      · rw [if_neg outside, if_neg outside, if_neg known, if_neg (known ∘ (records v).mp)]
        exact .throw _

theorem define_reports (records : Records earlier defined) (v : VarId) :
    (Scope.define size defined v).Reports (fault? size earlier (.define v)) := by
  rw [Scope.define, fault?]
  by_cases outside : size ≤ v.index
  · rw [if_pos outside, if_pos outside]
    exact .throw _
  · by_cases known : v ∈ defined
    · rw [if_neg outside, if_neg outside, if_pos known, if_pos ((records v).mpr known)]
      exact .throw _
    · rw [if_neg outside, if_neg outside, if_neg known, if_neg (known ∘ (records v).mp)]
      exact .pure _

theorem defineAll_reports (records : Records earlier defined) (vs : List VarId) :
    (defineAll size defined vs).Reports (firstFault? size earlier (vs.map .define)) := by
  induction vs generalizing earlier defined with
  | nil => exact .pure defined
  | cons v vs ih =>
    refine (define_reports records v).bind fun after defines => ?_
    obtain ⟨-, -, rfl⟩ := define_eq_ok_iff.mp defines
    exact ih (records.define [v])

theorem checkBindings_reports (records : Records earlier defined) (bs : List Binding) :
    (checkBindings size defined bs).Reports
      (firstFault? size earlier (bs.flatMap Binding.mentions)) := by
  induction bs generalizing earlier defined with
  | nil => exact .pure defined
  | cons b bs ih =>
    -- The reads of a binding leave the variables defined alone, and its definition adds one.
    have after_reads := records.read b.value.reads
    rw [List.flatMap_cons, Binding.mentions, ← Expr.reads_eq_visited, List.append_assoc,
      firstFault?_append]
    refine (checkReads_reports records b.value.reads).bind fun _ _ => ?_
    rw [List.singleton_append, firstFault?_cons]
    refine (define_reports after_reads b.var).bind fun after defines => ?_
    obtain ⟨-, -, rfl⟩ := define_eq_ok_iff.mp defines
    exact ih (after_reads.define [b.var])

/-- The variables bound by bindings are recorded by their mentions. -/
theorem Records.bindings (records : Records earlier defined) (bs : List Binding) :
    Records (earlier ++ bs.flatMap Binding.mentions) ((bs.map Binding.var).reverse ++ defined) := by
  intro v
  simp [Binding.mentions, records v, or_comm, eq_comm]

end Scope

/-- **The check reports the first fault.** -/
theorem Func.checkScope_reports (f : Func) :
    f.checkScope.Reports (Mention.firstFault? f.vars.length [] f.mentions) := by
  have start : Scope.Records [] [] := fun v => by simp
  rw [mentions, ← Expr.reads_eq_visited, Mention.firstFault?_append, Mention.firstFault?_append]
  refine (Scope.defineAll_reports start f.params).bind fun defined defines => ?_
  obtain ⟨-, -, -, rfl⟩ := Scope.defineAll_eq_ok_iff.mp defines
  have params := start.define f.params
  refine (Scope.checkBindings_reports params f.bindings).bind fun defined binds => ?_
  obtain ⟨-, rfl⟩ := Scope.checkBindings_eq_ok_iff.mp binds
  exact Scope.checkReads_reports (params.bindings f.bindings) f.result.reads

/-! ### What passes -/

/-- Bindings are in order exactly if their variables are new, distinct and in the table, and each
reads what is in the table and defined at the outset or bound before it. -/
theorem Scope.ordered_iff {size : Nat} {defined : List VarId} {bs : List Binding} :
    Ordered size defined bs ↔
      (∀ b ∈ bs, b.var.index < size ∧ ∀ v ∈ b.value.reads, v.index < size) ∧
        (bs.map Binding.var).Nodup ∧ (∀ v ∈ bs.map Binding.var, v ∉ defined) ∧
        ∀ before b after, bs = before ++ b :: after →
          ∀ v ∈ b.value.reads, v ∈ defined ∨ v ∈ before.map Binding.var := by
  induction bs generalizing defined with
  | nil => simp [Ordered]
  | cons b bs ih =>
    constructor
    · intro ordered
      refine ⟨?_, ordered.nodup, ordered.var_notMem, fun before c after split => ?_⟩
      · obtain ⟨reads, inside, -, rest⟩ := ordered
        exact List.forall_mem_cons.mpr ⟨⟨inside, fun v read => (reads v read).1⟩, (ih.mp rest).1⟩
      · rw [split] at ordered
        exact ordered.reads_defined
    · rintro ⟨inside, distinct, fresh, known⟩
      rw [List.map_cons, List.nodup_cons] at distinct
      rw [List.forall_mem_cons] at inside
      refine ⟨fun v read => ⟨inside.1.2 v read, ?_⟩, inside.1.1, fresh b.var (by simp), ih.mpr
        ⟨inside.2, distinct.2, fun v bound again => ?_, fun before c after split v read => ?_⟩⟩
      · simpa using known [] b bs rfl v read
      · rcases List.mem_cons.mp again with rfl | old
        · exact distinct.1 bound
        · exact fresh v (List.mem_cons_of_mem _ bound) old
      · have at_c := known (b :: before) c after (by rw [split]; rfl) v read
        simpa [or_assoc, or_left_comm] using at_c

/-- Single assignment and definition before use: every variable mentioned is in the table, no
variable is defined twice, and what is read is a parameter or bound by an earlier binding. -/
structure Func.WellScoped (f : Func) : Prop where
  params_lt : ∀ v ∈ f.params, v.index < f.vars.length
  bindings_lt : ∀ b ∈ f.bindings,
    b.var.index < f.vars.length ∧ ∀ v ∈ b.value.visited, v.index < f.vars.length
  result_lt : ∀ v ∈ f.result.visited, v.index < f.vars.length
  distinct : (f.params ++ f.bindings.map Binding.var).Nodup
  reads : ∀ before b after, f.bindings = before ++ b :: after →
    ∀ v ∈ b.value.visited, v ∈ f.params ∨ v ∈ before.map Binding.var
  result : ∀ v ∈ f.result.visited, v ∈ f.params ∨ v ∈ f.bindings.map Binding.var

/-- The check passes the well-scoped functions. -/
theorem Func.checkScope_eq_ok_iff_wellScoped {f : Func} :
    f.checkScope = .ok () ↔ f.WellScoped := by
  rw [checkScope_eq_ok_iff, Scope.ordered_iff]
  simp only [List.mem_reverse, List.mem_append, Expr.reads_eq_visited]
  constructor
  · rintro ⟨⟨params_lt, params_distinct⟩, ⟨bindings_lt, bound_distinct, fresh, reads⟩, result⟩
    exact
      { params_lt
        bindings_lt
        result_lt := fun v read => (result v read).1
        distinct := List.nodup_append'.mpr
          ⟨params_distinct, bound_distinct, fun v param bound => fresh v bound param⟩
        reads
        result := fun v read => (result v read).2.symm }
  · intro well
    obtain ⟨params_distinct, bound_distinct, apart⟩ := List.nodup_append'.mp well.distinct
    exact ⟨⟨well.params_lt, params_distinct⟩,
      ⟨well.bindings_lt, bound_distinct, fun v bound param => apart param bound, well.reads⟩,
      fun v read => ⟨well.result_lt v read, (well.result v read).symm⟩⟩

/-- **Scoping is decided, and the first fault is reported.**  The check passes exactly the functions
with single assignment and definition before use.  It fails with an error exactly if this is the
fault of a mention and no mention before it is at fault, where parameters come first, then for each
binding its reads in visit order and the variable it defines, then the reads of the result. -/
theorem Func.scope_decided (f : Func) :
    (f.checkScope = .ok () ↔ f.WellScoped) ∧
      ∀ e, f.checkScope = .error e ↔
        ∃ before m after, f.mentions = before ++ m :: after ∧
          m.fault? f.vars.length before = some e ∧
          ∀ front x back, before = front ++ x :: back → x.fault? f.vars.length front = none := by
  refine ⟨checkScope_eq_ok_iff_wellScoped, fun e => ?_⟩
  rw [f.checkScope_reports e, Mention.firstFault?_eq_some_iff]
  simp only [List.nil_append]

/-- A call whose callee reads a variable that is defined later, and whose argument has a variable in
it that is not in the table. -/
def Sample.premature : Func where
  params := [⟨0⟩]
  blocks :=
    [⟨.plain,
      [⟨⟨1⟩, .call (.proj (.var ⟨2⟩) 0) [.var ⟨0⟩, .tuple [.var ⟨9⟩]] .tensor⟩,
        ⟨⟨2⟩, .tuple [.var ⟨1⟩]⟩]⟩]
  result := .var ⟨2⟩
  resultTy := .object
  vars := [⟨⟨1⟩, .tensor⟩, ⟨⟨2⟩, .tensor⟩, ⟨⟨3⟩, .object⟩]
  attrs := []

open Sample in
/-- The callee is visited first, so its variable is the one reported. -/
theorem Func.scope_decided_premature :
    premature.checkScope = .error (.readBeforeDefinition ⟨2⟩) ∧ ¬ premature.WellScoped := by
  obtain ⟨passes_iff, reports_iff⟩ := scope_decided premature
  have reported : premature.checkScope = .error (.readBeforeDefinition ⟨2⟩) := by
    refine (reports_iff _).mpr ⟨[.define ⟨0⟩], .read ⟨2⟩, _, rfl, rfl, fun front x back split => ?_⟩
    -- Before it there is only the parameter.
    cases front with
    | nil =>
      obtain ⟨rfl, -⟩ := List.cons.inj split
      rfl
    | cons y front => simp at split
  refine ⟨reported, fun well => ?_⟩
  rw [passes_iff.mpr well] at reported
  cases reported

end ParamStream
