import ParamStream.Proofs.Outcome
import ParamStream.Proofs.Services
import ParamStream.Streaming.Lower

/-!
# Expressions over the new variables

`Expr.reroute` looks every variable up in a map and fails where an entry is missing.  `redirect` is
the same traversal with a total renaming, so it cannot fail and its laws need no bookkeeping.  The
two agree: rerouting succeeds exactly when the parameter does not escape and every other variable
read has an entry, and then it is the redirection along any renaming that extends the map.

## Main definitions

* `Expr.redirect` — an expression over the new variables.

## Main statements

* `Expr.reroute_eq_ok_iff` — rerouting is redirection, when it succeeds;
* `Expr.mem_reads_redirect` — what the new expression reads;
* `Expr.hosts_redirect`, `Expr.service?_redirect` — it refers to the same host functions.
-/

namespace ParamStream

namespace Expr

mutual

/-- An expression over the new variables: `rename` takes the variables other than the parameter,
and the projections `param.i` become `fresh`, `fresh + 1`, and so on, in visit order. -/
def redirect (param : VarId) (rename : VarId → VarId) (fresh : Nat) : Expr → Expr
  | .var v => .var (rename v)
  | .tuple fields => .tuple (redirectAll param rename fresh fields)
  | .proj base i =>
    if base.asVar? = some param then .var ⟨fresh⟩ else .proj (base.redirect param rename fresh) i
  | .call callee args ty =>
    .call (callee.redirect param rename fresh)
      (redirectAll param rename (fresh + (callee.inputReads param).length) args) ty
  | .lit l => .lit l
  | .host name => .host name
  | .op name => .op name

/-- `redirect` for a list of expressions, from left to right. -/
def redirectAll (param : VarId) (rename : VarId → VarId) (fresh : Nat) : List Expr → List Expr
  | [] => []
  | e :: es =>
    e.redirect param rename fresh ::
      redirectAll param rename (fresh + (e.inputReads param).length) es

end

variable {param : VarId}

/-! ### Rerouting -/

theorem lookup_eq_ok_iff {values : Assoc VarId VarId} {v w : VarId} :
    lookup param values v = .ok w ↔ v ≠ param ∧ values.get? v = some w := by
  by_cases is_param : v = param
  · simp [lookup, is_param]
  · cases found : values.get? v <;> simp [lookup, is_param, found]

/-- A renaming extends a map on the variables that are read. -/
def Extends (values : Assoc VarId VarId) (rename : VarId → VarId) (vs : List VarId) : Prop :=
  ∀ v ∈ vs, ∀ w, values.get? v = some w → rename v = w

theorem Extends.mono {values : Assoc VarId VarId} {rename : VarId → VarId} {vs us : List VarId}
    (extends_ : Extends values rename us) (sub : ∀ v ∈ vs, v ∈ us) :
    Extends values rename vs :=
  fun v mem w found => extends_ v (sub v mem) w found

/-- A map extends to a renaming that keeps what has no entry. -/
theorem extends_getD (values : Assoc VarId VarId) (vs : List VarId) :
    Extends values (fun v => (values.get? v).getD v) vs := by
  intro v _ w found
  show (values.get? v).getD v = w
  rw [found, Option.getD_some]

/-- Every variable other than the parameter has an entry. -/
def Mapped (param : VarId) (values : Assoc VarId VarId) (vs : List VarId) : Prop :=
  ∀ v ∈ vs, v ≠ param → ∃ w, values.get? v = some w

theorem mapped_append {values : Assoc VarId VarId} {vs us : List VarId} :
    Mapped param values (vs ++ us) ↔ Mapped param values vs ∧ Mapped param values us := by
  simp only [Mapped, List.mem_append]
  exact ⟨fun all => ⟨fun v mem => all v (.inl mem), fun v mem => all v (.inr mem)⟩,
    fun both v mem => mem.elim (both.1 v) (both.2 v)⟩

mutual

/-- Rerouting succeeds exactly when the parameter stays under projections and the other variables
have entries, and it is then the redirection. -/
theorem reroute_eq_ok_iff {values : Assoc VarId VarId} {rename : VarId → VarId} (fresh : Nat)
    (e : Expr) (agree : Extends values rename e.reads) {e' : Expr} :
    e.reroute param values fresh = .ok e' ↔
      e.escapes param = false ∧ Mapped param values e.reads ∧
        e.redirect param rename fresh = e' := by
  match e with
  | .var v =>
    simp only [reroute, Except.bind_eq_ok_iff, lookup_eq_ok_iff, Except.pure_eq_ok_iff, escapes,
      decide_eq_false_iff_not, Mapped, reads, List.mem_singleton, forall_eq, redirect]
    constructor
    · rintro ⟨w, ⟨not_param, found⟩, rfl⟩
      have same : rename v = w := agree v (by simp [reads]) w found
      exact ⟨not_param, fun _ => ⟨w, found⟩, by rw [same]⟩
    · rintro ⟨not_param, mapped, rfl⟩
      obtain ⟨w, found⟩ := mapped not_param
      have same : rename v = w := agree v (by simp [reads]) w found
      exact ⟨w, ⟨not_param, found⟩, by rw [same]⟩
  | .tuple fields =>
    simp only [reroute, Except.bind_eq_ok_iff, rerouteAll_eq_ok_iff fresh fields agree,
      Except.pure_eq_ok_iff, escapes, reads, redirect]
    constructor
    · rintro ⟨_, ⟨stays, mapped, rfl⟩, rfl⟩
      exact ⟨stays, mapped, rfl⟩
    · rintro ⟨stays, mapped, rfl⟩
      exact ⟨_, ⟨stays, mapped, rfl⟩, rfl⟩
  | .proj base i =>
    by_cases is_input : base.asVar? = some param
    · obtain rfl := asVar?_eq_some_iff.mp is_input
      simp [reroute, asVar?, escapes, Mapped, reads, redirect]
    · simp only [reroute, is_input, if_false, Except.bind_eq_ok_iff,
        reroute_eq_ok_iff fresh base agree, Except.pure_eq_ok_iff, escapes, reads, redirect]
      constructor
      · rintro ⟨_, ⟨stays, mapped, rfl⟩, rfl⟩
        exact ⟨stays, mapped, rfl⟩
      · rintro ⟨stays, mapped, rfl⟩
        exact ⟨_, ⟨stays, mapped, rfl⟩, rfl⟩
  | .call callee args ty =>
    have agree_callee : Extends values rename callee.reads :=
      agree.mono fun v mem => by simp [reads, mem]
    have agree_args : Extends values rename (readsAll args) :=
      agree.mono fun v mem => by simp [reads, mem]
    simp only [reroute, Except.bind_eq_ok_iff, reroute_eq_ok_iff fresh callee agree_callee,
      rerouteAll_eq_ok_iff (fresh + (callee.inputReads param).length) args agree_args,
      Except.pure_eq_ok_iff, escapes, Bool.or_eq_false_iff, reads, mapped_append, redirect]
    constructor
    · rintro ⟨_, ⟨stays, mapped, rfl⟩, _, ⟨args_stay, args_mapped, rfl⟩, rfl⟩
      exact ⟨⟨stays, args_stay⟩, ⟨mapped, args_mapped⟩, rfl⟩
    · rintro ⟨⟨stays, args_stay⟩, ⟨mapped, args_mapped⟩, rfl⟩
      exact ⟨_, ⟨stays, mapped, rfl⟩, _, ⟨args_stay, args_mapped, rfl⟩, rfl⟩
  | .lit l => simp [reroute, escapes, Mapped, reads, redirect]
  | .host name => simp [reroute, escapes, Mapped, reads, redirect]
  | .op name => simp [reroute, escapes, Mapped, reads, redirect]

/-- `reroute_eq_ok_iff` for a list of expressions. -/
theorem rerouteAll_eq_ok_iff {values : Assoc VarId VarId} {rename : VarId → VarId} (fresh : Nat)
    (es : List Expr) (agree : Extends values rename (readsAll es)) {es' : List Expr} :
    rerouteAll param values fresh es = .ok es' ↔
      escapesAny param es = false ∧ Mapped param values (readsAll es) ∧
        redirectAll param rename fresh es = es' := by
  match es with
  | [] => simp [rerouteAll, escapesAny, Mapped, readsAll, redirectAll]
  | e :: es =>
    have agree_head : Extends values rename e.reads :=
      agree.mono fun v mem => by simp [readsAll, mem]
    have agree_tail : Extends values rename (readsAll es) :=
      agree.mono fun v mem => by simp [readsAll, mem]
    simp only [rerouteAll, Except.bind_eq_ok_iff, reroute_eq_ok_iff fresh e agree_head,
      rerouteAll_eq_ok_iff (fresh + (e.inputReads param).length) es agree_tail,
      Except.pure_eq_ok_iff, escapesAny, Bool.or_eq_false_iff, readsAll, mapped_append,
      redirectAll]
    constructor
    · rintro ⟨_, ⟨stays, mapped, rfl⟩, _, ⟨rest_stay, rest_mapped, rfl⟩, rfl⟩
      exact ⟨⟨stays, rest_stay⟩, ⟨mapped, rest_mapped⟩, rfl⟩
    · rintro ⟨⟨stays, rest_stay⟩, ⟨mapped, rest_mapped⟩, rfl⟩
      exact ⟨_, ⟨stays, mapped, rfl⟩, _, ⟨rest_stay, rest_mapped, rfl⟩, rfl⟩

end

/-! ### What the new expression reads -/

/-- The variables `start`, …, `start + count - 1`. -/
def InRange (start count : Nat) (t : VarId) : Prop := start ≤ t.index ∧ t.index < start + count

mutual

/-- The new expression reads the new names of the variables read, and one fresh variable for each
projection of the parameter. -/
theorem mem_reads_redirect (rename : VarId → VarId) (fresh : Nat) (e : Expr)
    (stays : e.escapes param = false) (t : VarId) :
    t ∈ (e.redirect param rename fresh).reads ↔
      (∃ v ∈ e.reads, v ≠ param ∧ rename v = t) ∨
        InRange fresh (e.inputReads param).length t := by
  match e with
  | .var v =>
    have not_param : v ≠ param := by simpa [escapes] using stays
    have none_fresh : ¬ InRange fresh 0 t := by simp only [InRange]; omega
    simp only [redirect, reads, inputReads, List.mem_singleton, exists_eq_left, List.length_nil,
      none_fresh, or_false]
    exact ⟨fun same => ⟨not_param, same.symm⟩, fun new => new.2.symm⟩
  | .tuple fields => exact mem_readsAll_redirectAll rename fresh fields stays t
  | .proj base i =>
    by_cases is_input : base.asVar? = some param
    · obtain rfl := asVar?_eq_some_iff.mp is_input
      have only : InRange fresh 1 t ↔ t = ⟨fresh⟩ := by
        cases t
        simp only [InRange, VarId.mk.injEq]
        omega
      simp [redirect, asVar?, reads, inputReads, only]
    · rw [escapes, if_neg is_input] at stays
      rw [redirect, if_neg is_input, inputReads, if_neg is_input]
      exact mem_reads_redirect rename fresh base stays t
  | .call callee args ty =>
    rw [escapes, Bool.or_eq_false_iff] at stays
    have head := mem_reads_redirect rename fresh callee stays.1 t
    have rest := mem_readsAll_redirectAll rename (fresh + (callee.inputReads param).length) args
      stays.2 t
    simp only [redirect, reads, inputReads, List.mem_append, List.length_append, head, rest,
      InRange]
    grind
  | .lit l => simp [redirect, reads, inputReads, InRange]
  | .host name => simp [redirect, reads, inputReads, InRange]
  | .op name => simp [redirect, reads, inputReads, InRange]

/-- `mem_reads_redirect` for a list of expressions. -/
theorem mem_readsAll_redirectAll (rename : VarId → VarId) (fresh : Nat) (es : List Expr)
    (stay : escapesAny param es = false) (t : VarId) :
    t ∈ readsAll (redirectAll param rename fresh es) ↔
      (∃ v ∈ readsAll es, v ≠ param ∧ rename v = t) ∨
        InRange fresh (inputReadsAll param es).length t := by
  match es with
  | [] => simp [redirectAll, readsAll, inputReadsAll, InRange]
  | e :: es =>
    rw [escapesAny, Bool.or_eq_false_iff] at stay
    have head := mem_reads_redirect rename fresh e stay.1 t
    have rest := mem_readsAll_redirectAll rename (fresh + (e.inputReads param).length) es
      stay.2 t
    simp only [redirectAll, readsAll, inputReadsAll, List.mem_append, List.length_append, head,
      rest, InRange]
    grind

end

/-! ### What it refers to -/

mutual

/-- Redirection keeps the references to host functions. -/
theorem hosts_redirect (param : VarId) (rename : VarId → VarId) (fresh : Nat) (e : Expr) :
    (e.redirect param rename fresh).hosts = e.hosts := by
  match e with
  | .var v => rfl
  | .tuple fields => exact hostsAll_redirectAll param rename fresh fields
  | .proj base i =>
    by_cases is_input : base.asVar? = some param
    · obtain rfl := asVar?_eq_some_iff.mp is_input
      simp [redirect, asVar?, hosts]
    · rw [redirect, if_neg is_input]
      exact hosts_redirect param rename fresh base
  | .call callee args ty =>
    simp only [redirect, hosts, hosts_redirect param rename fresh callee,
      hostsAll_redirectAll param rename _ args]
  | .lit l => rfl
  | .host name => rfl
  | .op name => rfl

/-- `hosts_redirect` for a list of expressions. -/
theorem hostsAll_redirectAll (param : VarId) (rename : VarId → VarId) (fresh : Nat)
    (es : List Expr) : hostsAll (redirectAll param rename fresh es) = hostsAll es := by
  match es with
  | [] => rfl
  | e :: es =>
    simp only [redirectAll, hostsAll, hosts_redirect param rename fresh e,
      hostsAll_redirectAll param rename _ es]

end

/-- Redirection keeps the service that an expression calls. -/
theorem service?_redirect (table : SymbolTable) (param : VarId) (rename : VarId → VarId)
    (fresh : Nat) (e : Expr) :
    (e.redirect param rename fresh).service? table = e.service? table := by
  cases e with
  | proj base i =>
    by_cases is_input : base.asVar? = some param <;> simp [redirect, is_input, service?]
  | call callee args ty =>
    cases callee with
    | proj base i =>
      by_cases is_input : base.asVar? = some param <;> simp [redirect, is_input, service?]
    | _ => simp [redirect, service?]
  | _ => simp [redirect, service?]

/-- A redirected expression is a bare variable when it was one, or was an input. -/
theorem asVar?_redirect (param : VarId) (rename : VarId → VarId) (fresh : Nat) (e : Expr) :
    (e.redirect param rename fresh).asVar? =
      if (e.inputIndex? param).isSome then some ⟨fresh⟩ else e.asVar?.map rename := by
  cases e with
  | proj base i =>
    by_cases is_input : base.asVar? = some param
    · rw [redirect, inputIndex?, if_pos is_input, if_pos is_input]
      rfl
    · rw [redirect, inputIndex?, if_neg is_input, if_neg is_input]
      rfl
  | _ => simp [redirect, asVar?, inputIndex?]

/-- A direct input is read once, as that input. -/
theorem eq_proj_of_inputIndex? {param : VarId} {e : Expr} {i : Nat}
    (is_input : e.inputIndex? param = some i) : e = .proj (.var param) i := by
  cases e with
  | proj base j =>
    by_cases is_param : base.asVar? = some param
    · simp only [inputIndex?, is_param, if_true, Option.some.injEq] at is_input
      rw [asVar?_eq_some_iff.mp is_param, is_input]
    · simp [inputIndex?, is_param] at is_input
  | _ => simp [inputIndex?] at is_input

end Expr

end ParamStream
