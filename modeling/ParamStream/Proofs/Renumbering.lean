import Mathlib.Data.Nat.Count
import ParamStream.Proofs.Segment

/-!
# Deleting variables

A variable is a position in a table, so deleting some of them moves all those above.  `Func.without`
deletes variables from a function, with their bindings and their entries of the table, and lets the
others close up in order.  Which variables are deleted, and whether anything still reads them, is
not a question for this module.

Bindings to consecutive variables stay bindings to consecutive variables, so what becomes of them is
told by what remains of the list of their expressions.

## Main definitions

* `Expr.mapVars`, `Binding.mapVars` — other variables in place of those read;
* `VarId.closeUp` — where a variable moves;
* `remaining` — what remains of a list of entries;
* `Func.without`.

## Main statements

* `map_closeUp_numbered` — what remains of consecutive bindings;
* `getElem?_remaining` — where an entry that remains is found;
* `Expr.typeIn_mapVars` — types do not change.
-/

namespace ParamStream

namespace Expr

mutual

/-- The expression with other variables in place of those it reads. -/
def mapVars (ρ : VarId → VarId) : Expr → Expr
  | .var v => .var (ρ v)
  | .tuple fields => .tuple (mapVarsAll ρ fields)
  | .proj base i => .proj (base.mapVars ρ) i
  | .call callee args ty => .call (callee.mapVars ρ) (mapVarsAll ρ args) ty
  | .lit l => .lit l
  | .host name => .host name
  | .op name => .op name

/-- `mapVars` for a list of expressions. -/
def mapVarsAll (ρ : VarId → VarId) : List Expr → List Expr
  | [] => []
  | e :: es => e.mapVars ρ :: mapVarsAll ρ es

end

theorem mapVarsAll_eq_map (ρ : VarId → VarId) (es : List Expr) :
    mapVarsAll ρ es = es.map (mapVars ρ) := by
  induction es with
  | nil => rfl
  | cons e es ih => rw [mapVarsAll, ih, List.map_cons]

mutual

/-- The type of an expression is the same over a table that has the old entries at the new
variables. -/
theorem typeIn_mapVars {ρ : VarId → VarId} {vars vars' : List VarDecl} (e : Expr)
    (same : ∀ v ∈ e.reads, vars'[(ρ v).index]? = vars[v.index]?) :
    (e.mapVars ρ).typeIn vars' = e.typeIn vars := by
  match e with
  | .var v => simp [mapVars, typeIn, same v (by simp [reads])]
  | .tuple fields => rw [mapVars, typeIn, typeIn, typesIn_mapVarsAll fields same]
  | .proj base i => rw [mapVars, typeIn, typeIn, typeIn_mapVars base same]
  | .call callee args ty => rfl
  | .lit (.int _) => rfl
  | .lit (.bool _) => rfl
  | .lit .unit => rfl
  | .host _ => rfl
  | .op _ => rfl

/-- `typeIn_mapVars` for a list of expressions. -/
theorem typesIn_mapVarsAll {ρ : VarId → VarId} {vars vars' : List VarDecl} (es : List Expr)
    (same : ∀ v ∈ readsAll es, vars'[(ρ v).index]? = vars[v.index]?) :
    typesIn vars' (mapVarsAll ρ es) = typesIn vars es := by
  match es with
  | [] => rfl
  | e :: es =>
    rw [readsAll, List.forall_mem_append] at same
    rw [mapVarsAll, typesIn, typesIn, typeIn_mapVars e same.1, typesIn_mapVarsAll es same.2]

end

mutual

/-- Variables can be replaced before or after a redirection, if the inputs are read from the
variables that replace those they were read from. -/
theorem mapVars_redirect {param : VarId} {ρ rename : VarId → VarId} {fresh fresh' : Nat} (e : Expr)
    (shift : ∀ i < (e.inputReads param).length, ρ ⟨fresh + i⟩ = ⟨fresh' + i⟩) :
    (e.redirect param rename fresh).mapVars ρ = e.redirect param (ρ ∘ rename) fresh' := by
  match e with
  | .var v => rfl
  | .tuple fields => rw [redirect, mapVars, redirect, mapVarsAll_redirectAll fields shift]
  | .proj base i =>
    by_cases is_input : base.asVar? = some param
    · have moved : ρ ⟨fresh⟩ = ⟨fresh'⟩ := shift 0 (by simp [inputReads, is_input])
      rw [redirect, redirect, if_pos is_input, if_pos is_input, mapVars, moved]
    · rw [inputReads, if_neg is_input] at shift
      rw [redirect, redirect, if_neg is_input, if_neg is_input, mapVars,
        mapVars_redirect base shift]
  | .call callee args ty =>
    rw [inputReads, List.length_append] at shift
    have shift_args : ∀ i < (inputReadsAll param args).length,
        ρ ⟨fresh + (callee.inputReads param).length + i⟩ =
          ⟨fresh' + (callee.inputReads param).length + i⟩ := by
      intro i inside
      rw [Nat.add_assoc, Nat.add_assoc]
      exact shift _ (Nat.add_lt_add_left inside _)
    rw [redirect, redirect, mapVars,
      mapVars_redirect callee fun i inside => shift i (Nat.lt_add_right _ inside),
      mapVarsAll_redirectAll args shift_args]
  | .lit _ => rfl
  | .host _ => rfl
  | .op _ => rfl

/-- `mapVars_redirect` for a list of expressions. -/
theorem mapVarsAll_redirectAll {param : VarId} {ρ rename : VarId → VarId} {fresh fresh' : Nat}
    (es : List Expr)
    (shift : ∀ i < (inputReadsAll param es).length, ρ ⟨fresh + i⟩ = ⟨fresh' + i⟩) :
    mapVarsAll ρ (redirectAll param rename fresh es) =
      redirectAll param (ρ ∘ rename) fresh' es := by
  match es with
  | [] => rfl
  | e :: es =>
    rw [inputReadsAll, List.length_append] at shift
    have shift_rest : ∀ i < (inputReadsAll param es).length,
        ρ ⟨fresh + (e.inputReads param).length + i⟩ =
          ⟨fresh' + (e.inputReads param).length + i⟩ := by
      intro i inside
      rw [Nat.add_assoc, Nat.add_assoc]
      exact shift _ (Nat.add_lt_add_left inside _)
    rw [redirectAll, redirectAll, mapVarsAll,
      mapVars_redirect e fun i inside => shift i (Nat.lt_add_right _ inside),
      mapVarsAll_redirectAll es shift_rest]

end

end Expr

/-- The binding with other variables in place of its own and of those it reads. -/
def Binding.mapVars (ρ : VarId → VarId) (b : Binding) : Binding := ⟨ρ b.var, b.value.mapVars ρ⟩

/-! ### Closing up -/

/-- Where a variable moves when `gone` are deleted: below it there are then as many variables as
remained. -/
def VarId.closeUp (gone : List VarId) (v : VarId) : VarId :=
  ⟨Nat.count (fun k => (⟨k⟩ : VarId) ∉ gone) v.index⟩

/-- What remains of entries at the positions from `start` on. -/
def remaining {α : Type} (gone : List VarId) : Nat → List α → List α
  | _, [] => []
  | start, x :: xs =>
    if ⟨start⟩ ∈ gone then remaining gone (start + 1) xs else x :: remaining gone (start + 1) xs

/-- The block without the bindings of `gone`, when the other variables close up. -/
def Block.without (gone : List VarId) (block : Block) : Block where
  kind := block.kind
  bindings := (block.bindings.filter (·.var ∉ gone)).map (Binding.mapVars (VarId.closeUp gone))

/-- The function without the variables `gone`.  Their bindings and their entries of the table are
deleted, and the other variables close up. -/
def Func.without (gone : List VarId) (f : Func) : Func where
  params := (f.params.filter (· ∉ gone)).map (VarId.closeUp gone)
  blocks := f.blocks.map (Block.without gone)
  result := f.result.mapVars (VarId.closeUp gone)
  resultTy := f.resultTy
  vars := remaining gone 0 f.vars
  attrs := f.attrs

section

variable {α β : Type} {gone : List VarId}

theorem VarId.closeUp_of_mem {start : Nat} (mem : ⟨start⟩ ∈ gone) :
    closeUp gone ⟨start + 1⟩ = closeUp gone ⟨start⟩ := by
  simp [closeUp, Nat.count_succ, mem]

theorem VarId.closeUp_of_notMem {start : Nat} (stays : ⟨start⟩ ∉ gone) :
    closeUp gone ⟨start + 1⟩ = ⟨(closeUp gone ⟨start⟩).index + 1⟩ := by
  simp [closeUp, Nat.count_succ, stays]

@[simp] theorem remaining_nil (start : Nat) : remaining gone start ([] : List α) = [] := rfl

theorem remaining_cons_of_mem {start : Nat} (mem : ⟨start⟩ ∈ gone) (x : α) (xs : List α) :
    remaining gone start (x :: xs) = remaining gone (start + 1) xs := if_pos mem

theorem remaining_cons_of_notMem {start : Nat} (stays : ⟨start⟩ ∉ gone) (x : α) (xs : List α) :
    remaining gone start (x :: xs) = x :: remaining gone (start + 1) xs := if_neg stays

theorem remaining_append (start : Nat) (xs ys : List α) :
    remaining gone start (xs ++ ys) =
      remaining gone start xs ++ remaining gone (start + xs.length) ys := by
  induction xs generalizing start with
  | nil => rfl
  | cons x xs ih =>
    rw [List.length_cons, Nat.add_comm xs.length, ← Nat.add_assoc, List.cons_append]
    by_cases mem : ⟨start⟩ ∈ gone
    · rw [remaining_cons_of_mem mem, remaining_cons_of_mem mem, ih]
    · rw [remaining_cons_of_notMem mem, remaining_cons_of_notMem mem, ih, List.cons_append]

theorem remaining_map (start : Nat) (f : α → β) (xs : List α) :
    remaining gone start (xs.map f) = (remaining gone start xs).map f := by
  induction xs generalizing start with
  | nil => rfl
  | cons x xs ih =>
    by_cases mem : ⟨start⟩ ∈ gone
    · rw [List.map_cons, remaining_cons_of_mem mem, remaining_cons_of_mem mem, ih]
    · rw [List.map_cons, remaining_cons_of_notMem mem, remaining_cons_of_notMem mem, ih,
        List.map_cons]

/-- Entries that stay or go by a property of their own are selected by it. -/
theorem remaining_eq_filter {start : Nat} {xs : List α} {p : α → Bool}
    (selects : ∀ i x, xs[i]? = some x → (⟨start + i⟩ ∈ gone ↔ p x = false)) :
    remaining gone start xs = xs.filter p := by
  induction xs generalizing start with
  | nil => rfl
  | cons x xs ih =>
    have rest : remaining gone (start + 1) xs = xs.filter p := by
      refine ih fun i y at_i => ?_
      rw [Nat.add_assoc, Nat.add_comm 1]
      exact selects (i + 1) y at_i
    have first : ⟨start⟩ ∈ gone ↔ p x = false := selects 0 x rfl
    by_cases mem : ⟨start⟩ ∈ gone
    · rw [remaining_cons_of_mem mem, rest, List.filter_cons_of_neg (by simp [first.mp mem])]
    · have selected : p x = true := by simpa using mt first.mpr mem
      rw [remaining_cons_of_notMem mem, rest, List.filter_cons_of_pos selected]

/-- Entries all of which stay remain. -/
theorem remaining_eq_self {start : Nat} {xs : List α}
    (stay : ∀ i < xs.length, ⟨start + i⟩ ∉ gone) : remaining gone start xs = xs := by
  have selected : remaining gone start xs = xs.filter fun _ => true := by
    refine remaining_eq_filter fun i x at_i => ?_
    simp [stay i (List.getElem?_eq_some_iff.mp at_i).1]
  rw [selected, List.filter_true]

/-- Behind entries, variables close up to where these end. -/
theorem closeUp_add_length (start : Nat) (xs : List α) :
    VarId.closeUp gone ⟨start + xs.length⟩ =
      ⟨(VarId.closeUp gone ⟨start⟩).index + (remaining gone start xs).length⟩ := by
  induction xs generalizing start with
  | nil => rfl
  | cons x xs ih =>
    rw [List.length_cons, Nat.add_comm xs.length, ← Nat.add_assoc, ih]
    by_cases mem : ⟨start⟩ ∈ gone
    · rw [remaining_cons_of_mem mem, VarId.closeUp_of_mem mem]
    · rw [remaining_cons_of_notMem mem, VarId.closeUp_of_notMem mem, List.length_cons,
        Nat.add_assoc, Nat.add_comm 1]

/-- Variables all of which stay are closed up together. -/
theorem closeUp_add {start count : Nat} (stay : ∀ i < count, ⟨start + i⟩ ∉ gone) :
    VarId.closeUp gone ⟨start + count⟩ = ⟨(VarId.closeUp gone ⟨start⟩).index + count⟩ := by
  have all_remain : remaining gone start (List.replicate count ()) = List.replicate count () :=
    remaining_eq_self (by simpa using stay)
  have whole : VarId.closeUp gone ⟨start + (List.replicate count ()).length⟩ = _ :=
    closeUp_add_length start _
  rw [all_remain, List.length_replicate] at whole
  exact whole

/-- Consecutive variables all of which stay remain consecutive. -/
theorem map_closeUp_varsFrom {start count : Nat} (stay : ∀ i < count, ⟨start + i⟩ ∉ gone) :
    (varsFrom start count).map (VarId.closeUp gone) =
      varsFrom (VarId.closeUp gone ⟨start⟩).index count := by
  rw [varsFrom, varsFrom, List.range'_eq_map_range, List.range'_eq_map_range, List.map_map,
    List.map_map, List.map_map]
  refine List.map_congr_left fun i inside => ?_
  exact closeUp_add fun j below => stay j (Nat.lt_trans below (List.mem_range.mp inside))

/-- Of equal entries, equal entries remain. -/
theorem remaining_replicate (start count : Nat) (a : α) :
    remaining gone start (List.replicate count a) =
      List.replicate (remaining gone start (List.replicate count a)).length a := by
  induction count generalizing start with
  | zero => rfl
  | succ count ih =>
    rw [List.replicate_succ]
    by_cases mem : ⟨start⟩ ∈ gone
    · rw [remaining_cons_of_mem mem]
      exact ih _
    · rw [remaining_cons_of_notMem mem, List.length_cons, List.replicate_succ, ← ih]

/-- Of entries from the first position on, as many remain as variables below their end. -/
theorem length_remaining (xs : List α) :
    (remaining gone 0 xs).length = (VarId.closeUp gone ⟨xs.length⟩).index := by
  have first : (VarId.closeUp gone ⟨0⟩).index = 0 := by simp [VarId.closeUp]
  rw [← Nat.zero_add xs.length, closeUp_add_length, first, Nat.zero_add]

/-- An entry that stays is found where its position moves. -/
theorem getElem?_remaining {v : VarId} (stays : v ∉ gone) (xs : List α) :
    (remaining gone 0 xs)[(v.closeUp gone).index]? = xs[v.index]? := by
  by_cases inside : v.index < xs.length
  · have split : xs = xs.take v.index ++ xs[v.index] :: xs.drop (v.index + 1) := by
      rw [List.getElem_cons_drop, List.take_append_drop]
    have before : (xs.take v.index).length = v.index := List.length_take_of_le (Nat.le_of_lt inside)
    have place : (remaining gone 0 (xs.take v.index)).length = (v.closeUp gone).index := by
      rw [length_remaining, before]
    conv_lhs => rw [split]
    rw [remaining_append, before, Nat.zero_add, remaining_cons_of_notMem stays, ← place,
      List.getElem?_append_right (Nat.le_refl _), Nat.sub_self, List.getElem?_eq_getElem inside]
    rfl
  · have outside : (remaining gone 0 xs).length ≤ (v.closeUp gone).index := by
      rw [length_remaining]
      exact Nat.count_monotone _ (Nat.le_of_not_lt inside)
    rw [List.getElem?_eq_none outside, List.getElem?_eq_none (Nat.le_of_not_lt inside)]

/-- What remains of consecutive bindings are consecutive bindings of the remaining expressions. -/
theorem map_closeUp_numbered (start : Nat) (es : List Expr) :
    ((numbered start es).filter (·.var ∉ gone)).map (Binding.mapVars (VarId.closeUp gone)) =
      numbered (VarId.closeUp gone ⟨start⟩).index
        ((remaining gone start es).map (Expr.mapVars (VarId.closeUp gone))) := by
  induction es generalizing start with
  | nil => rfl
  | cons e es ih =>
    by_cases mem : ⟨start⟩ ∈ gone
    · rw [numbered_cons, List.filter_cons_of_neg (by simpa using mem), ih,
        VarId.closeUp_of_mem mem, remaining_cons_of_mem mem]
    · rw [numbered_cons, List.filter_cons_of_pos (by simpa using mem), List.map_cons, ih,
        VarId.closeUp_of_notMem mem, remaining_cons_of_notMem mem, List.map_cons, numbered_cons]
      rfl

end

end ParamStream
