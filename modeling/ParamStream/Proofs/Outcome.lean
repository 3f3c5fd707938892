/-!
# Computations that may fail

The checks, the analyses and the lowering are written in `Except`.  The equations below take such
a computation apart when it is known to have succeeded: what it was built from has succeeded, with
results that fit together.  When it is known to have failed, one of its parts has, and those before
it have not; `FailsWithin` bounds the errors that a computation can end with, and `Reports` says
which one it ends with, if any.
-/

namespace Except

variable {ε ε' α β : Type}

/-- A sequence succeeds when its parts succeed one after the other. -/
@[simp] theorem bind_eq_ok_iff {x : Except ε α} {k : α → Except ε β} {b : β} :
    x >>= k = .ok b ↔ ∃ a, x = .ok a ∧ k a = .ok b := by
  cases x with
  | error e => simp [bind, Except.bind]
  | ok a => simp [bind, Except.bind]

@[simp] theorem ok_bind (a : α) (k : α → Except ε β) : (.ok a : Except ε α) >>= k = k a := rfl

@[simp] theorem error_bind (e : ε) (k : α → Except ε β) :
    (.error e : Except ε α) >>= k = .error e := rfl

/-- A sequence fails with the error of its first part, or of the rest when that succeeds. -/
theorem bind_eq_error_iff {x : Except ε α} {k : α → Except ε β} {e : ε} :
    x >>= k = .error e ↔ x = .error e ∨ ∃ a, x = .ok a ∧ k a = .error e := by
  cases x with
  | error e' => simp [bind, Except.bind]
  | ok a => simp [bind, Except.bind]

@[simp] theorem pure_eq_ok_iff {a b : α} : (pure a : Except ε α) = .ok b ↔ a = b := by
  simp [pure, Except.pure]

@[simp] theorem throw_eq_ok_iff {e : ε} {a : α} : (throw e : Except ε α) = .ok a ↔ False :=
  ⟨nofun, False.elim⟩

@[simp] theorem map_pure (f : α → β) (a : α) : (pure a : Except ε α).map f = pure (f a) := rfl

/-- Mapping over a sequence maps over its last part. -/
theorem map_bind {γ : Type} (f : β → γ) (x : Except ε α) (k : α → Except ε β) :
    (x >>= k).map f = x >>= fun a => (k a).map f := by
  cases x <;> rfl

/-- A sequence seen through a view: it is enough that each part depends on the view alone. -/
theorem map_bind_eq {γ δ : Type} {view : α → γ} {view' : β → δ} {x : Except ε α}
    {k : α → Except ε β} {y : Except ε γ} {l : γ → Except ε δ} (first : x.map view = y)
    (rest : ∀ a, (k a).map view' = l (view a)) : (x >>= k).map view' = y >>= l := by
  subst first
  cases x with
  | error e => rfl
  | ok a => exact rest a

@[simp] theorem map_eq_ok_iff {f : α → β} {x : Except ε α} {b : β} :
    x.map f = .ok b ↔ ∃ a, x = .ok a ∧ f a = b := by
  cases x <;> simp [Except.map]

theorem map_eq_error_iff {f : α → β} {x : Except ε α} {e : ε} :
    x.map f = .error e ↔ x = .error e := by
  cases x <;> simp [Except.map]

@[simp] theorem mapError_eq_ok_iff {f : ε → ε'} {x : Except ε α} {a : α} :
    x.mapError f = .ok a ↔ x = .ok a := by
  cases x with
  | error e => exact ⟨(nomatch ·), (nomatch ·)⟩
  | ok b =>
    exact ⟨fun same => congrArg ok (ok.inj same), fun same => congrArg ok (ok.inj same)⟩

/-- Traversing a list succeeds when every step does, and lists the results in order. -/
theorem mapM_eq_ok_iff {f : α → Except ε β} {xs : List α} {ys : List β} :
    xs.mapM f = .ok ys ↔ xs.map f = ys.map .ok := by
  induction xs generalizing ys with
  | nil => cases ys <;> simp
  | cons x xs ih =>
    rw [List.mapM_cons]
    constructor
    · intro traversed
      obtain ⟨y, head, rest⟩ := bind_eq_ok_iff.mp traversed
      obtain ⟨tail, tail_ok, whole⟩ := bind_eq_ok_iff.mp rest
      obtain rfl := pure_eq_ok_iff.mp whole
      simp [head, ih.mp tail_ok]
    · intro same
      cases ys with
      | nil => simp at same
      | cons y ys =>
        simp only [List.map_cons, List.cons.injEq] at same
        rw [same.1, ih.mpr same.2]
        rfl

/-- A traversal succeeds when every step does. -/
theorem exists_mapM_eq_ok {f : α → Except ε β} {xs : List α}
    (steps : ∀ x ∈ xs, ∃ y, f x = .ok y) : ∃ ys, xs.mapM f = .ok ys := by
  induction xs with
  | nil => exact ⟨[], rfl⟩
  | cons x xs ih =>
    obtain ⟨y, head⟩ := steps x List.mem_cons_self
    obtain ⟨ys, tail⟩ := ih fun x mem => steps x (List.mem_cons_of_mem _ mem)
    refine ⟨y :: ys, ?_⟩
    rw [List.mapM_cons, head, ok_bind, tail]
    rfl

/-- A traversal fails with an error exactly if this is the error of its first step that fails. -/
theorem mapM_eq_error_iff {f : α → Except ε β} {xs : List α} {e : ε} :
    xs.mapM f = .error e ↔ ∃ (k : Nat) (x : α), xs[k]? = some x ∧ f x = .error e ∧
      ∀ j < k, ∀ y, xs[j]? = some y → ∃ b, f y = .ok b := by
  induction xs with
  | nil => simp [pure, Except.pure]
  | cons x xs ih =>
    rw [List.mapM_cons, bind_eq_error_iff]
    constructor
    · rintro (head | ⟨b, head, rest⟩)
      · exact ⟨0, x, rfl, head, nofun⟩
      · rcases bind_eq_error_iff.mp rest with tail | ⟨bs, -, whole⟩
        · obtain ⟨k, y, at_k, fails, earlier⟩ := ih.mp tail
          refine ⟨k + 1, y, at_k, fails, fun j below z at_j => ?_⟩
          cases j with
          | zero => exact ⟨b, Option.some.inj at_j ▸ head⟩
          | succ j => exact earlier j (by omega) z at_j
        · cases whole
    · rintro ⟨k, y, at_k, fails, earlier⟩
      cases k with
      | zero => exact .inl (Option.some.inj at_k ▸ fails)
      | succ k =>
        obtain ⟨b, head⟩ := earlier 0 (by omega) x rfl
        refine .inr ⟨b, head, bind_eq_error_iff.mpr (.inl (ih.mpr ⟨k, y, at_k, fails, ?_⟩))⟩
        exact fun j below z at_j => earlier (j + 1) (by omega) z at_j

/-- A traversal that fails does so at the first step that fails, with its error. -/
theorem mapM_eq_error {f : α → Except ε β} {xs : List α} {e : ε} (failed : xs.mapM f = .error e) :
    ∃ before x after, xs = before ++ x :: after ∧ (∀ y ∈ before, ∃ b, f y = .ok b) ∧
      f x = .error e := by
  obtain ⟨k, x, at_k, fails, earlier⟩ := mapM_eq_error_iff.mp failed
  obtain ⟨inside, is_x⟩ := List.getElem?_eq_some_iff.mp at_k
  refine ⟨xs.take k, x, xs.drop (k + 1), ?_, fun y mem => ?_, fails⟩
  · rw [← is_x, ← List.drop_eq_getElem_cons inside, List.take_append_drop]
  · obtain ⟨j, at_j⟩ := List.mem_iff_getElem?.mp mem
    rw [List.getElem?_take] at at_j
    split at at_j
    · next below => exact earlier j below y at_j
    · cases at_j

/-- A fold keeps what each of its steps keeps. -/
theorem foldlM_preserves {P : β → Prop} {step : β → α → Except ε β} {xs : List α} {b b' : β}
    (keeps : ∀ b a b', step b a = .ok b' → P b → P b') (folded : xs.foldlM step b = .ok b')
    (start : P b) : P b' := by
  induction xs generalizing b with
  | nil =>
    obtain rfl := pure_eq_ok_iff.mp folded
    exact start
  | cons x xs ih =>
    rw [List.foldlM_cons] at folded
    obtain ⟨c, first, rest⟩ := bind_eq_ok_iff.mp folded
    exact ih rest (keeps b x c first start)

/-- What a traversal yields, one of its steps yields. -/
theorem exists_of_mem_mapM {f : α → Except ε β} {xs : List α} {ys : List β}
    (traversed : xs.mapM f = .ok ys) {y : β} (mem : y ∈ ys) : ∃ x ∈ xs, f x = .ok y := by
  apply List.mem_map.mp
  rw [mapM_eq_ok_iff.mp traversed]
  exact List.mem_map_of_mem mem

/-- Every step of a traversal that succeeds has succeeded. -/
theorem exists_of_mapM_eq_ok {f : α → Except ε β} {xs : List α} {ys : List β}
    (traversed : xs.mapM f = .ok ys) {x : α} (mem : x ∈ xs) : ∃ y, f x = .ok y := by
  have step : f x ∈ ys.map .ok := mapM_eq_ok_iff.mp traversed ▸ List.mem_map_of_mem mem
  obtain ⟨y, -, is_y⟩ := List.mem_map.mp step
  exact ⟨y, is_y.symm⟩

/-- A traversal whose steps can only yield `g` yields `g` of the whole list. -/
theorem eq_map_of_mapM_eq_ok {f : α → Except ε β} {g : α → β} {xs : List α} {ys : List β}
    (traversed : xs.mapM f = .ok ys) (only : ∀ x ∈ xs, ∀ y, f x = .ok y → y = g x) :
    ys = xs.map g := by
  have same := mapM_eq_ok_iff.mp traversed
  induction xs generalizing ys with
  | nil => simpa using same.symm
  | cons x xs ih =>
    cases ys with
    | nil => simp at same
    | cons y ys =>
      simp only [List.map_cons, List.cons.injEq] at same ⊢
      exact ⟨only x (by simp) y same.1,
        ih (mapM_eq_ok_iff.mpr same.2) (fun x mem => only x (by simp [mem])) same.2⟩

/-- A traversal of a selection with other steps, if these yield what the steps of the whole do,
up to `g`, and the selection can be made among the results. -/
theorem mapM_filter_eq_ok {γ : Type} {f : α → Except ε β} {f' : α → Except ε γ} {g : β → γ}
    {p : α → Bool} {q : β → Bool} {xs : List α} {ys : List β} (traversed : xs.mapM f = .ok ys)
    (steps : ∀ x ∈ xs, ∀ y, f x = .ok y → f' x = .ok (g y) ∧ q y = p x) :
    (xs.filter p).mapM f' = .ok ((ys.filter q).map g) := by
  rw [mapM_eq_ok_iff] at traversed ⊢
  induction xs generalizing ys with
  | nil =>
    obtain rfl : ys = [] := by simpa using traversed.symm
    rfl
  | cons x xs ih =>
    cases ys with
    | nil => simp at traversed
    | cons y ys =>
      simp only [List.map_cons, List.cons.injEq] at traversed
      rw [List.forall_mem_cons] at steps
      obtain ⟨yields, same⟩ := steps.1 y traversed.1
      have rest := ih traversed.2 steps.2
      rw [List.filter_cons, List.filter_cons, same]
      cases p x with
      | true => simp [yields, rest]
      | false => simpa using rest

/-- A traversal with other steps, if these yield what the first ones do, up to `g`. -/
theorem mapM_map_eq_ok {γ : Type} {f : α → Except ε β} {f' : α → Except ε γ} {g : β → γ}
    {xs : List α} {ys : List β} (traversed : xs.mapM f = .ok ys)
    (steps : ∀ x ∈ xs, ∀ y, f x = .ok y → f' x = .ok (g y)) : xs.mapM f' = .ok (ys.map g) := by
  have all := mapM_filter_eq_ok (p := fun _ => true) (q := fun _ => true) traversed
    fun x mem y yields => ⟨steps x mem y yields, rfl⟩
  rwa [List.filter_eq_self.mpr fun _ _ => rfl, List.filter_eq_self.mpr fun _ _ => rfl] at all

/-! ### Errors that can occur -/

/-- The computation succeeds or ends with an error that has the property. -/
def FailsWithin (P : ε → Prop) (x : Except ε α) : Prop := ∀ e, x = .error e → P e

namespace FailsWithin

variable {P : ε → Prop}

theorem pure (a : α) : (Pure.pure a : Except ε α).FailsWithin P := nofun

theorem throw {e : ε} (holds : P e) : (MonadExcept.throw e : Except ε α).FailsWithin P := by
  rintro _ ⟨⟩
  exact holds

theorem bind {x : Except ε α} {k : α → Except ε β} (first : x.FailsWithin P)
    (rest : ∀ a, (k a).FailsWithin P) : (x >>= k).FailsWithin P := by
  intro e failed
  rcases bind_eq_error_iff.mp failed with failed | ⟨a, -, failed⟩
  · exact first e failed
  · exact rest a e failed

theorem mapM {f : α → Except ε β} (steps : ∀ x, (f x).FailsWithin P) (xs : List α) :
    (xs.mapM f).FailsWithin P := by
  intro e failed
  obtain ⟨-, x, -, -, -, fails⟩ := mapM_eq_error failed
  exact steps x e fails

theorem mapError {f : ε' → ε} (x : Except ε' α) (holds : ∀ e, P (f e)) :
    (x.mapError f).FailsWithin P := by
  intro e failed
  cases x with
  | ok a => cases failed
  | error e' =>
    cases failed
    exact holds e'

end FailsWithin

/-! ### The error that occurs -/

/-- The computation ends with the error given, and succeeds if there is none. -/
def Reports (x : Except ε α) (fault? : Option ε) : Prop := ∀ e, x = .error e ↔ fault? = some e

namespace Reports

theorem pure (a : α) : (Pure.pure a : Except ε α).Reports none := fun _ => ⟨nofun, nofun⟩

theorem throw (e : ε) : (MonadExcept.throw e : Except ε α).Reports (some e) := by
  intro e'
  show (Except.error e : Except ε α) = .error e' ↔ some e = some e'
  simp

/-- A sequence reports what its first part reports, and otherwise what the rest does. -/
theorem bind {x : Except ε α} {k : α → Except ε β} {first rest : Option ε}
    (head : x.Reports first) (tail : ∀ a, x = .ok a → (k a).Reports rest) :
    (x >>= k).Reports (first.or rest) := by
  intro e
  rw [bind_eq_error_iff, head e, Option.or_eq_some_iff]
  refine or_congr_right ?_
  cases x with
  | error e' =>
    have fails := (head e').mp rfl
    simp [fails]
  | ok a =>
    have none_first : first = none := by
      cases first with
      | none => rfl
      | some e' => cases (head e').mpr rfl
    simp [none_first, tail a rfl e]

end Reports

end Except
