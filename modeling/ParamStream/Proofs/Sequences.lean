import Mathlib.Data.Finset.Card

/-!
# Places in lists

Programs are lists of blocks of bindings, and lowering concatenates the code of one binding after
the other.  The facts below locate an entry: in the part of a concatenation that it comes from, or
at its last occurrence.
-/

namespace List

variable {α β : Type}

/-- An entry of a concatenation of parts lies in one of the parts: what is before it are the parts
before and the beginning of its own, and what is after it the rest. -/
theorem exists_part_of_flatMap_eq {xs : List α} {f : α → List β} {before after : List β} {b : β}
    (split : xs.flatMap f = before ++ b :: after) :
    ∃ earlier x later front back, xs = earlier ++ x :: later ∧ f x = front ++ b :: back ∧
      before = earlier.flatMap f ++ front ∧ after = back ++ later.flatMap f := by
  induction xs generalizing before with
  | nil => simp at split
  | cons x xs ih =>
    rw [flatMap_cons, append_eq_append_iff] at split
    rcases split with ⟨more, before_eq, rest⟩ | ⟨more, head_eq, rest⟩
    · obtain ⟨earlier, y, later, front, back, rfl, part, rfl, rfl⟩ := ih rest
      exact ⟨x :: earlier, y, later, front, back, rfl, part, by simp [before_eq], rfl⟩
    · cases more with
      | nil =>
        -- The first part ends right before the entry, which then opens the rest.
        simp only [nil_append] at rest
        obtain ⟨earlier, y, later, front, back, rfl, part, empty, rfl⟩ := @ih [] rest.symm
        refine ⟨x :: earlier, y, later, front, back, rfl, part, ?_, rfl⟩
        simp only [append_nil] at head_eq
        rw [flatMap_cons, append_assoc, ← empty, append_nil, head_eq]
      | cons entry more =>
        obtain ⟨rfl, rfl⟩ := cons.inj rest
        exact ⟨[], x, xs, before, more, rfl, head_eq, by simp, rfl⟩

/-- If some entry has a property, there is a last one that has it. -/
theorem exists_last {p : α → Prop} {xs : List α} (some_mem : ∃ x ∈ xs, p x) :
    ∃ before x after, xs = before ++ x :: after ∧ p x ∧ ∀ y ∈ after, ¬ p y := by
  induction xs with
  | nil => simp at some_mem
  | cons x xs ih =>
    by_cases later : ∃ y ∈ xs, p y
    · obtain ⟨before, y, after, rfl, holds, none_after⟩ := ih later
      exact ⟨x :: before, y, after, rfl, holds, none_after⟩
    · have holds : p x := by
        obtain ⟨y, mem, holds⟩ := some_mem
        rcases mem_cons.mp mem with rfl | mem
        · exact holds
        · exact absurd ⟨y, mem, holds⟩ later
      exact ⟨[], x, xs, rfl, holds, fun y mem holds => later ⟨y, mem, holds⟩⟩

/-- An entry of a concatenation that is not in its first part lies in the second. -/
theorem exists_of_append_eq_append_cons {xs ys front back : List α} {b : α}
    (split : xs ++ ys = front ++ b :: back) (absent : b ∉ xs) :
    ∃ between, front = xs ++ between ∧ ys = between ++ b :: back := by
  rcases append_eq_append_iff.mp split with ⟨between, front_eq, ys_eq⟩ | ⟨more, xs_eq, rest⟩
  · exact ⟨between, front_eq, ys_eq⟩
  · cases more with
    | nil => exact ⟨[], by simpa using xs_eq.symm, rest.symm⟩
    | cons c more =>
      obtain ⟨rfl, -⟩ := cons.inj rest
      exact absurd (by simp [xs_eq]) absent

/-- A relation holds throughout a list if each entry stands in it to all that follow. -/
theorem pairwise_of_forall_split {r : α → α → Prop} {xs : List α}
    (related : ∀ before x after, xs = before ++ x :: after → ∀ y ∈ after, r x y) :
    xs.Pairwise r := by
  induction xs with
  | nil => simp
  | cons x xs ih =>
    rw [pairwise_cons]
    refine ⟨related [] x xs rfl, ih fun before y after split => ?_⟩
    exact related (x :: before) y after (by rw [split]; rfl)

/-- A part whose entries all satisfy `p` ends where the first entry does not. -/
theorem append_inj_of_forall {p : α → Prop} {xs ys rest rest' : List α} (all : ∀ x ∈ xs, p x)
    (all' : ∀ y ∈ ys, p y) (ends : ∀ x ∈ rest.head?, ¬ p x) (ends' : ∀ x ∈ rest'.head?, ¬ p x)
    (same : xs ++ rest = ys ++ rest') : xs = ys ∧ rest = rest' := by
  induction xs generalizing ys with
  | nil =>
    cases ys with
    | nil => exact ⟨rfl, same⟩
    | cons y ys =>
      obtain rfl : rest = y :: (ys ++ rest') := same
      exact absurd (all' y mem_cons_self) (ends y rfl)
  | cons x xs ih =>
    cases ys with
    | nil =>
      obtain rfl : rest' = x :: (xs ++ rest) := same.symm
      exact absurd (all x mem_cons_self) (ends' x rfl)
    | cons y ys =>
      obtain ⟨rfl, same_rest⟩ := cons.inj same
      rw [forall_mem_cons] at all all'
      obtain ⟨rfl, rest_eq⟩ := ih all.2 all'.2 same_rest
      exact ⟨rfl, rest_eq⟩

/-- Lists are equal if each has the entries of the other up to its own length. -/
theorem eq_of_getElem?_of_le {xs ys : List α}
    (left : ∀ k x, k ≤ ys.length → xs[k]? = some x → ys[k]? = some x)
    (right : ∀ k x, k ≤ xs.length → ys[k]? = some x → xs[k]? = some x) : xs = ys := by
  -- The longer list would have an entry right behind the end of the shorter one.
  have no_longer : ∀ {xs ys : List α},
      (∀ k x, k ≤ ys.length → xs[k]? = some x → ys[k]? = some x) → xs.length ≤ ys.length := by
    intro xs ys agree
    refine Nat.le_of_not_lt fun longer => ?_
    have behind := agree ys.length _ (Nat.le_refl _) (getElem?_eq_getElem longer)
    simp at behind
  have length : xs.length = ys.length := Nat.le_antisymm (no_longer left) (no_longer right)
  refine ext_getElem? fun k => ?_
  by_cases inside : k < xs.length
  · have at_k := getElem?_eq_getElem inside
    rw [at_k, left k _ (by omega) at_k]
  · rw [getElem?_eq_none (by omega), getElem?_eq_none (by omega)]

/-- What no step of a fold changes is the same at its end. -/
theorem foldl_keeps {γ : Type} (get : β → γ) {step : β → α → β} (xs : List α) (b : β)
    (keeps : ∀ b a, get (step b a) = get b) : get (xs.foldl step b) = get b := by
  induction xs generalizing b with
  | nil => rfl
  | cons x xs ih => rw [foldl_cons, ih (step b x), keeps]

/-- A fold with other steps, if these do the same at the entries of the list. -/
theorem foldlM_congr_of_mem {m : Type → Type} [Monad m] {step step' : β → α → m β} {xs : List α}
    {b : β} (same : ∀ x ∈ xs, ∀ b, step b x = step' b x) :
    xs.foldlM step b = xs.foldlM step' b := by
  induction xs generalizing b with
  | nil => rfl
  | cons x xs ih =>
    rw [forall_mem_cons] at same
    rw [foldlM_cons, foldlM_cons, same.1]
    exact bind_congr fun b => ih same.2

/-- Removing repetitions leaves none. -/
theorem nodup_eraseDups [BEq α] [LawfulBEq α] (xs : List α) : xs.eraseDups.Nodup := by
  match xs with
  | [] => simp
  | x :: xs =>
    have shorter : (xs.filter fun y => !y == x).length < xs.length + 1 :=
      Nat.lt_succ_of_le (length_filter_le _ xs)
    rw [eraseDups_cons, nodup_cons]
    exact ⟨by simp, nodup_eraseDups _⟩
termination_by xs.length

/-- A list without repetitions is left as it is. -/
theorem Nodup.eraseDups_eq [BEq α] [LawfulBEq α] {xs : List α} (distinct : xs.Nodup) :
    xs.eraseDups = xs := by
  induction xs with
  | nil => rfl
  | cons x xs ih =>
    rw [nodup_cons] at distinct
    have others : (xs.filter fun y => !y == x) = xs := by
      rw [filter_eq_self]
      intro y mem
      simpa using fun same : y = x => distinct.1 (same ▸ mem)
    rw [eraseDups_cons, others, ih distinct.2]

/-- What remains without repetitions are the distinct elements. -/
theorem length_eraseDups [DecidableEq α] (xs : List α) :
    xs.eraseDups.length = xs.toFinset.card := by
  rw [← toFinset_card_of_nodup (nodup_eraseDups xs)]
  congr 1
  ext x
  simp

/-- An element counts where it first occurs: behind a list that has it already, it is dropped. -/
theorem eraseDups_append_cons [BEq α] [LawfulBEq α] (xs : List α) (x : α) (ys : List α) :
    (xs ++ x :: ys).eraseDups = ((if x ∈ xs then xs else xs ++ [x]) ++ ys).eraseDups := by
  split
  · next again => simp [eraseDups_append, removeAll, again]
  · rw [append_assoc, singleton_append]

/-- Whether repetitions are removed before or after a selection makes no difference. -/
theorem eraseDups_filter [BEq α] [LawfulBEq α] (p : α → Bool) (xs : List α) :
    (xs.filter p).eraseDups = xs.eraseDups.filter p := by
  match xs with
  | [] => simp
  | x :: xs =>
    have shorter : (xs.filter fun y => !y == x).length < xs.length + 1 :=
      Nat.lt_succ_of_le (length_filter_le _ xs)
    have rest := eraseDups_filter p (xs.filter fun y => !y == x)
    rw [filter_filter] at rest
    by_cases selected : p x = true
    · rw [filter_cons_of_pos selected, eraseDups_cons, eraseDups_cons,
        filter_cons_of_pos selected, ← rest, filter_filter]
      congr 3
      funext y
      rw [Bool.and_comm]
    · -- What is not selected leaves no repetition behind.
      rw [filter_cons_of_neg selected, eraseDups_cons, filter_cons_of_neg selected, ← rest]
      congr 1
      refine filter_congr fun y _ => ?_
      by_cases same : y = x
      · simp [same, selected]
      · simp [same]
termination_by xs.length

/-- Parts of at most one element, as a filter decides, make up a filtered list. -/
theorem flatMap_singleton_or_nil (p : α → Bool) (f : α → β) (xs : List α) :
    (xs.flatMap fun x => if p x then [f x] else []) = (xs.filter p).map f := by
  induction xs with
  | nil => rfl
  | cons x xs ih =>
    rw [flatMap_cons, ih, filter_cons]
    cases p x <;> rfl

end List
