/-!
# Association lists in insertion order

Attributes, operator tables, program items and the substitutions kept while a function is lowered
are all small finite maps whose order can be observed.  `Assoc κ α` is the list of their entries.

* `Assoc.get?` reads the first entry of a key;
* `Assoc.insert` overwrites that entry where it stands, or appends a new one.

Keys may repeat: an attribute list read from an archive is not required to be a map, and `get?`
then answers with the first entry.
-/

namespace ParamStream

/-- Entries of a finite map, in the order in which their keys were first inserted. -/
abbrev Assoc (κ α : Type) := List (κ × α)

namespace Assoc

variable {κ α : Type} [DecidableEq κ]

/-- The value of the first entry whose key is `k`. -/
def get? : Assoc κ α → κ → Option α
  | [], _ => none
  | (k', a) :: m, k => if k' = k then some a else get? m k

/-- Overwrite the first entry of `k` in place, or append one. -/
def insert : Assoc κ α → κ → α → Assoc κ α
  | [], k, a => [(k, a)]
  | (k', b) :: m, k, a => if k' = k then (k, a) :: m else (k', b) :: insert m k a

/-- Insert the pairs of a list from left to right. -/
def insertAll (m : Assoc κ α) (entries : List (κ × α)) : Assoc κ α :=
  entries.foldl (fun m e => m.insert e.1 e.2) m

/-- The keys, with repetitions, in order. -/
def keys (m : Assoc κ α) : List κ := m.map Prod.fst

@[simp] theorem get?_nil (k : κ) : get? ([] : Assoc κ α) k = none := rfl

@[simp] theorem insertAll_nil (m : Assoc κ α) : m.insertAll [] = m := rfl

@[simp] theorem insertAll_cons (m : Assoc κ α) (e : κ × α) (es : List (κ × α)) :
    m.insertAll (e :: es) = (m.insert e.1 e.2).insertAll es := rfl

/-- Reading after an insertion: the new value at its key, the old ones elsewhere. -/
theorem get?_insert (m : Assoc κ α) (k k' : κ) (a : α) :
    (m.insert k a).get? k' = if k = k' then some a else m.get? k' := by
  induction m with
  | nil => simp [insert, get?]
  | cons e m ih =>
    obtain ⟨key, b⟩ := e
    by_cases hk : key = k
    · subst hk
      by_cases hk' : key = k' <;> simp [insert, get?, hk']
    · by_cases hk' : key = k'
      · subst hk'
        simp [insert, get?, hk, Ne.symm hk]
      · simp [insert, get?, hk, hk', ih]

@[simp] theorem get?_insert_self (m : Assoc κ α) (k : κ) (a : α) :
    (m.insert k a).get? k = some a := by
  simp [get?_insert]

theorem get?_insert_of_ne (m : Assoc κ α) {k k' : κ} (h : k ≠ k') (a : α) :
    (m.insert k a).get? k' = m.get? k' := by
  simp [get?_insert, h]

/-- Inserting at a present key keeps the keys; at an absent one it appends the key. -/
theorem keys_insert (m : Assoc κ α) (k : κ) (a : α) :
    (m.insert k a).keys = if k ∈ m.keys then m.keys else m.keys ++ [k] := by
  induction m with
  | nil => rfl
  | cons e m ih =>
    obtain ⟨key, b⟩ := e
    by_cases hk : key = k
    · simp [insert, keys, hk]
    · simp only [keys] at ih
      by_cases hm : k ∈ m.map Prod.fst <;> simp [insert, keys, hk, Ne.symm hk, ih, hm]

theorem get?_eq_none_iff (m : Assoc κ α) (k : κ) : m.get? k = none ↔ k ∉ m.keys := by
  induction m with
  | nil => simp [keys]
  | cons e m ih =>
    obtain ⟨key, b⟩ := e
    by_cases hk : key = k
    · simp [get?, keys, hk]
    · simpa [get?, keys, hk, Ne.symm hk] using ih

end Assoc

end ParamStream
