import ParamStream.Assoc

/-!
# Reading back what was inserted

Facts about a run of insertions into an association list: which keys it has afterwards, and what
each of them reads.  With distinct new keys the insertions amount to appending the entries.  Keys
may be renamed before or after an insertion, as long as they remain apart.
-/

namespace ParamStream

namespace Assoc

variable {κ α : Type} [DecidableEq κ]

/-- An entry read back was inserted or was there before. -/
theorem get?_insertAll_eq_some {m : Assoc κ α} {entries : List (κ × α)} {k : κ} {a : α}
    (found : (m.insertAll entries).get? k = some a) :
    (k, a) ∈ entries ∨ m.get? k = some a := by
  induction entries generalizing m with
  | nil => exact .inr found
  | cons e entries ih =>
    rcases ih found with mem | found
    · exact .inl (List.mem_cons_of_mem _ mem)
    · rw [get?_insert] at found
      split at found
      · next same =>
        obtain rfl := Option.some.inj found
        exact .inl (by simp [← same])
      · exact .inr found

/-- Keys that are not inserted read as before. -/
theorem get?_insertAll_of_notMem {m : Assoc κ α} {entries : List (κ × α)} {k : κ}
    (absent : k ∉ entries.map Prod.fst) : (m.insertAll entries).get? k = m.get? k := by
  induction entries generalizing m with
  | nil => rfl
  | cons e entries ih =>
    simp only [List.map_cons, List.mem_cons, not_or] at absent
    rw [insertAll_cons, ih absent.2, get?_insert_of_ne _ (Ne.symm absent.1)]

/-- Every inserted key reads something. -/
theorem exists_get?_insertAll {m : Assoc κ α} {entries : List (κ × α)} {k : κ}
    (mem : k ∈ entries.map Prod.fst) : ∃ a, (m.insertAll entries).get? k = some a := by
  induction entries generalizing m with
  | nil => simp at mem
  | cons e entries ih =>
    by_cases later : k ∈ entries.map Prod.fst
    · exact ih later
    · obtain rfl : k = e.1 := by simpa [later] using mem
      exact ⟨e.2, by rw [insertAll_cons, get?_insertAll_of_notMem later, get?_insert_self]⟩

/-- A key that reads something still does after insertions. -/
theorem exists_get?_insertAll_of_get? {m : Assoc κ α} (entries : List (κ × α)) {k : κ} {a : α}
    (found : m.get? k = some a) : ∃ b, (m.insertAll entries).get? k = some b := by
  by_cases inserted : k ∈ entries.map Prod.fst
  · exact exists_get?_insertAll inserted
  · exact ⟨a, by rw [get?_insertAll_of_notMem inserted, found]⟩

/-- Without repeated keys, every entry inserted is read back. -/
theorem get?_insertAll_of_mem {m : Assoc κ α} {entries : List (κ × α)} {k : κ} {a : α}
    (distinct : (entries.map Prod.fst).Nodup) (mem : (k, a) ∈ entries) :
    (m.insertAll entries).get? k = some a := by
  induction entries generalizing m with
  | nil => simp at mem
  | cons e entries ih =>
    rw [List.map_cons, List.nodup_cons] at distinct
    rcases List.mem_cons.mp mem with rfl | mem
    · rw [insertAll_cons, get?_insertAll_of_notMem distinct.1, get?_insert_self]
    · exact ih distinct.2 mem

/-- Inserting one value at several keys. -/
theorem get?_insertAll_const (m : Assoc κ α) (keys : List κ) (a : α) (k : κ) :
    (m.insertAll (keys.map fun key => (key, a))).get? k =
      if k ∈ keys then some a else m.get? k := by
  induction keys generalizing m with
  | nil => simp
  | cons key keys ih =>
    rw [List.map_cons, insertAll_cons, ih, get?_insert]
    by_cases later : k ∈ keys
    · simp [later]
    · by_cases same : key = k
      · simp [same]
      · simp [later, same, Ne.symm same]

/-- Insertions of corresponding entries keep two maps in correspondence. -/
theorem get?_insertAll_map {β : Type} {m : Assoc κ α} {m' : Assoc κ β} {f : α → β}
    (same : ∀ k, m'.get? k = (m.get? k).map f) (entries : List (κ × α)) (k : κ) :
    (m'.insertAll (entries.map (Prod.map id f))).get? k = ((m.insertAll entries).get? k).map f := by
  induction entries generalizing m m' with
  | nil => exact same k
  | cons e entries ih =>
    rw [List.map_cons, insertAll_cons, insertAll_cons]
    refine ih fun k => ?_
    rw [get?_insert, get?_insert, same, apply_ite (Option.map f)]
    rfl

/-- Insertions repeat no key. -/
theorem nodup_keys_insertAll {m : Assoc κ α} (entries : List (κ × α)) (distinct : m.keys.Nodup) :
    (m.insertAll entries).keys.Nodup := by
  induction entries generalizing m with
  | nil => exact distinct
  | cons e entries ih =>
    refine ih ?_
    rw [keys_insert]
    split
    · exact distinct
    · next absent =>
      rw [List.nodup_append]
      refine ⟨distinct, by simp, fun k mem k' mem' same => absent ?_⟩
      rw [List.mem_singleton] at mem'
      exact mem' ▸ same ▸ mem

/-- Without repeated keys, the entries are what is read back. -/
theorem mem_iff_get? {m : Assoc κ α} (distinct : m.keys.Nodup) {k : κ} {a : α} :
    (k, a) ∈ m ↔ m.get? k = some a := by
  induction m with
  | nil => simp
  | cons e m ih =>
    obtain ⟨key, b⟩ := e
    rw [keys, List.map_cons, List.nodup_cons] at distinct
    by_cases same : key = k
    · have absent : (k, a) ∉ m := by
        intro mem
        exact distinct.1 (List.mem_map.mpr ⟨(k, a), mem, same.symm⟩)
      simp [get?, same, absent, eq_comm]
    · simp [get?, same, Ne.symm same, ih distinct.2]

theorem insertAll_append (m : Assoc κ α) (entries more : List (κ × α)) :
    m.insertAll (entries ++ more) = (m.insertAll entries).insertAll more := by
  simp [insertAll]

/-- An insertion leaves the entries of other keys where they are. -/
theorem getElem?_insert_of_ne {m : Assoc κ α} {k k' : κ} {j : Nat} {b : α}
    (at_j : m[j]? = some (k', b)) (differ : k' ≠ k) (a : α) :
    (m.insert k a)[j]? = some (k', b) := by
  induction m generalizing j with
  | nil => simp at at_j
  | cons e m ih =>
    obtain ⟨key, c⟩ := e
    cases j with
    | zero =>
      obtain ⟨rfl, rfl⟩ := Prod.mk.inj (Option.some.inj at_j)
      simp [insert, differ]
    | succ j =>
      by_cases same : key = k
      · simpa [insert, same] using at_j
      · simpa [insert, same] using ih at_j

/-! ### Other keys and values -/

section Map

variable {κ' β : Type} [DecidableEq κ']

/-- Inserting goes along with renaming keys, if no other key gets the name of the one inserted. -/
theorem insert_map_keys {rename : κ → κ'} {m : Assoc κ α} {k : κ}
    (apart : ∀ k' ∈ m.keys, rename k' = rename k → k' = k) (a : α) :
    (m.insert k a).map (Prod.map rename id) =
      Assoc.insert (m.map (Prod.map rename id)) (rename k) a := by
  induction m with
  | nil => rfl
  | cons e m ih =>
    obtain ⟨key, b⟩ := e
    rw [keys, List.map_cons, List.forall_mem_cons] at apart
    by_cases same : key = k
    · simp [insert, same]
    · have renamed_apart : rename key ≠ rename k := mt apart.1 same
      simp [insert, same, renamed_apart, ih apart.2]

theorem get?_map_keys {rename : κ → κ'} {m : Assoc κ α} {k : κ}
    (apart : ∀ k' ∈ m.keys, rename k' = rename k → k' = k) :
    Assoc.get? (m.map (Prod.map rename id)) (rename k) = m.get? k := by
  induction m with
  | nil => rfl
  | cons e m ih =>
    obtain ⟨key, b⟩ := e
    rw [keys, List.map_cons, List.forall_mem_cons] at apart
    by_cases same : key = k
    · simp [get?, same]
    · have renamed_apart : rename key ≠ rename k := mt apart.1 same
      simp [get?, same, renamed_apart, ih apart.2]

/-- Values that are changed, each as its key says. -/
theorem get?_map_values (m : Assoc κ α) (f : κ → α → β) (k : κ) :
    Assoc.get? (m.map fun e => (e.1, f e.1 e.2)) k = (m.get? k).map (f k) := by
  induction m with
  | nil => rfl
  | cons e m ih =>
    obtain ⟨key, a⟩ := e
    by_cases same : key = k
    · simp [get?, same]
    · simp [get?, same, ih]

end Map

end Assoc

end ParamStream
