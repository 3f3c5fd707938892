import ParamStream.Proofs.Assembly
import ParamStream.Proofs.Releases

/-!
# Attributes of a streaming form

Lowering hands the attributes of a function to the builder one after the other.  The builder keeps
one entry for each name, at its first place and with its last value.  Reading an attribute of a
function goes by the first entry instead.  For a list in which no name is repeated the two come to
the same, and the list is carried over as it is.  A list read from an archive may repeat names, and
a name that is repeated with another value reads differently after lowering.

## Main definitions

* `Assoc.EndsAgree` — the first and the last entry of a key have the same value.

## Main statements

* `Assoc.get?_insertAll` — after a run of insertions a key reads its last entry;
* `Func.attributes_by_last_entry`.
-/

namespace ParamStream

/-! ### First and last entries -/

namespace Assoc

variable {κ α : Type} [DecidableEq κ]

theorem get?_append (m m' : Assoc κ α) (k : κ) :
    get? (m ++ m') k = (m.get? k).or (m'.get? k) := by
  induction m with
  | nil => simp
  | cons e m ih =>
    obtain ⟨key, a⟩ := e
    by_cases same : key = k <;> simp [get?, same, ih]

/-- After a run of insertions a key reads its last entry, and what it read before if it has none. -/
theorem get?_insertAll (m : Assoc κ α) (entries : List (κ × α)) (k : κ) :
    (m.insertAll entries).get? k = (get? entries.reverse k).or (m.get? k) := by
  induction entries generalizing m with
  | nil => simp
  | cons e entries ih =>
    obtain ⟨key, a⟩ := e
    rw [insertAll_cons, ih, get?_insert, List.reverse_cons, get?_append, Option.or_assoc]
    by_cases same : key = k <;> simp [get?, same]

/-- What a key reads is the value of its first entry. -/
theorem get?_eq_some_iff {m : Assoc κ α} {k : κ} {a : α} :
    m.get? k = some a ↔ ∃ before after, m = before ++ (k, a) :: after ∧ k ∉ keys before := by
  induction m with
  | nil => simp
  | cons e m ih =>
    obtain ⟨key, b⟩ := e
    by_cases same : key = k
    · subst same
      simp only [get?, if_true, Option.some.injEq]
      constructor
      · rintro rfl
        exact ⟨[], m, rfl, by simp [keys]⟩
      · rintro ⟨before, after, split, absent⟩
        cases before with
        | nil => exact congrArg Prod.snd (List.cons.inj split).1
        | cons e' before =>
          obtain ⟨rfl, -⟩ := List.cons.inj split
          simp [keys] at absent
    · rw [get?, if_neg same, ih]
      constructor
      · rintro ⟨before, after, rfl, absent⟩
        exact ⟨(key, b) :: before, after, rfl, by simpa [keys, Ne.symm same] using absent⟩
      · rintro ⟨before, after, split, absent⟩
        cases before with
        | nil => exact absurd (congrArg Prod.fst (List.cons.inj split).1) same
        | cons e' before =>
          obtain ⟨rfl, rfl⟩ := List.cons.inj split
          exact ⟨before, after, rfl, fun mem => absent (List.mem_cons_of_mem _ mem)⟩

/-- Read backwards, a key reads the value of its last entry. -/
theorem get?_reverse_eq_some_iff {m : Assoc κ α} {k : κ} {a : α} :
    get? m.reverse k = some a ↔
      ∃ before after, m = before ++ (k, a) :: after ∧ k ∉ keys after := by
  rw [get?_eq_some_iff]
  constructor
  · rintro ⟨after, before, split, absent⟩
    refine ⟨before.reverse, after.reverse, ?_, by simpa [keys] using absent⟩
    rw [← List.reverse_reverse m, split]
    simp
  · rintro ⟨before, after, rfl, absent⟩
    exact ⟨after.reverse, before.reverse, by simp, by simpa [keys] using absent⟩

/-- Where a key has several entries, the first and the last of them have the same value. -/
def EndsAgree (m : Assoc κ α) : Prop :=
  ∀ before k a between b after, m = before ++ (k, a) :: between ++ (k, b) :: after →
    k ∉ keys before → k ∉ keys after → a = b

/-- Every key reads the same from both ends exactly if the ends agree. -/
theorem forall_get?_reverse_eq_iff {m : Assoc κ α} :
    (∀ k, get? m.reverse k = m.get? k) ↔ m.EndsAgree := by
  constructor
  · intro same before k a between b after split first last
    have reads_first : m.get? k = some a :=
      get?_eq_some_iff.mpr ⟨before, between ++ (k, b) :: after, by simp [split], first⟩
    have reads_last : get? m.reverse k = some b :=
      get?_reverse_eq_some_iff.mpr ⟨before ++ (k, a) :: between, after, split, last⟩
    exact Option.some.inj (reads_first.symm.trans ((same k).symm.trans reads_last))
  · intro agree k
    cases reads_last : get? m.reverse k with
    | none =>
      rw [get?_eq_none_iff] at reads_last
      exact ((get?_eq_none_iff m k).mpr (by simpa [keys] using reads_last)).symm
    | some b =>
      obtain ⟨front, after, split, last⟩ := get?_reverse_eq_some_iff.mp reads_last
      cases front_reads : get? front k with
      | none =>
        -- There is one entry only.
        rw [get?_eq_none_iff] at front_reads
        exact (get?_eq_some_iff.mpr ⟨front, after, split, front_reads⟩).symm
      | some a =>
        obtain ⟨before, between, rfl, first⟩ := get?_eq_some_iff.mp front_reads
        rw [← agree before k a between b after split first last]
        exact (get?_eq_some_iff.mpr ⟨before, between ++ (k, b) :: after, by simp [split],
          first⟩).symm

/-- A new key is appended. -/
theorem insert_eq_append {m : Assoc κ α} {k : κ} (absent : k ∉ m.keys) (a : α) :
    m.insert k a = m ++ [(k, a)] := by
  induction m with
  | nil => rfl
  | cons e m ih =>
    simp only [keys, List.map_cons, List.mem_cons, not_or] at absent
    rw [insert, if_neg (Ne.symm absent.1), ih absent.2]
    rfl

/-- New keys are appended in order. -/
theorem insertAll_eq_append {m : Assoc κ α} {entries : List (κ × α)}
    (distinct : (keys (m ++ entries)).Nodup) : m.insertAll entries = m ++ entries := by
  induction entries generalizing m with
  | nil => simp
  | cons e entries ih =>
    have absent : e.1 ∉ m.keys := by
      intro mem
      rw [keys, List.map_append, List.nodup_append] at distinct
      exact distinct.2.2 e.1 mem e.1 (by simp) rfl
    rw [insertAll_cons, insert_eq_append absent, ih (by simpa using distinct)]
    simp

end Assoc

/-! ### Attributes -/

theorem Builder.attrs_foldl_setAttr (attrs : Assoc Symbol AttrValue) (b : Builder) :
    (attrs.foldl (fun b (name, value) => b.setAttr name value) b).attrs =
      b.attrs.insertAll attrs := by
  induction attrs generalizing b with
  | nil => rfl
  | cons attr attrs ih => exact ih _

namespace Func

/-- The attributes of a streaming form are those of the function, inserted one by one. -/
theorem attrs_of_stream {f g : Func} {table names : SymbolTable} {intermediates : Bool}
    (streamed : f.stream table intermediates = (.ok g, names)) :
    g.attrs = Assoc.insertAll [] f.attrs := by
  obtain ⟨plan, has_plan, lowered, -⟩ := stream_eq_iff.mp streamed
  obtain ⟨gs, laid⟩ := Layout.exists_segments_of_lower lowered
  have assembled := assembled_of_lower (Planned.of_plan has_plan).follows laid lowered
  rw [assembled.attrs, Lowering.start, Builder.attrs_foldl_setAttr]
  rfl

/-- **The last entry of an attribute counts.**  An attribute of a streaming form has the value of
the last entry of its name in the function.  So all attributes read as before exactly if the first
and the last entry of each name agree, and the list of attributes is carried over unchanged exactly
if it repeats no name. -/
theorem attributes_by_last_entry {f g : Func} {table names : SymbolTable} {intermediates : Bool}
    (streamed : f.stream table intermediates = (.ok g, names)) :
    (∀ name, g.attr? name = Assoc.get? f.attrs.reverse name) ∧
      ((∀ name, g.attr? name = f.attr? name) ↔ Assoc.EndsAgree f.attrs) ∧
      (g.attrs = f.attrs ↔ (Assoc.keys f.attrs).Nodup) := by
  have attrs := attrs_of_stream streamed
  have last : ∀ name, g.attr? name = Assoc.get? f.attrs.reverse name := by
    intro name
    rw [attr?, attrs, Assoc.get?_insertAll, Assoc.get?_nil, Option.or_none]
  refine ⟨last, ?_, ?_⟩
  · simp only [last]
    exact Assoc.forall_get?_reverse_eq_iff
  · rw [attrs]
    constructor
    · intro same
      rw [← same]
      exact Assoc.nodup_keys_insertAll f.attrs List.nodup_nil
    · exact fun distinct => Assoc.insertAll_eq_append (by simpa using distinct)

end Func

/-- The difference of an input from itself, with attributes. -/
def Sample.attributed (attrs : Assoc Symbol AttrValue) : Func := { difference with attrs := attrs }

namespace Func

open Sample in
/-- Two attributes are given twice, one of them with another value in between.  They end as they
begin, so both read as before, from a list of one entry each. -/
theorem attributes_by_last_entry_repeated : ∃ f g names,
    f = attributed [(⟨1⟩, .int 1), (⟨2⟩, .bool true), (⟨1⟩, .int 2), (⟨1⟩, .int 1),
      (⟨2⟩, .bool true)] ∧
    f.stream tensorNames true = (.ok g, names) ∧ g.attrs = [(⟨1⟩, .int 1), (⟨2⟩, .bool true)] ∧
    g.attr? ⟨1⟩ = f.attr? ⟨1⟩ ∧ g.attr? ⟨2⟩ = f.attr? ⟨2⟩ ∧ g.attrs ≠ f.attrs := by
  have streamed : (attributed [(⟨1⟩, .int 1), (⟨2⟩, .bool true), (⟨1⟩, .int 2), (⟨1⟩, .int 1),
    (⟨2⟩, .bool true)]).stream tensorNames true = (.ok _, _) := rfl
  obtain ⟨last, -, unchanged⟩ := attributes_by_last_entry streamed
  exact ⟨_, _, _, rfl, streamed, rfl, last ⟨1⟩, last ⟨2⟩, fun same =>
    absurd (unchanged.mp same) (by decide)⟩

open Sample in
/-- An attribute given twice with two values: the function reads the first, its streaming form the
second. -/
theorem attribute_changes_when_repeated : ∃ f g names,
    f = attributed [(⟨1⟩, .int 1), (⟨1⟩, .int 2)] ∧
      f.stream tensorNames true = (.ok g, names) ∧
      f.attr? ⟨1⟩ = some (.int 1) ∧ g.attr? ⟨1⟩ = some (.int 2) :=
  ⟨_, _, _, rfl, rfl, rfl, rfl⟩

end Func

end ParamStream
