import ParamStream.Expr.Render
import ParamStream.Proofs.Sequences

/-!
# Words, lists and types in texts

Written forms are made of *words*, which go on until one of four delimiters, and of lists of items
in parentheses.  Whether a text can be read in one way only is asked with something following it:
a written form is told apart from others if, whenever two texts that begin with written forms are
equal, the forms are of the same thing and what follows them is equal as well.

A word is told apart from other words if a delimiter follows, or nothing.  A list is told apart if
its items are: after the first item comes `,` or `)`, and a closing parenthesis begins no item.
Types are told apart by their first characters, whatever follows.

## Main definitions

* `Text.IsWord`, `Text.Delimited` — words and what may follow them;
* `Text.IsName` — the names that cannot be taken for something else;
* `Text.Apart` — a value whose written form is told apart from others.

## Main statements

* `Text.IsWord.append_inj` — words end where they end;
* `Text.Items.commas_append_inj`, `Text.Items.tuple_append_inj` — lists and tuples of items;
* `Ty.apart` — types.
-/

namespace ParamStream

namespace Text

/-! ### Words -/

/-- The characters that end a word. -/
def delimiters : List Char := ['.', '(', ',', ')']

/-- The text is over, or a word before it is. -/
def Delimited (rest : List Char) : Prop := ∀ c ∈ rest.head?, c ∈ delimiters

/-- The text is over, or an item of a list before it is. -/
def Ended (rest : List Char) : Prop := ∀ c ∈ rest.head?, c = ',' ∨ c = ')'

theorem Ended.delimited {rest : List Char} (ended : Ended rest) : Delimited rest := by
  intro c first
  rcases ended c first with rfl | rfl <;> decide

/-- A text that is not empty and has no delimiter in it. -/
structure IsWord (w : String) : Prop where
  nonempty : w ≠ ""
  undelimited : ∀ c ∈ w.toList, c ∉ delimiters

namespace IsWord

variable {w w' : String} {rest rest' : List Char}

/-- Words end where they end. -/
theorem append_inj (word : IsWord w) (word' : IsWord w') (delimited : Delimited rest)
    (delimited' : Delimited rest') (same : w.toList ++ rest = w'.toList ++ rest') :
    w = w' ∧ rest = rest' := by
  obtain ⟨words, rests⟩ := List.append_inj_of_forall word.undelimited word'.undelimited
    (fun c first => not_not_intro (delimited c first))
    (fun c first => not_not_intro (delimited' c first)) same
  exact ⟨String.toList_inj.mp words, rests⟩

theorem exists_cons (word : IsWord w) : ∃ c cs, w.toList = c :: cs ∧ c ∉ delimiters := by
  cases chars : w.toList with
  | nil => exact absurd (String.toList_eq_nil_iff.mp chars) word.nonempty
  | cons c cs => exact ⟨c, cs, rfl, word.undelimited c (by simp [chars])⟩

/-- No word begins with a parenthesis. -/
theorem append_ne_paren (word : IsWord w) : w.toList ++ rest ≠ '(' :: rest' := by
  obtain ⟨c, cs, chars, undelimited⟩ := word.exists_cons
  rw [chars]
  intro same
  obtain rfl := (List.cons.inj same).1
  exact undelimited (by decide)

theorem append (word : IsWord w) (word' : IsWord w') : IsWord (w ++ w') where
  nonempty := by simp [word.nonempty]
  undelimited := by
    rw [String.toList_append, List.forall_mem_append]
    exact ⟨word.undelimited, word'.undelimited⟩

end IsWord

/-! ### Numbers and names -/

theorem notMem_delimiters_of_isDigit {c : Char} (digit : c.isDigit) : c ∉ delimiters := by
  intro mem
  simp only [delimiters, List.mem_cons, List.not_mem_nil, or_false] at mem
  rcases mem with rfl | rfl | rfl | rfl <;> simp at digit

theorem isDigit_of_mem_toString {n : Nat} {c : Char} (mem : c ∈ (toString n).toList) :
    c.isDigit := by
  rw [Nat.toString_eq_ofList_toDigits, String.toList_ofList] at mem
  exact Nat.isDigit_of_mem_toDigits (by decide) (by decide) mem

theorem isWord_nat (n : Nat) : IsWord (toString n) where
  nonempty := by
    rw [Nat.toString_eq_repr]
    exact Nat.repr_ne_empty
  undelimited c mem := notMem_delimiters_of_isDigit (isDigit_of_mem_toString mem)

/-- A number can be read back from its digits. -/
theorem toString_nat_inj {i j : Nat} (same : toString i = toString j) : i = j := by
  have digits : Nat.toDigits 10 i = Nat.toDigits 10 j := by
    simpa [Nat.toString_eq_ofList_toDigits] using congrArg String.toList same
  simpa [Nat.ofDigitChars_ten_toDigits] using congrArg (Nat.ofDigitChars 10 · 0) digits

/-- The characters other than digits that a name may be made of.  Everything beyond ASCII counts as
a letter. -/
def isLetter (c : Char) : Bool := c.isAlpha || c == '_' || 128 ≤ c.toNat

/-- A letter or underscore, then letters, digits and underscores. -/
def isIdentifier (s : String) : Bool :=
  match s.toList with
  | [] => false
  | c :: cs => isLetter c && cs.all fun c => isLetter c || c.isDigit

/-- An identifier that is not one of the two boolean constants. -/
structure IsName (s : String) : Prop where
  identifier : isIdentifier s
  ne_true : s ≠ "true"
  ne_false : s ≠ "false"

instance (s : String) : Decidable (IsName s) :=
  decidable_of_iff (isIdentifier s ∧ s ≠ "true" ∧ s ≠ "false")
    ⟨fun ⟨identifier, ne_true, ne_false⟩ => ⟨identifier, ne_true, ne_false⟩,
      fun ⟨identifier, ne_true, ne_false⟩ => ⟨identifier, ne_true, ne_false⟩⟩

/-- A sign is the only character of an integer that is no digit. -/
theorem isDigit_or_eq_of_mem_toString {n : Int} {c : Char} (mem : c ∈ (toString n).toList) :
    c.isDigit ∨ c = '-' := by
  rw [Int.toString_eq_repr, Int.repr_eq_if, ← Nat.toString_eq_repr, ← Nat.toString_eq_repr] at mem
  split at mem
  · exact .inl (isDigit_of_mem_toString mem)
  · rw [String.toList_append, List.mem_append] at mem
    exact mem.symm.imp isDigit_of_mem_toString (by simp)

/-- An integer can be read back from its sign and its digits. -/
theorem toString_int_inj {n n' : Int} (same : toString n = toString n') : n = n' := by
  have unsigned (i j : Nat) : toString i ≠ "-" ++ toString j := by
    intro same
    have sign : '-' ∈ (toString i).toList := by simp [same]
    exact absurd (isDigit_of_mem_toString sign) (by decide)
  simp only [Int.toString_eq_repr, Int.repr_eq_if, ← Nat.toString_eq_repr] at same
  by_cases positive : 0 ≤ n <;> by_cases positive' : 0 ≤ n'
  · rw [if_pos positive, if_pos positive'] at same
    have magnitudes := toString_nat_inj same
    omega
  · rw [if_pos positive, if_neg positive'] at same
    exact absurd same (unsigned _ _)
  · rw [if_neg positive, if_pos positive'] at same
    exact absurd same.symm (unsigned _ _)
  · rw [if_neg positive, if_neg positive', String.append_right_inj] at same
    have magnitudes := toString_nat_inj same
    omega

theorem isWord_int (n : Int) : IsWord (toString n) := by
  rw [Int.toString_eq_repr, Int.repr_eq_if, ← Nat.toString_eq_repr, ← Nat.toString_eq_repr]
  split
  · exact isWord_nat _
  · exact IsWord.append ⟨by simp, by simp [delimiters]⟩ (isWord_nat _)

theorem notMem_delimiters_of_isLetter {c : Char} (letter : isLetter c) : c ∉ delimiters := by
  intro mem
  simp only [delimiters, List.mem_cons, List.not_mem_nil, or_false] at mem
  rcases mem with rfl | rfl | rfl | rfl <;> simp [isLetter] at letter

/-- Letters come after the digits. -/
theorem le_toNat_of_isLetter {c : Char} (letter : isLetter c) : 'A'.toNat ≤ c.toNat := by
  rw [isLetter, Bool.or_eq_true, Bool.or_eq_true] at letter
  rcases letter with (alpha | underscore) | beyond
  · rcases Bool.or_eq_true_iff.mp alpha with upper | lower
    · exact (of_decide_eq_true upper).1
    · have after_a : 'a'.toNat ≤ c.toNat := of_decide_eq_true (Bool.and_eq_true_iff.mp lower).1
      exact Nat.le_trans (by decide) after_a
  · obtain rfl := eq_of_beq underscore
    decide
  · exact Nat.le_trans (by decide) (of_decide_eq_true beyond)

theorem not_isDigit_of_isLetter {c : Char} (letter : isLetter c) : ¬ c.isDigit := by
  intro digit
  have early : c.toNat ≤ '9'.toNat := (Char.isDigit_iff_toNat.mp digit).2
  exact absurd (Nat.le_trans (le_toNat_of_isLetter letter) early) (by decide)

theorem exists_cons_of_isIdentifier {s : String} (identifier : isIdentifier s) :
    ∃ c cs, s.toList = c :: cs ∧ isLetter c ∧ ∀ d ∈ cs, isLetter d ∨ d.isDigit := by
  unfold isIdentifier at identifier
  cases chars : s.toList with
  | nil => simp [chars] at identifier
  | cons c cs => simpa [chars] using identifier

theorem isWord_of_isIdentifier {s : String} (identifier : isIdentifier s) : IsWord s := by
  obtain ⟨c, cs, chars, first, others⟩ := exists_cons_of_isIdentifier identifier
  refine ⟨by rintro rfl; simp at chars, ?_⟩
  rw [chars, List.forall_mem_cons]
  refine ⟨notMem_delimiters_of_isLetter first, fun d mem => ?_⟩
  exact (others d mem).elim notMem_delimiters_of_isLetter notMem_delimiters_of_isDigit

/-! ### Lists of items -/

theorem exists_tuple (fields : List String) : ∃ cs, (tuple fields).toList = '(' :: cs := by
  match fields with
  | [] => exact ⟨[')'], rfl⟩
  | [item] => exact ⟨item.toList ++ [',', ')'], by simp [tuple]⟩
  | item :: next :: rest => exact ⟨(commas (item :: next :: rest)).toList ++ [')'], by simp [tuple]⟩

section Items

variable {α : Type} {write : α → String} {ok : α → Prop} {stop : List Char → Prop}

/-- The written form of `x` is told apart from those of the values that are `ok`, where each may be
followed by any text that satisfies `stop`. -/
def Apart (ok : α → Prop) (stop : List Char → Prop) (write : α → String) (x : α) : Prop :=
  ∀ y, ok y → ∀ rest rest', stop rest → stop rest' →
    (write x).toList ++ rest = (write y).toList ++ rest' → x = y ∧ rest = rest'

/-- Values whose written forms can be items of lists: they do not begin with the parenthesis that
closes a list, and what follows an item stops it. -/
structure Items (ok : α → Prop) (stop : List Char → Prop) (write : α → String) : Prop where
  starts : ∀ x, ok x → ∃ c cs, (write x).toList = c :: cs ∧ c ≠ ')'
  comma : ∀ rest, stop (',' :: rest)
  paren : ∀ rest, stop (')' :: rest)

namespace Items

variable (items : Items ok stop write) {xs ys : List α} {rest rest' : List Char}

/-- The text of a list after its first item. -/
def tail (write : α → String) : List α → List Char → List Char
  | [], rest => ')' :: rest
  | xs, rest => ',' :: ' ' :: ((commas (xs.map write)).toList ++ ')' :: rest)

theorem commas_cons (x : α) (xs : List α) (rest : List Char) :
    (commas ((x :: xs).map write)).toList ++ ')' :: rest =
      (write x).toList ++ tail write xs rest := by
  cases xs with
  | nil => simp [tail]
  | cons y ys => simp [tail, Text.commas_cons_cons]

include items in
theorem stop_tail (xs : List α) (rest : List Char) : stop (tail write xs rest) := by
  cases xs with
  | nil => exact items.paren rest
  | cons x xs => exact items.comma _

include items in
theorem ne_paren {x : α} (is_ok : ok x) : (write x).toList ++ rest ≠ ')' :: rest' := by
  obtain ⟨c, cs, chars, not_paren⟩ := items.starts x is_ok
  rw [chars]
  exact fun same => not_paren (List.cons.inj same).1

/-- What holds of lists holds of their texts after a first item. -/
theorem tail_inj
    (lists : (commas (xs.map write)).toList ++ ')' :: rest =
      (commas (ys.map write)).toList ++ ')' :: rest' → xs = ys ∧ rest = rest')
    (same : tail write xs rest = tail write ys rest') : xs = ys ∧ rest = rest' := by
  cases xs with
  | nil =>
    cases ys with
    | nil => simpa [tail] using same
    | cons y ys => simp [tail] at same
  | cons x xs =>
    cases ys with
    | nil => simp [tail] at same
    | cons y ys =>
      simp only [tail, List.cons.injEq, true_and] at same
      exact lists same

include items in
/-- Lists of items that are told apart are told apart. -/
theorem commas_append_inj (apart : ∀ x ∈ xs, Apart ok stop write x) (oks : ∀ x ∈ xs, ok x)
    (oks' : ∀ y ∈ ys, ok y)
    (same : (commas (xs.map write)).toList ++ ')' :: rest =
      (commas (ys.map write)).toList ++ ')' :: rest') : xs = ys ∧ rest = rest' := by
  induction xs generalizing ys with
  | nil =>
    cases ys with
    | nil => simpa using same
    | cons y ys =>
      rw [commas_cons] at same
      exact absurd same.symm (items.ne_paren (oks' y List.mem_cons_self))
  | cons x xs ih =>
    rw [commas_cons] at same
    cases ys with
    | nil => exact absurd same (items.ne_paren (oks x List.mem_cons_self))
    | cons y ys =>
      rw [commas_cons] at same
      rw [List.forall_mem_cons] at apart oks oks'
      obtain ⟨rfl, tails⟩ := apart.1 y oks'.1 _ _ (items.stop_tail xs rest)
        (items.stop_tail ys rest') same
      obtain ⟨rfl, rests⟩ := tail_inj (ih apart.2 oks.2 oks'.2) tails
      exact ⟨rfl, rests⟩

/-- The text of a tuple after its first field. -/
def fieldsTail (write : α → String) : List α → List Char → List Char
  | [], rest => ',' :: ')' :: rest
  | xs, rest => tail write xs rest

theorem fieldsTail_inj
    (lists : (commas (xs.map write)).toList ++ ')' :: rest =
      (commas (ys.map write)).toList ++ ')' :: rest' → xs = ys ∧ rest = rest')
    (same : fieldsTail write xs rest = fieldsTail write ys rest') : xs = ys ∧ rest = rest' := by
  cases xs with
  | nil =>
    cases ys with
    | nil => simpa [fieldsTail] using same
    | cons y ys => simp [fieldsTail, tail] at same
  | cons x xs =>
    cases ys with
    | nil => simp [fieldsTail, tail] at same
    | cons y ys => exact tail_inj lists same

theorem tuple_nil (rest : List Char) : (tuple (([] : List α).map write)).toList ++ rest =
    '(' :: ')' :: rest := by
  simp [tuple]

theorem tuple_cons (x : α) (xs : List α) (rest : List Char) :
    (tuple ((x :: xs).map write)).toList ++ rest =
      '(' :: ((write x).toList ++ fieldsTail write xs rest) := by
  cases xs with
  | nil => simp [tuple, fieldsTail]
  | cons y ys => simp [tuple, fieldsTail, ← commas_cons]

include items in
theorem stop_fieldsTail (xs : List α) (rest : List Char) : stop (fieldsTail write xs rest) := by
  cases xs with
  | nil => exact items.comma _
  | cons x xs => exact items.comma _

include items in
/-- Tuples of fields that are told apart are told apart, whatever follows. -/
theorem tuple_append_inj (apart : ∀ x ∈ xs, Apart ok stop write x) (oks : ∀ x ∈ xs, ok x)
    (oks' : ∀ y ∈ ys, ok y)
    (same : (tuple (xs.map write)).toList ++ rest = (tuple (ys.map write)).toList ++ rest') :
    xs = ys ∧ rest = rest' := by
  cases xs with
  | nil =>
    rw [tuple_nil] at same
    cases ys with
    | nil =>
      rw [tuple_nil] at same
      exact ⟨rfl, (List.cons.inj (List.cons.inj same).2).2⟩
    | cons y ys =>
      rw [tuple_cons] at same
      exact absurd (List.cons.inj same).2.symm (items.ne_paren (oks' y List.mem_cons_self))
  | cons x xs =>
    rw [tuple_cons] at same
    cases ys with
    | nil =>
      rw [tuple_nil] at same
      exact absurd (List.cons.inj same).2 (items.ne_paren (oks x List.mem_cons_self))
    | cons y ys =>
      rw [tuple_cons] at same
      rw [List.forall_mem_cons] at apart oks oks'
      obtain ⟨rfl, tails⟩ := apart.1 y oks'.1 _ _ (items.stop_fieldsTail xs rest)
        (items.stop_fieldsTail ys rest') (List.cons.inj same).2
      obtain ⟨rfl, rests⟩ :=
        fieldsTail_inj (items.commas_append_inj apart.2 oks.2 oks'.2) tails
      exact ⟨rfl, rests⟩

include items in
/-- A tuple is told apart from a single item in parentheses. -/
theorem tuple_append_ne {y : α} (is_ok : ok y)
    (agree : ∀ x ∈ xs, ∀ r r', stop r → stop r' →
      (write x).toList ++ r = (write y).toList ++ r' → r = r') :
    (tuple (xs.map write)).toList ++ rest ≠ '(' :: ((write y).toList ++ ')' :: rest') := by
  intro same
  cases xs with
  | nil =>
    rw [tuple_nil] at same
    exact items.ne_paren is_ok (List.cons.inj same).2.symm
  | cons x xs =>
    rw [tuple_cons] at same
    have rests := agree x List.mem_cons_self _ _ (items.stop_fieldsTail xs rest)
      (items.paren rest') (List.cons.inj same).2
    cases xs <;> simp [fieldsTail, tail] at rests

end Items

end Items

end Text

/-! ### Types -/

namespace Ty

/-- The first character of the written form. -/
def initial : Ty → Char
  | .object => 'o'
  | .tensor => 't'
  | .int => 'i'
  | .bool => 'b'
  | .tuple _ => '('

theorem exists_render (ty : Ty) : ∃ cs, ty.render.toList = ty.initial :: cs := by
  cases ty with
  | tuple fields => exact Text.exists_tuple (renderAll fields)
  | _ => exact ⟨_, rfl⟩

/-- Types can be items of lists, and nothing has to stop them. -/
theorem items : Text.Items (fun _ => True) (fun _ => True) Ty.render where
  starts ty _ := by
    obtain ⟨cs, chars⟩ := ty.exists_render
    exact ⟨_, cs, chars, by cases ty <;> simp [initial]⟩
  comma _ := trivial
  paren _ := trivial

mutual

/-- **Types are told apart, whatever follows.** -/
theorem apart (ty : Ty) : Text.Apart (fun _ => True) (fun _ => True) Ty.render ty := by
  intro ty' _ rest rest' _ _ same
  have initials : ty.initial = ty'.initial := by
    obtain ⟨cs, chars⟩ := ty.exists_render
    obtain ⟨cs', chars'⟩ := ty'.exists_render
    rw [chars, chars'] at same
    exact (List.cons.inj same).1
  match ty, ty' with
  | .tuple fields, .tuple fields' =>
    rw [render, render, renderAll_eq_map, renderAll_eq_map] at same
    obtain ⟨rfl, rests⟩ := items.tuple_append_inj (apart_all fields) (fun _ _ => trivial)
      (fun _ _ => trivial) same
    exact ⟨rfl, rests⟩
  | .object, .object => exact ⟨rfl, List.append_cancel_left same⟩
  | .tensor, .tensor => exact ⟨rfl, List.append_cancel_left same⟩
  | .int, .int => exact ⟨rfl, List.append_cancel_left same⟩
  | .bool, .bool => exact ⟨rfl, List.append_cancel_left same⟩

theorem apart_all (tys : List Ty) :
    ∀ ty ∈ tys, Text.Apart (fun _ => True) (fun _ => True) Ty.render ty := by
  match tys with
  | [] => simp
  | ty :: tys =>
    rw [List.forall_mem_cons]
    exact ⟨ty.apart, apart_all tys⟩

end

end Ty

end ParamStream
