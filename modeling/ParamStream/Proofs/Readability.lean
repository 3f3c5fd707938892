import ParamStream.Proofs.Symbols
import ParamStream.Proofs.Words

/-!
# Expressions can be read back

The written form of an expression determines the expression, but for the unit literal, which looks
like the empty tuple.  This is so for every symbol table, as long as the names of operators and host
functions are identifiers other than `true` and `false`.

Calls and projections are written behind their callee or base, so that an expression begins with
some expression inside it and where the first one ends is not seen from the text alone.  Both are
therefore taken apart: an expression is a *head* with *links* attached to it, each of them an index
or the arguments and the type of a call.  A head is a word, a tuple or a call in parentheses; the
first character tells a word from the others, and the character after the first item a tuple from a
call in parentheses.  A link begins with `.` or `(`, which does not follow a complete expression.

## Main definitions

* `Expr.canonical` — the expression with empty tuples for unit literals;
* `Expr.names` — the symbols of operators and host functions;
* `Expr.Clear` — no unit literal, and names as they should be;
* `Expr.Link`, `Expr.attachAll` — links and their attachment to a head;
* `Expr.Legible`, `Expr.Unwinds` — expressions that are told apart, alone and with links behind
  them.

## Main statements

* `Expr.exists_spine` — every expression is a head with links;
* `Expr.Unwinds.attach` — a link more makes an expression no less readable;
* `Expr.written_form_unambiguous`.
-/

namespace ParamStream

namespace Expr

/-! ### Expressions that look the same -/

mutual

/-- The expression with the empty tuple in place of the unit literal. -/
def canonical : Expr → Expr
  | .var v => .var v
  | .tuple fields => .tuple (canonicalAll fields)
  | .proj base i => .proj base.canonical i
  | .call callee args ty => .call callee.canonical (canonicalAll args) ty
  | .lit .unit => .tuple []
  | .lit (.int n) => .lit (.int n)
  | .lit (.bool b) => .lit (.bool b)
  | .host name => .host name
  | .op name => .op name

def canonicalAll : List Expr → List Expr
  | [] => []
  | e :: es => e.canonical :: canonicalAll es

end

mutual

/-- The symbols of operators and host functions in an expression. -/
def names : Expr → List Symbol
  | .tuple fields => namesAll fields
  | .proj base _ => base.names
  | .call callee args _ => callee.names ++ namesAll args
  | .host name | .op name => [name]
  | .var _ | .lit _ => []

def namesAll : List Expr → List Symbol
  | [] => []
  | e :: es => e.names ++ namesAll es

end

mutual

/-- There is no unit literal in the expression, and all names in it are proper. -/
def Clear (table : SymbolTable) : Expr → Prop
  | .var _ => True
  | .tuple fields => ClearAll table fields
  | .proj base _ => base.Clear table
  | .call callee args _ => callee.Clear table ∧ ClearAll table args
  | .lit l => l ≠ .unit
  | .host name | .op name => Text.IsName (table.resolve name)

def ClearAll (table : SymbolTable) : List Expr → Prop
  | [] => True
  | e :: es => e.Clear table ∧ ClearAll table es

end

variable {table : SymbolTable}

theorem clearAll_iff {es : List Expr} : ClearAll table es ↔ ∀ e ∈ es, e.Clear table := by
  induction es with
  | nil => simp [ClearAll]
  | cons e es ih => rw [ClearAll, ih, List.forall_mem_cons]

theorem isCall_canonical (e : Expr) : e.canonical.isCall = e.isCall := by
  match e with
  | .var _ | .tuple _ | .proj .. | .call .. | .host _ | .op _ => rfl
  | .lit .unit | .lit (.int _) | .lit (.bool _) => rfl

mutual

/-- The canonical form looks like the expression. -/
theorem render_canonical (table : SymbolTable) (e : Expr) :
    e.canonical.render table = e.render table := by
  match e with
  | .tuple fields => rw [canonical, render, render, renderAll_canonical table fields]
  | .proj base i => rw [canonical, render, render, render_canonical table base, isCall_canonical]
  | .call callee args ty =>
    rw [canonical, render, render, render_canonical table callee, renderAll_canonical table args]
  | .var _ | .host _ | .op _ => rfl
  | .lit .unit | .lit (.int _) | .lit (.bool _) => rfl

theorem renderAll_canonical (table : SymbolTable) (es : List Expr) :
    renderAll table (canonicalAll es) = renderAll table es := by
  match es with
  | [] => rfl
  | e :: es =>
    rw [canonicalAll, renderAll, renderAll, render_canonical table e, renderAll_canonical table es]

end

mutual

theorem clear_canonical (e : Expr) (named : ∀ name ∈ e.names, Text.IsName (table.resolve name)) :
    e.canonical.Clear table := by
  match e with
  | .tuple fields => exact clearAll_canonical fields named
  | .proj base _ => exact clear_canonical base named
  | .call callee args _ =>
    rw [names, List.forall_mem_append] at named
    exact ⟨clear_canonical callee named.1, clearAll_canonical args named.2⟩
  | .var _ | .lit .unit => trivial
  | .lit (.int _) | .lit (.bool _) => exact Literal.noConfusion
  | .host name | .op name => exact named name (by simp [names])

theorem clearAll_canonical (es : List Expr)
    (named : ∀ name ∈ namesAll es, Text.IsName (table.resolve name)) :
    ClearAll table (canonicalAll es) := by
  match es with
  | [] => trivial
  | e :: es =>
    rw [namesAll, List.forall_mem_append] at named
    exact ⟨clear_canonical e named.1, clearAll_canonical es named.2⟩

end

/-! ### Links -/

/-- What can be written behind an expression: an index, or the arguments and the type of a call. -/
inductive Link where
  | index (i : Nat)
  | apply (args : List Expr) (ty : Ty)

/-- The expression with a link behind it. -/
def attach (e : Expr) : Link → Expr
  | .index i => .proj e i
  | .apply args ty => .call e args ty

/-- The expression with links behind it, from the first to the last. -/
def attachAll (e : Expr) (links : List Link) : Expr := links.foldl attach e

theorem attachAll_concat (e : Expr) (links : List Link) (link : Link) :
    e.attachAll (links ++ [link]) = (e.attachAll links).attach link := by
  simp [attachAll]

namespace Link

/-- The written form of a link. -/
def text (table : SymbolTable) : Link → List Char
  | .index i => '.' :: (toString i).toList
  | .apply args ty =>
    '(' :: ((Text.commas (args.map (render table))).toList ++ ')' :: ' ' :: ':' :: ' ' ::
      ty.render.toList)

/-- All arguments in a link satisfy the predicate. -/
def ArgsAll (p : Expr → Prop) : Link → Prop
  | .index _ => True
  | .apply args _ => ∀ e ∈ args, p e

end Link

/-- The written form of links. -/
def trail (table : SymbolTable) (links : List Link) : List Char := links.flatMap (Link.text table)

theorem trail_cons (link : Link) (links : List Link) :
    trail table (link :: links) = link.text table ++ trail table links := List.flatMap_cons

/-- Behind a complete expression, or one with links behind it, a word is over. -/
theorem delimited_trail {rest : List Char} (ended : Text.Ended rest) (links : List Link) :
    Text.Delimited (trail table links ++ rest) := by
  match links with
  | [] => exact ended.delimited
  | .index _ :: _ =>
    rintro c ⟨⟩
    decide
  | .apply .. :: _ =>
    rintro c ⟨⟩
    decide

theorem toList_render_call (callee : Expr) (args : List Expr) (ty : Ty) :
    ((Expr.call callee args ty).render table).toList =
      (callee.render table).toList ++ (Link.apply args ty).text table := by
  simp [render, renderAll_eq_map, Link.text]

theorem toList_render_proj {base : Expr} (not_call : base.isCall = false) (i : Nat) :
    ((Expr.proj base i).render table).toList =
      (base.render table).toList ++ (Link.index i).text table := by
  simp [render, not_call, Link.text]

/-- A call is put in parentheses before it is projected. -/
theorem toList_render_group {base : Expr} (is_call : base.isCall) (i : Nat) :
    ((Expr.proj base i).render table).toList =
      '(' :: ((base.render table).toList ++ ')' :: (Link.index i).text table) := by
  simp [render, is_call, Link.text]

theorem exists_render_tuple (table : SymbolTable) (fields : List Expr) :
    ∃ cs, ((Expr.tuple fields).render table).toList = '(' :: cs :=
  Text.exists_tuple (renderAll table fields)

/-! ### Heads -/

/-- An expression that is written as one word. -/
def IsAtom : Expr → Prop
  | .var _ | .lit _ | .host _ | .op _ => True
  | .tuple _ | .proj .. | .call .. => False

/-- An expression that is not written as another one with a link behind it. -/
def IsHead : Expr → Prop
  | .var _ | .lit _ | .host _ | .op _ | .tuple _ => True
  | .proj base _ => base.isCall
  | .call .. => False

theorem isHead_iff {e : Expr} :
    e.IsHead ↔ e.IsAtom ∨ (∃ fields, e = .tuple fields) ∨
      ∃ base i, base.isCall ∧ e = .proj base i := by
  cases e <;> simp [IsHead, IsAtom]

/-- An expression as a head with links behind it. -/
structure Spine (table : SymbolTable) (e : Expr) where
  head : Expr
  links : List Link
  isHead : head.IsHead
  head_clear : head.Clear table
  links_clear : ∀ link ∈ links, link.ArgsAll (Clear table)
  whole : head.attachAll links = e
  text : (e.render table).toList = (head.render table).toList ++ trail table links

namespace Spine

variable {e : Expr}

/-- A head without links. -/
def ofHead (clear : e.Clear table) (isHead : e.IsHead) : Spine table e where
  head := e
  links := []
  isHead := isHead
  head_clear := clear
  links_clear := by simp
  whole := rfl
  text := by simp [trail]

/-- A link more. -/
def attach (s : Spine table e) (link : Link) (clear : link.ArgsAll (Clear table))
    (text : ((e.attach link).render table).toList =
      (e.render table).toList ++ link.text table) : Spine table (e.attach link) where
  head := s.head
  links := s.links ++ [link]
  isHead := s.isHead
  head_clear := s.head_clear
  links_clear := by
    rw [List.forall_mem_append]
    exact ⟨s.links_clear, by simpa using clear⟩
  whole := by rw [attachAll_concat, s.whole]
  text := by
    rw [text, s.text, trail, trail, List.flatMap_append, List.flatMap_singleton, List.append_assoc]

end Spine

/-- Every expression is a head with links. -/
theorem exists_spine {e : Expr} (clear : e.Clear table) : Nonempty (Spine table e) := by
  match e with
  | .var _ | .lit _ | .host _ | .op _ | .tuple _ => exact ⟨.ofHead clear trivial⟩
  | .proj base i =>
    by_cases is_call : base.isCall
    · exact ⟨.ofHead clear is_call⟩
    · obtain ⟨s⟩ := exists_spine (e := base) clear
      exact ⟨s.attach (.index i) trivial (toList_render_proj (by simpa using is_call) i)⟩
  | .call callee args ty =>
    obtain ⟨s⟩ := exists_spine clear.1
    exact ⟨s.attach (.apply args ty) (clearAll_iff.mp clear.2)
      (toList_render_call callee args ty)⟩

/-! ### Words -/

/-- The kinds of words, by their first character. -/
inductive Sign where
  | variable
  | host
  | number
  | name
deriving DecidableEq

def Sign.of (c : Char) : Sign :=
  if c = '%' then .variable else if c = '@' then .host
  else if c.isDigit || c = '-' then .number else .name

/-- The kind of word that an atom is written as. -/
def sign : Expr → Sign
  | .var _ => .variable
  | .host _ => .host
  | .lit (.int _) => .number
  | _ => .name

theorem sign_of_isLetter {c : Char} (letter : Text.isLetter c) : Sign.of c = .name := by
  have not_digit := Text.not_isDigit_of_isLetter letter
  have not_other : c ≠ '%' ∧ c ≠ '@' ∧ c ≠ '-' := by
    refine ⟨?_, ?_, ?_⟩ <;> rintro rfl <;> simp [Text.isLetter] at letter
  simp [Sign.of, not_digit, not_other]

theorem sign_of_number {c : Char} (number : c.isDigit ∨ c = '-') : Sign.of c = .number := by
  have not_other : c ≠ '%' ∧ c ≠ '@' := by
    refine ⟨?_, ?_⟩ <;> rintro rfl <;> simp at number
  simp [Sign.of, number, not_other]

theorem isIdentifier_bool (b : Bool) : Text.isIdentifier (Literal.bool b).render := by
  cases b <;> decide

theorem isWord_render {e : Expr} (atom : e.IsAtom) (clear : e.Clear table) :
    Text.IsWord (e.render table) := by
  match e with
  | .var v => exact .append ⟨by simp, by simp [Text.delimiters]⟩ (Text.isWord_nat v.index)
  | .lit (.int n) => exact Text.isWord_int n
  | .lit (.bool b) => exact Text.isWord_of_isIdentifier (isIdentifier_bool b)
  | .lit .unit => exact absurd rfl clear
  | .host name =>
    exact .append ⟨by simp, by simp [Text.delimiters]⟩
      (Text.isWord_of_isIdentifier (Text.IsName.identifier clear))
  | .op name => exact Text.isWord_of_isIdentifier (Text.IsName.identifier clear)

theorem sign_of_isIdentifier {s : String} (identifier : Text.isIdentifier s) :
    s.toList.head?.map Sign.of = some .name := by
  obtain ⟨c, cs, chars, letter, -⟩ := Text.exists_cons_of_isIdentifier identifier
  rw [chars, List.head?_cons, Option.map_some, sign_of_isLetter letter]

theorem sign_render {e : Expr} (atom : e.IsAtom) (clear : e.Clear table) :
    (e.render table).toList.head?.map Sign.of = some e.sign := by
  match e with
  | .var v => simp [render, VarId.render, sign, Sign.of]
  | .lit (.int n) =>
    obtain ⟨c, cs, chars, -⟩ := (Text.isWord_int n).exists_cons
    have number := Text.isDigit_or_eq_of_mem_toString (chars ▸ List.mem_cons_self)
    rw [render, Literal.render, chars, List.head?_cons, Option.map_some, sign_of_number number]
    rfl
  | .lit (.bool b) => exact sign_of_isIdentifier (isIdentifier_bool b)
  | .lit .unit => exact absurd rfl clear
  | .host name => simp [render, sign, Sign.of]
  | .op name => exact sign_of_isIdentifier (Text.IsName.identifier clear)

end Expr

/-- A name belongs to one symbol only. -/
theorem SymbolTable.eq_of_resolve_eq {table : SymbolTable} {m n : Symbol}
    (name : Text.IsName (table.resolve m)) (same : table.resolve m = table.resolve n) : m = n := by
  have known : ∀ k : Symbol, Text.IsName (table.resolve k) → k.index < table.size := by
    intro k name
    by_contra beyond
    -- The placeholder for symbols that were never given out is no name.
    rw [resolve, List.getElem?_eq_none (Nat.le_of_not_lt beyond)] at name
    exact absurd name.identifier (by decide)
  exact resolve_inj (known m name) (known n (same ▸ name)) same

namespace Expr

variable {table : SymbolTable}

theorem ne_bool_of_isName {s : String} (name : Text.IsName s) (b : Bool) :
    (Literal.bool b).render ≠ s := by
  cases b with
  | true => exact name.ne_true.symm
  | false => exact name.ne_false.symm

/-- Atoms that look the same are the same. -/
theorem eq_of_render_eq_of_isAtom {e e' : Expr} (atom : e.IsAtom) (atom' : e'.IsAtom)
    (clear : e.Clear table) (clear' : e'.Clear table)
    (same : e.render table = e'.render table) : e = e' := by
  have signs : e.sign = e'.sign := by
    have sign' := sign_render atom' clear'
    rw [← same, sign_render atom clear] at sign'
    exact Option.some.inj sign'
  match e, e' with
  | .var ⟨i⟩, .var ⟨j⟩ =>
    simp only [render, VarId.render, String.append_right_inj] at same
    rw [Text.toString_nat_inj same]
  | .host name, .host name' =>
    simp only [render, String.append_right_inj] at same
    rw [SymbolTable.eq_of_resolve_eq clear same]
  | .lit (.int n), .lit (.int n') =>
    simp only [render, Literal.render] at same
    rw [Text.toString_int_inj same]
  | .lit (.bool b), .lit (.bool b') =>
    cases b <;> cases b' <;> simp [render, Literal.render] at same ⊢
  | .lit (.bool b), .op name => exact absurd same (ne_bool_of_isName clear' b)
  | .op name, .lit (.bool b) => exact absurd same.symm (ne_bool_of_isName clear b)
  | .op name, .op name' => rw [SymbolTable.eq_of_resolve_eq clear same]

/-! ### Unwinding -/

/-- A clear expression whose written form is told apart from those of other clear ones. -/
structure Legible (table : SymbolTable) (e : Expr) : Prop where
  clear : e.Clear table
  apart : Text.Apart (Clear table) Text.Ended (render table) e

/-- Expressions can be items of lists. -/
theorem items (table : SymbolTable) : Text.Items (Clear table) Text.Ended (render table) where
  starts e clear := by
    obtain ⟨s⟩ := exists_spine clear
    rw [s.text]
    rcases isHead_iff.mp s.isHead with atom | ⟨fields, is_tuple⟩ | ⟨base, i, is_call, is_group⟩
    · obtain ⟨c, cs, chars, undelimited⟩ := (isWord_render atom s.head_clear).exists_cons
      exact ⟨c, cs ++ trail table s.links, by rw [chars]; rfl,
        fun is_paren => undelimited (is_paren ▸ by decide)⟩
    · obtain ⟨cs, chars⟩ := exists_render_tuple table fields
      exact ⟨_, cs ++ trail table s.links, by rw [is_tuple, chars]; rfl, by decide⟩
    · rw [is_group, toList_render_group is_call]
      exact ⟨_, _, rfl, by decide⟩
  comma rest := by
    rintro c ⟨⟩
    exact .inl rfl
  paren rest := by
    rintro c ⟨⟩
    exact .inr rfl

/-- No link follows a complete expression. -/
theorem ne_link_of_ended {rest more : List Char} (ended : Text.Ended rest) (link : Link) :
    rest ≠ link.text table ++ more := by
  rintro rfl
  cases link with
  | index i => exact absurd (ended '.' rfl) (by decide)
  | apply args ty => exact absurd (ended '(' rfl) (by decide)

/-- A link whose arguments are legible is told apart where a word is over. -/
theorem Link.text_append_inj (link link' : Link) {rest rest' : List Char}
    (legible : link.ArgsAll (Legible table)) (clear : link'.ArgsAll (Clear table))
    (delimited : Text.Delimited rest) (delimited' : Text.Delimited rest')
    (same : link.text table ++ rest = link'.text table ++ rest') : link = link' ∧ rest = rest' := by
  cases link with
  | index i =>
    cases link' with
    | index j =>
      obtain ⟨numbers, rests⟩ := (Text.isWord_nat i).append_inj (Text.isWord_nat j) delimited
        delimited' (List.cons.inj same).2
      exact ⟨Text.toString_nat_inj numbers ▸ rfl, rests⟩
    | apply args ty => exact absurd (List.cons.inj same).1 (by decide)
  | apply args ty =>
    cases link' with
    | index j => exact absurd (List.cons.inj same).1 (by decide)
    | apply args' ty' =>
      simp only [text, List.cons_append, List.append_assoc, List.cons.injEq, true_and] at same
      obtain ⟨rfl, types⟩ := (items table).commas_append_inj (fun e mem => (legible e mem).apart)
        (fun e mem => (legible e mem).clear) clear same
      simp only [List.cons.injEq, true_and] at types
      obtain ⟨rfl, rests⟩ := ty.apart ty' trivial _ _ trivial trivial types
      exact ⟨rfl, rests⟩

/-- Links whose arguments are legible are told apart where a complete expression ends. -/
theorem trail_append_inj {links links' : List Link} {rest rest' : List Char}
    (legible : ∀ link ∈ links, link.ArgsAll (Legible table))
    (clear : ∀ link ∈ links', link.ArgsAll (Clear table)) (ended : Text.Ended rest)
    (ended' : Text.Ended rest')
    (same : trail table links ++ rest = trail table links' ++ rest') :
    links = links' ∧ rest = rest' := by
  induction links generalizing links' with
  | nil =>
    cases links' with
    | nil => exact ⟨rfl, same⟩
    | cons link links =>
      rw [trail_cons, List.append_assoc] at same
      exact absurd same (ne_link_of_ended ended link)
  | cons link links ih =>
    rw [trail_cons, List.append_assoc] at same
    cases links' with
    | nil => exact absurd same.symm (ne_link_of_ended ended' link)
    | cons link' links' =>
      rw [trail_cons, List.append_assoc] at same
      rw [List.forall_mem_cons] at legible clear
      obtain ⟨rfl, trails⟩ := link.text_append_inj link' legible.1 clear.1
        (delimited_trail ended links) (delimited_trail ended' links') same
      obtain ⟨rfl, rests⟩ := ih legible.2 clear.2 trails
      exact ⟨rfl, rests⟩

/-- The head is told apart from other heads where a word is over. -/
def HeadApart (table : SymbolTable) (e : Expr) : Prop :=
  ∀ head : Expr, head.IsHead → head.Clear table →
    ∀ rest rest', Text.Delimited rest → Text.Delimited rest' →
      (e.render table).toList ++ rest = (head.render table).toList ++ rest' →
        e = head ∧ rest = rest'

/-- The written form of the expression with links behind it is told apart from others. -/
def Unwinds (table : SymbolTable) (e : Expr) : Prop :=
  ∀ links : List Link, (∀ link ∈ links, link.ArgsAll (Legible table)) →
    ∀ e' : Expr, e'.Clear table → ∀ rest rest', Text.Ended rest → Text.Ended rest' →
      (e.render table).toList ++ (trail table links ++ rest) = (e'.render table).toList ++ rest' →
        e.attachAll links = e' ∧ rest = rest'

theorem HeadApart.unwinds {e : Expr} (apart : e.HeadApart table) : e.Unwinds table := by
  intro links legible e' clear' rest rest' ended ended' same
  obtain ⟨s⟩ := exists_spine clear'
  rw [s.text, List.append_assoc] at same
  obtain ⟨is_head, trails⟩ := apart s.head s.isHead s.head_clear _ _ (delimited_trail ended links)
    (delimited_trail ended' s.links) same
  obtain ⟨are_links, rests⟩ := trail_append_inj legible s.links_clear ended ended' trails
  exact ⟨by rw [is_head, are_links, s.whole], rests⟩

namespace Unwinds

variable {e : Expr}

/-- A link moves from the expression to those behind it. -/
theorem attach (unwinds : e.Unwinds table) (link : Link)
    (args_legible : link.ArgsAll (Legible table))
    (text : ((e.attach link).render table).toList =
      (e.render table).toList ++ link.text table) : (e.attach link).Unwinds table := by
  intro links legible e' clear' rest rest' ended ended' same
  rw [text, List.append_assoc, ← List.append_assoc (link.text table), ← trail_cons] at same
  exact unwinds (link :: links) (List.forall_mem_cons.mpr ⟨args_legible, legible⟩) e' clear' rest
    rest' ended ended' same

theorem legible (unwinds : e.Unwinds table) (clear : e.Clear table) : e.Legible table where
  clear := clear
  apart := unwinds [] (by simp)

end Unwinds

theorem headApart_of_isAtom {e : Expr} (atom : e.IsAtom) (clear : e.Clear table) :
    e.HeadApart table := by
  intro head isHead head_clear rest rest' delimited delimited' same
  have word := isWord_render atom clear
  rcases isHead_iff.mp isHead with atom' | ⟨fields, rfl⟩ | ⟨base, i, is_call, rfl⟩
  · obtain ⟨words, rests⟩ :=
      word.append_inj (isWord_render atom' head_clear) delimited delimited' same
    exact ⟨eq_of_render_eq_of_isAtom atom atom' clear head_clear words, rests⟩
  · obtain ⟨cs, chars⟩ := exists_render_tuple table fields
    rw [chars] at same
    exact absurd same word.append_ne_paren
  · rw [toList_render_group is_call] at same
    exact absurd same word.append_ne_paren

theorem headApart_tuple {fields : List Expr} (legible : ∀ e ∈ fields, e.Legible table) :
    (Expr.tuple fields).HeadApart table := by
  intro head isHead head_clear rest rest' delimited delimited' same
  rcases isHead_iff.mp isHead with atom | ⟨fields', rfl⟩ | ⟨base, i, is_call, rfl⟩
  · obtain ⟨cs, chars⟩ := exists_render_tuple table fields
    rw [chars] at same
    exact absurd same.symm (isWord_render atom head_clear).append_ne_paren
  · rw [render, render, renderAll_eq_map, renderAll_eq_map] at same
    obtain ⟨rfl, rests⟩ := (items table).tuple_append_inj (fun e mem => (legible e mem).apart)
      (fun e mem => (legible e mem).clear) (clearAll_iff.mp head_clear) same
    exact ⟨rfl, rests⟩
  · -- Were the first field the call, a comma would follow where the call is closed.
    rw [render, renderAll_eq_map, toList_render_group is_call, List.cons_append,
      List.append_assoc] at same
    refine absurd same
      ((items table).tuple_append_ne head_clear fun e mem r r' stop stop' text => ?_)
    exact ((legible e mem).apart base head_clear r r' stop stop' text).2

theorem headApart_group {base : Expr} (i : Nat) (is_call : base.isCall)
    (legible : base.Legible table) : (Expr.proj base i).HeadApart table := by
  intro head isHead head_clear rest rest' delimited delimited' same
  rcases isHead_iff.mp isHead with atom | ⟨fields', rfl⟩ | ⟨base', j, is_call', rfl⟩
  · rw [toList_render_group is_call] at same
    exact absurd same.symm (isWord_render atom head_clear).append_ne_paren
  · rw [toList_render_group is_call, render, renderAll_eq_map, List.cons_append,
      List.append_assoc] at same
    refine absurd same.symm
      ((items table).tuple_append_ne legible.clear fun e mem r r' stop stop' text => ?_)
    have field_clear := clearAll_iff.mp head_clear e mem
    exact (legible.apart e field_clear r' r stop' stop text.symm).2.symm
  · rw [toList_render_group is_call, toList_render_group is_call', List.cons_append,
      List.cons_append, List.append_assoc, List.append_assoc] at same
    obtain ⟨rfl, links⟩ := legible.apart base' head_clear _ _ ((items table).paren _)
      ((items table).paren _) (List.cons.inj same).2
    obtain ⟨indices, rests⟩ := (Link.index i).text_append_inj (.index j) trivial trivial delimited
      delimited' (List.cons.inj links).2
    obtain ⟨rfl⟩ := indices
    exact ⟨rfl, rests⟩

mutual

/-- **Every expression that is clear is told apart from others.** -/
theorem unwinds {e : Expr} (clear : e.Clear table) : e.Unwinds table := by
  match e with
  | .var _ | .lit _ | .host _ | .op _ => exact (headApart_of_isAtom (by trivial) clear).unwinds
  | .tuple fields => exact (headApart_tuple (legible_all clear)).unwinds
  | .proj base i =>
    have base_unwinds : base.Unwinds table := unwinds (e := base) clear
    by_cases is_call : base.isCall
    · exact (headApart_group i is_call (base_unwinds.legible clear)).unwinds
    · exact base_unwinds.attach (.index i) trivial
        (toList_render_proj (by simpa using is_call) i)
  | .call callee args ty =>
    exact (unwinds clear.1).attach (.apply args ty) (legible_all clear.2)
      (toList_render_call callee args ty)

theorem legible_all {es : List Expr} (clear : ClearAll table es) :
    ∀ e ∈ es, e.Legible table := by
  match es with
  | [] => simp
  | e :: es =>
    rw [List.forall_mem_cons]
    exact ⟨(unwinds clear.1).legible clear.1, legible_all clear.2⟩

end

/-- **Written forms can be read in one way only.**  Types that look the same are the same.  Let all
operators and host functions in two expressions have names: identifiers, and neither of the boolean
constants, which the placeholder for a symbol out of range is not.  Then the expressions look the
same exactly if they are equal but for unit literals in place of empty tuples. -/
theorem written_form_unambiguous (table : SymbolTable) :
    (∀ ty ty' : Ty, ty.render = ty'.render → ty = ty') ∧
      ∀ e e' : Expr, (∀ name ∈ e.names, Text.IsName (table.resolve name)) →
        (∀ name ∈ e'.names, Text.IsName (table.resolve name)) →
          (e.render table = e'.render table ↔ e.canonical = e'.canonical) := by
  refine ⟨fun ty ty' same => ?_, fun e e' named named' => ⟨fun same => ?_, fun same => ?_⟩⟩
  · exact (ty.apart ty' trivial [] [] trivial trivial (by rw [same])).1
  · rw [← render_canonical table e, ← render_canonical table e'] at same
    have clear := clear_canonical e named
    have apart := ((unwinds clear).legible clear).apart
    exact (apart e'.canonical (clear_canonical e' named') [] [] (by simp [Text.Ended])
      (by simp [Text.Ended]) (by rw [same])).1
  · rw [← render_canonical table e, same, render_canonical]

end Expr

namespace Sample

def operatorNames : SymbolTable := ⟨["neg", "sub"], by decide⟩

/-- A call of a projection of a call, whose first argument is left open. -/
def projectedCall (first : Expr) : Expr :=
  .call (.proj (.call (.op ⟨2⟩) [first, .tuple [.var ⟨1⟩]] (.tuple [.int])) 0) [.host ⟨1⟩] .tensor

end Sample

namespace Expr

open Sample in
/-- With a unit literal and with an empty tuple for an argument, a call looks the same. -/
theorem written_form_unambiguous_projectedCall : ∃ text,
    text = "(sub((), (%1,)) : (int,)).0(@neg) : tensor" ∧
      (∀ name ∈ (projectedCall (.lit .unit)).names, Text.IsName (operatorNames.resolve name)) ∧
      (∀ name ∈ (projectedCall (.tuple [])).names, Text.IsName (operatorNames.resolve name)) ∧
      (projectedCall (.lit .unit)).render operatorNames = text ∧
      (projectedCall (.tuple [])).render operatorNames = text ∧
      (projectedCall (.lit .unit)).canonical = (projectedCall (.tuple [])).canonical := by
  have named : ∀ name ∈ (projectedCall (.lit .unit)).names,
      Text.IsName (operatorNames.resolve name) := by decide
  have named' : ∀ name ∈ (projectedCall (.tuple [])).names,
      Text.IsName (operatorNames.resolve name) := by decide
  obtain ⟨-, alike⟩ := written_form_unambiguous operatorNames
  exact ⟨_, rfl, named, named', rfl, rfl, (alike _ _ named named').mp rfl⟩

end Expr

end ParamStream
