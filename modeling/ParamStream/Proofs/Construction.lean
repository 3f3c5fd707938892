import ParamStream.Proofs.FirstFault
import ParamStream.Proofs.Segment

/-!
# What a builder builds

A builder can be used in any order: parameters may be declared after bindings, blocks opened twice
in a row, left without bindings or closed when none is open, and a binding emitted outside of a
block gets one of its own.  Whatever the order, the finished function holds what was asked for and
nothing else, provided that no expression mentions a variable before the builder has returned it.

A use of the builder is a list of steps.  Three things are kept by each step: what has been handed
out is defined once and read after its definition (`Builder.Sound`), the blocks hold the bindings
emitted so far (`Builder.Files`), and the variable table only grows.  The types recorded in the
table are found over a shorter table than the final one, which does not matter to an expression
whose variables the shorter one holds.

## Main definitions

* `Builder.Step`, `Builder.run` — steps of construction;
* `Builder.returned` — the variables returned by steps;
* `Builder.emissions` — the bindings asked for, each with the kind and the number of its block;
* `Filed` — blocks that hold emissions, one block to an opening.

## Main statements

* `Expr.typeIn_append` — a longer table gives the same types;
* `Builder.Sound.run`, `Builder.Files.run`;
* `Builder.builds_what_was_asked`.
-/

namespace ParamStream

/-! ### Types over a longer table -/

namespace Expr

variable {vars : List VarDecl}

mutual

/-- Entries behind those of the variables that an expression reads do not matter to its type. -/
theorem typeIn_append {e : Expr} (inside : ∀ v ∈ e.reads, v.index < vars.length)
    (more : List VarDecl) : e.typeIn (vars ++ more) = e.typeIn vars := by
  match e with
  | .var v => rw [typeIn, typeIn, List.getElem?_append_left (inside v (by simp [reads]))]
  | .tuple fields => rw [typeIn, typeIn, typesIn_append inside more]
  | .proj base _ => rw [typeIn, typeIn, typeIn_append (e := base) inside more]
  | .call .. | .lit (.int _) | .lit (.bool _) | .lit .unit | .host _ | .op _ => rfl

theorem typesIn_append {es : List Expr} (inside : ∀ v ∈ readsAll es, v.index < vars.length)
    (more : List VarDecl) : typesIn (vars ++ more) es = typesIn vars es := by
  match es with
  | [] => rfl
  | e :: es =>
    rw [readsAll, List.forall_mem_append] at inside
    rw [typesIn, typesIn, typeIn_append inside.1 more, typesIn_append inside.2 more]

end

end Expr

/-! ### Steps of construction -/

namespace Builder

/-- What can be asked of a builder before it is finished. -/
inductive Step where
  | param (name : Symbol) (ty : Ty)
  | beginBlock (kind : BlockKind)
  | endBlock
  | emit (name : Symbol) (value : Expr)
  | emitTyped (name : Symbol) (value : Expr) (ty : Ty)
  | setAttr (name : Symbol) (value : AttrValue)

/-- The builder after a step. -/
def step (b : Builder) : Step → Builder
  | .param name ty => b.param name ty
  | .beginBlock kind => b.beginBlock kind
  | .endBlock => b.endBlock
  | .emit name value => b.emit name value
  | .emitTyped name value ty => b.emitTyped name value ty
  | .setAttr name value => b.setAttr name value

/-- The builder after steps, in order. -/
def run (b : Builder) (steps : List Step) : Builder := steps.foldl step b

@[simp] theorem run_nil (b : Builder) : b.run [] = b := rfl

@[simp] theorem run_cons (b : Builder) (s : Step) (steps : List Step) :
    b.run (s :: steps) = (b.step s).run steps := rfl

theorem run_append (b : Builder) (steps more : List Step) :
    b.run (steps ++ more) = (b.run steps).run more := List.foldl_append

/-- The variable that a step returns, if it returns one: the one that it defines. -/
def answer? (b : Builder) : Step → Option VarId
  | .param .. | .emit .. | .emitTyped .. => some b.next
  | .beginBlock _ | .endBlock | .setAttr .. => none

/-- The variables returned by steps, in order. -/
def returned (b : Builder) : List Step → List VarId
  | [] => []
  | s :: steps => (b.answer? s).toList ++ (b.step s).returned steps

namespace Step

/-- The expression that a step binds. -/
def value? : Step → Option Expr
  | .emit _ value | .emitTyped _ value _ => some value
  | .param .. | .beginBlock _ | .endBlock | .setAttr .. => none

/-- The variables that a step mentions. -/
def reads (s : Step) : List VarId := (s.value?.map Expr.reads).getD []

/-- The kind of the block that a binding goes to after the step, when it was `kind` before. -/
def kindAfter (kind : BlockKind) : Step → BlockKind
  | .beginBlock kind => kind
  | .endBlock => .plain
  | .param .. | .emit .. | .emitTyped .. | .setAttr .. => kind

/-- How often a block was opened or closed, when it was `opening` times before the step. -/
def openingAfter (opening : Nat) : Step → Nat
  | .beginBlock _ | .endBlock => opening + 1
  | .param .. | .emit .. | .emitTyped .. | .setAttr .. => opening

end Step

/-- The steps mention only variables that are known at first or returned by earlier steps. -/
def ReadsReturned (b : Builder) (known : List VarId) : List Step → Prop
  | [] => True
  | s :: steps =>
    (∀ v ∈ s.reads, v ∈ known) ∧
      (b.step s).ReadsReturned (known ++ (b.answer? s).toList) steps

instance decidableReadsReturned : (b : Builder) → (known : List VarId) → (steps : List Step) →
    Decidable (b.ReadsReturned known steps)
  | _, _, [] => isTrue trivial
  | b, known, s :: steps =>
    have := (b.step s).decidableReadsReturned (known ++ (b.answer? s).toList) steps
    inferInstanceAs (Decidable (_ ∧ _))

/-- A binding that was asked for, with the kind of the block last opened before it, or the plain one
if none is open, and the number of times that a block was opened or closed before. -/
structure Emission where
  opening : Nat
  kind : BlockKind
  binding : Binding

/-- The bindings that steps ask for, in order. -/
def emissions (b : Builder) (opening : Nat) (kind : BlockKind) : List Step → List Emission
  | [] => []
  | s :: steps =>
    (s.value?.map fun value => ⟨opening, kind, b.next, value⟩).toList ++
      (b.step s).emissions (s.openingAfter opening) (s.kindAfter kind) steps

/-! ### Growth of the table -/

theorem vars_step (b : Builder) (s : Step) : b.vars <+: (b.step s).vars := by
  cases s with
  | param name ty => exact List.prefix_append ..
  | beginBlock kind => exact List.prefix_rfl
  | endBlock => exact List.prefix_rfl
  | emit name value => exact List.prefix_append ..
  | emitTyped name value ty => exact List.prefix_append ..
  | setAttr name value => exact List.prefix_rfl

theorem vars_run (b : Builder) (steps : List Step) : b.vars <+: (b.run steps).vars := by
  induction steps generalizing b with
  | nil => exact List.prefix_rfl
  | cons s steps ih => exact (b.vars_step s).trans (ih (b.step s))

theorem lt_of_mem_answer {b : Builder} {s : Step} {v : VarId} (mem : v ∈ (b.answer? s).toList) :
    v.index < (b.step s).vars.length := by
  cases s <;> simp [answer?] at mem <;> simp [mem, step, next, Builder.param, emit]

/-- What has been returned is in the table. -/
theorem lt_of_mem_returned {b : Builder} {steps : List Step} {v : VarId}
    (mem : v ∈ b.returned steps) : v.index < (b.run steps).vars.length := by
  induction steps generalizing b with
  | nil => simp [returned] at mem
  | cons s steps ih =>
    rcases List.mem_append.mp mem with first | later
    · exact Nat.lt_of_lt_of_le (lt_of_mem_answer first) ((b.step s).vars_run steps).length_le
    · exact ih later

/-- If what is known is in the table, then so it is after a step, with what the step returns. -/
theorem known_step {b : Builder} {known : List VarId}
    (inside : ∀ v ∈ known, v.index < b.vars.length) (s : Step) :
    ∀ v ∈ known ++ (b.answer? s).toList, v.index < (b.step s).vars.length := by
  rw [List.forall_mem_append]
  exact ⟨fun v mem => Nat.lt_of_lt_of_le (inside v mem) (b.vars_step s).length_le,
    fun v => lt_of_mem_answer⟩

/-- What a step mentions is in the table when it is taken. -/
theorem ReadsReturned.lt {b : Builder} {known : List VarId} {before after : List Step} {s : Step}
    (reads : b.ReadsReturned known (before ++ s :: after))
    (inside : ∀ v ∈ known, v.index < b.vars.length) :
    ∀ v ∈ s.reads, v.index < (b.run before).vars.length := by
  induction before generalizing b known with
  | nil => exact fun v read => inside v (reads.1 v read)
  | cons first before ih => exact ih reads.2 (known_step inside first)

/-! ### Scoping -/

/-- The bindings emitted by a step. -/
theorem code_step (b : Builder) (s : Step) :
    (b.step s).code = b.code ++ (s.value?.map (Binding.mk b.next)).toList := by
  cases s with
  | param name ty => exact (List.append_nil _).symm
  | beginBlock kind => simp [step, Step.value?]
  | endBlock => simp [step, Step.value?]
  | emit name value => exact b.code_emit name value
  | emitTyped name value ty => exact b.code_emitTyped name value ty
  | setAttr name value => exact (List.append_nil _).symm

theorem code_run (b : Builder) (steps : List Step) (opening : Nat) (kind : BlockKind) :
    (b.run steps).code = b.code ++ (b.emissions opening kind steps).map Emission.binding := by
  induction steps generalizing b opening kind with
  | nil => simp [emissions]
  | cons s steps ih =>
    rw [run_cons, ih, code_step, emissions, List.map_append, List.append_assoc]
    cases s.value? <;> rfl

/-- The variables handed out are those defined, each once, and bindings read what was defined
before them. -/
structure Sound (b : Builder) : Prop where
  defined : (b.params ++ b.code.map Binding.var).Perm (varsFrom 0 b.vars.length)
  reads : ∀ before c after, b.code = before ++ c :: after →
    ∀ v ∈ c.value.reads, v ∈ b.params ∨ v ∈ before.map Binding.var

namespace Sound

variable {b : Builder}

theorem empty : Builder.empty.Sound where
  defined := .refl []
  reads before c after split := by simp [Builder.empty, code, Builder.sealed] at split

theorem mem_iff (sound : b.Sound) {v : VarId} :
    v ∈ b.params ∨ v ∈ b.code.map Binding.var ↔ v.index < b.vars.length := by
  rw [← List.mem_append, sound.defined.mem_iff, mem_varsFrom]
  simp [Expr.InRange]

theorem congr {c : Builder} (sound : b.Sound) (params : c.params = b.params)
    (code : c.code = b.code) (vars : c.vars = b.vars) : c.Sound := by
  constructor
  · rw [params, code, vars]
    exact sound.defined
  · rw [params, code]
    exact sound.reads

theorem param (sound : b.Sound) (name : Symbol) (ty : Ty) : (b.param name ty).Sound where
  defined := by
    show ((b.params ++ [b.next]) ++ b.code.map Binding.var).Perm
      (varsFrom 0 (b.vars ++ [_]).length)
    rw [List.length_append, List.length_singleton, varsFrom_concat, Nat.zero_add, List.append_assoc]
    exact (List.perm_append_comm.append_left _).trans
      (List.append_assoc .. ▸ sound.defined.append_right [b.next])
  reads before c after split v read :=
    (sound.reads before c after split v read).imp_left (List.mem_append_left [b.next])

theorem emitTyped (sound : b.Sound) (name : Symbol) {value : Expr} (ty : Ty)
    (inside : ∀ v ∈ value.reads, v.index < b.vars.length) : (b.emitTyped name value ty).Sound where
  defined := by
    rw [code_emitTyped, vars_emitTyped, List.length_append, List.length_singleton, varsFrom_concat,
      Nat.zero_add, List.map_append, ← List.append_assoc]
    exact sound.defined.append_right [b.next]
  reads before c after split v read := by
    rw [code_emitTyped] at split
    rcases List.eq_nil_or_concat after with rfl | ⟨between, last, rfl⟩
    · obtain ⟨rfl, same⟩ := List.append_inj' split rfl
      obtain rfl := List.singleton_inj.mp same
      exact sound.mem_iff.mpr (inside v read)
    · rw [List.concat_eq_append, ← List.cons_append, ← List.append_assoc] at split
      exact sound.reads before c between (List.append_inj' split rfl).1 v read

theorem step (sound : b.Sound) {s : Step} (inside : ∀ v ∈ s.reads, v.index < b.vars.length) :
    (b.step s).Sound := by
  cases s with
  | param name ty => exact sound.param name ty
  | beginBlock kind => exact sound.congr rfl (b.code_beginBlock kind) rfl
  | endBlock => exact sound.congr rfl b.code_endBlock rfl
  | emit name value => exact sound.emitTyped name _ inside
  | emitTyped name value ty => exact sound.emitTyped name ty inside
  | setAttr name value => exact sound.congr rfl rfl rfl

/-- What a step keeps, steps keep. -/
theorem run (sound : b.Sound) {known : List VarId} {steps : List Step}
    (reads : b.ReadsReturned known steps) (inside : ∀ v ∈ known, v.index < b.vars.length) :
    (b.run steps).Sound := by
  induction steps generalizing b known with
  | nil => exact sound
  | cons s steps ih =>
    exact ih (sound.step fun v read => inside v (reads.1 v read)) reads.2 (known_step inside s)

end Sound

/-- The finished function is well scoped if its result mentions what has been defined. -/
theorem Sound.wellScoped {b : Builder} (sound : b.Sound) {result : Expr} (ty : Ty)
    (inside : ∀ v ∈ result.reads, v.index < b.vars.length) : (b.finish result ty).WellScoped where
  params_lt v mem := sound.mem_iff.mp (.inl mem)
  bindings_lt c mem := by
    rw [← Expr.reads_eq_visited]
    refine ⟨sound.mem_iff.mp (.inr (List.mem_map_of_mem mem)), fun v read => ?_⟩
    obtain ⟨before, after, split⟩ := List.append_of_mem mem
    refine sound.mem_iff.mp ((sound.reads before c after split v read).imp_right fun bound => ?_)
    rw [bindings_finish] at split
    rw [split, List.map_append]
    exact List.mem_append_left _ bound
  result_lt := result.reads_eq_visited ▸ inside
  distinct := sound.defined.nodup_iff.mpr (nodup_varsFrom _ _)
  reads before c after split := c.value.reads_eq_visited ▸ sound.reads before c after split
  result v read := sound.mem_iff.mpr (inside v (result.reads_eq_visited ▸ read))

end Builder

/-! ### Blocks -/

open Builder (Emission)

/-- What a block holds, as emissions after `opening` openings. -/
def Block.emissions (opening : Nat) (block : Block) : List Emission :=
  block.bindings.map fun b => ⟨opening, block.kind, b⟩

/-- The blocks hold the emissions, in order.  None is empty, and each holds the emissions that
belong to one opening, which comes before `bound`. -/
structure Filed (blocks : List Block) (bound : Nat) (es : List Emission) : Prop where
  nonempty : ∀ block ∈ blocks, block.bindings ≠ []
  opened : ∃ openings : List Nat, openings.length = blocks.length ∧ openings.Pairwise (· < ·) ∧
    (∀ n ∈ openings, n < bound) ∧ (List.zipWith Block.emissions openings blocks).flatten = es

namespace Filed

variable {blocks : List Block} {bound : Nat} {es : List Emission}

theorem nil (bound : Nat) : Filed [] bound [] where
  nonempty := by simp
  opened := ⟨[], by simp⟩

theorem succ (filed : Filed blocks bound es) : Filed blocks (bound + 1) es := by
  obtain ⟨nonempty, openings, lengths, ascending, below, held⟩ := filed
  exact ⟨nonempty, openings, lengths, ascending, fun n mem => Nat.lt_succ_of_lt (below n mem), held⟩

/-- A further block that is not empty. -/
theorem concat (filed : Filed blocks bound es) {block : Block} (not_empty : block.bindings ≠ []) :
    Filed (blocks ++ [block]) (bound + 1) (es ++ block.emissions bound) := by
  obtain ⟨nonempty, openings, lengths, ascending, below, held⟩ := filed
  refine ⟨?_, openings ++ [bound], by simp [lengths], ?_, ?_, ?_⟩
  · rw [List.forall_mem_append]
    exact ⟨nonempty, by simpa using not_empty⟩
  · rw [List.pairwise_append]
    exact ⟨ascending, List.pairwise_singleton _ _, by simpa using below⟩
  · rw [List.forall_mem_append]
    exact ⟨fun n mem => Nat.lt_succ_of_lt (below n mem), by simp⟩
  · rw [List.zipWith_append lengths, List.flatten_append, held]
    simp

end Filed

namespace Builder

/-- The kind of the block that the next binding goes to. -/
def openKind (b : Builder) : BlockKind := (b.pending.map Block.kind).getD .plain

/-- The blocks of the builder hold the emissions, and the pending one those since it was opened. -/
def Files (b : Builder) (opening : Nat) (es : List Emission) : Prop :=
  ∃ earlier, Filed b.closed opening earlier ∧
    es = earlier ++ (b.pending.map (Block.emissions opening)).getD []

theorem openKind_step (b : Builder) (s : Step) : (b.step s).openKind = s.kindAfter b.openKind := by
  have emitted : ∀ name value ty, (b.emitTyped name value ty).openKind = b.openKind := by
    intro name value ty
    unfold openKind emitTyped
    cases b.pending <;> rfl
  cases s with
  | emit name value => exact emitted name value _
  | emitTyped name value ty => exact emitted name value ty
  | param name ty => rfl
  | beginBlock kind => rfl
  | endBlock => rfl
  | setAttr name value => rfl

namespace Files

variable {b : Builder} {opening : Nat} {es : List Emission}

theorem sealed (files : b.Files opening es) : Filed b.sealed (opening + 1) es := by
  obtain ⟨earlier, filed, rfl⟩ := files
  unfold Builder.sealed
  cases b.pending with
  | none => simpa using filed.succ
  | some block =>
    by_cases none_emitted : block.bindings = []
    · simpa [none_emitted, Block.emissions] using filed.succ
    · simpa [none_emitted] using filed.concat none_emitted

theorem emitTyped (files : b.Files opening es) (name : Symbol) (value : Expr) (ty : Ty) :
    (b.emitTyped name value ty).Files opening
      (es ++ [⟨opening, b.openKind, b.next, value⟩]) := by
  obtain ⟨earlier, filed, rfl⟩ := files
  refine ⟨earlier, filed, ?_⟩
  unfold openKind Builder.emitTyped
  cases b.pending with
  | none => simp [Block.emissions]
  | some block => simp [Block.emissions]

theorem step (files : b.Files opening es) (s : Step) :
    (b.step s).Files (s.openingAfter opening)
      (es ++ (s.value?.map fun value => ⟨opening, b.openKind, b.next, value⟩).toList) := by
  cases s with
  | emit name value => exact files.emitTyped name value _
  | emitTyped name value ty => exact files.emitTyped name value ty
  | beginBlock kind => exact ⟨es, files.sealed, rfl⟩
  | endBlock => exact ⟨es, files.sealed, rfl⟩
  | param name ty =>
    obtain ⟨earlier, filed, rfl⟩ := files
    exact ⟨earlier, filed, List.append_nil _⟩
  | setAttr name value =>
    obtain ⟨earlier, filed, rfl⟩ := files
    exact ⟨earlier, filed, List.append_nil _⟩

theorem run (files : b.Files opening es) (steps : List Step) :
    ∃ last, (b.run steps).Files last (es ++ b.emissions opening b.openKind steps) := by
  induction steps generalizing b opening es with
  | nil => exact ⟨opening, by simpa [emissions] using files⟩
  | cons s steps ih =>
    obtain ⟨last, files_all⟩ := ih (files.step s)
    rw [openKind_step, List.append_assoc] at files_all
    exact ⟨last, files_all⟩

end Files

/-- The type recorded for a binding is the one that its value has over the final table. -/
theorem varTy?_of_emit {before after : List Step} {name : Symbol} {value : Expr}
    (reads : empty.ReadsReturned [] (before ++ .emit name value :: after)) (result : Expr)
    (ty : Ty) :
    let f := (empty.run (before ++ .emit name value :: after)).finish result ty
    f.varTy? (empty.run before).next = some (f.typeOf value) := by
  have inside : ∀ v ∈ value.reads, v.index < (empty.run before).vars.length :=
    reads.lt (by simp)
  obtain ⟨more, grown⟩ := ((empty.run before).step (.emit name value)).vars_run after
  have table : (empty.run (before ++ .emit name value :: after)).vars =
      (empty.run before).vars ++ (⟨name, value.typeIn (empty.run before).vars⟩ :: more) := by
    rw [run_append, run_cons, ← grown]
    exact List.append_assoc ..
  show ((empty.run (before ++ .emit name value :: after)).vars[_]?).map VarDecl.ty =
    some (value.typeIn (empty.run (before ++ .emit name value :: after)).vars)
  rw [table, Expr.typeIn_append inside]
  simp [next]

/-- **A builder builds what it was asked for.**  Let steps, in any order, mention only variables
that were returned before, and let the result mention only variables that were returned.  Then the
finished function passes the scope check, and its bindings are those emitted, in order.  No block is
empty, and the blocks hold the bindings emitted since their opening, at the kind they were opened
with.  A variable bound by `emit` has the type that its value has in the finished function. -/
theorem builds_what_was_asked {steps : List Step} {result : Expr} (resultTy : Ty)
    (reads : empty.ReadsReturned [] steps)
    (result_reads : ∀ v ∈ result.reads, v ∈ empty.returned steps) :
    let f := (empty.run steps).finish result resultTy
    let asked := empty.emissions 0 .plain steps
    f.checkScope = .ok () ∧
      f.bindings = asked.map Emission.binding ∧
      (∀ block ∈ f.blocks, block.bindings ≠ []) ∧
      (∃ openings : List Nat, openings.length = f.blocks.length ∧ openings.Pairwise (· < ·) ∧
        (List.zipWith Block.emissions openings f.blocks).flatten = asked) ∧
      ∀ before name value after, steps = before ++ .emit name value :: after →
        f.varTy? (empty.run before).next = some (f.typeOf value) := by
  intro f asked
  have sound : (empty.run steps).Sound := Sound.empty.run reads (by simp)
  have starts : empty.Files 0 [] := ⟨[], Filed.nil 0, rfl⟩
  obtain ⟨last, files⟩ := starts.run steps
  obtain ⟨nonempty, openings, lengths, ascending, -, held⟩ := files.sealed
  refine ⟨?_, ?_, nonempty, ⟨openings, lengths, ascending, held⟩, ?_⟩
  · rw [Func.checkScope_eq_ok_iff_wellScoped]
    exact sound.wellScoped resultTy fun v read => lt_of_mem_returned (result_reads v read)
  · exact empty.code_run steps 0 .plain
  · rintro before name value after rfl
    exact varTy?_of_emit reads result resultTy

end Builder

/-- The second parameter comes in the middle of a block, two blocks are left empty, one is closed
twice, and the first and the last binding are emitted outside of any block. -/
def Sample.interleaved : List Builder.Step :=
  [.param ⟨1⟩ (.tuple [.tensor, .int]),
    .emit ⟨2⟩ (.proj (.var ⟨0⟩) 0),
    .beginBlock .dataflow,
    .beginBlock .plain,
    .beginBlock .dataflow,
    .emitTyped ⟨3⟩ (.tuple [.var ⟨1⟩, .var ⟨0⟩]) .object,
    .param ⟨4⟩ .int,
    .emit ⟨5⟩ (.tuple [.var ⟨3⟩, .proj (.var ⟨2⟩) 1]),
    .endBlock,
    .endBlock,
    .setAttr ⟨6⟩ (.bool true),
    .emit .empty (.proj (.var ⟨4⟩) 0)]

namespace Builder

open Sample in
/-- The three blocks of a function that is built in a disorderly way; the type of variable 5 is
that of the first field of variable 4. -/
theorem builds_what_was_asked_interleaved : ∃ f,
    f = (empty.run interleaved).finish (.tuple [.var ⟨5⟩, .var ⟨3⟩]) .object ∧
      empty.ReadsReturned [] interleaved ∧
      (∀ v ∈ (Expr.tuple [.var ⟨5⟩, .var ⟨3⟩]).reads, v ∈ empty.returned interleaved) ∧
      f.checkScope = .ok () ∧
      f.blocks.map (fun block => (block.kind, block.bindings.map Binding.var)) =
        [(.plain, [⟨1⟩]), (.dataflow, [⟨2⟩, ⟨4⟩]), (.plain, [⟨5⟩])] ∧
      f.varTy? ⟨5⟩ = some (f.typeOf (.proj (.var ⟨4⟩) 0)) := by
  have reads : empty.ReadsReturned [] interleaved := by decide
  have result_reads : ∀ v ∈ (Expr.tuple [.var ⟨5⟩, .var ⟨3⟩]).reads,
      v ∈ empty.returned interleaved := by decide
  obtain ⟨passes, -, -, -, typed⟩ := builds_what_was_asked .object reads result_reads
  have last : interleaved = interleaved.take 11 ++ [.emit .empty (.proj (.var ⟨4⟩) 0)] := rfl
  exact ⟨_, rfl, reads, result_reads, passes, rfl, typed _ _ _ _ last⟩

end Builder

end ParamStream
