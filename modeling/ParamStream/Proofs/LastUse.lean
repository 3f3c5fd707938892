import Mathlib.Data.List.Nodup
import ParamStream.Proofs.OutputTuple
import ParamStream.Proofs.Sequences
import ParamStream.Streaming.LastUse

/-!
# Where variables die

The scan takes the blocks in order and each block backwards, so it meets bindings in an order that
is neither that of the program nor its reverse.  What it records is nevertheless a statement about
the program: a tracked variable dies at the last binding, other than the output's, that reads it,
and at its own binding if there is none.

The argument has two halves.  `Func.dyingAt_scanned` describes the scan in its own order: a
binding takes what it touches and no binding scanned before it has touched.  For a function that
follows the calling convention, all bindings that touch a variable stand in one block, and there
the scan order is the reverse of program order; `Func.Follows.dyingAt_lastUses` draws the
conclusion.
-/

namespace ParamStream

/-- The variables that a binding reads, then the one that it binds. -/
def Binding.touches (b : Binding) : List VarId := b.value.reads ++ [b.var]

theorem Binding.mem_touches {b : Binding} {v : VarId} :
    v ∈ b.touches ↔ v ∈ b.value.reads ∨ v = b.var := by
  simp [touches]

namespace LastUses

/-- Extraction finds the tracked variables of the list, each once, in order of occurrence. -/
theorem extract_fst (tracked vs : List VarId) :
    (extract tracked vs).1 = (vs.filter (· ∈ tracked)).eraseDups := by
  induction vs generalizing tracked with
  | nil => rfl
  | cons v vs ih =>
    by_cases mem : v ∈ tracked
    · simp only [extract, mem, if_true, List.filter_cons_of_pos, decide_true, ih,
        List.eraseDups_cons, List.filter_filter]
      congr 3
      funext x
      by_cases same : x = v <;> simp [same]
    · simp only [extract, mem, if_false, ih]
      rw [List.filter_cons_of_neg (by simpa using mem)]

/-- Extraction leaves the tracked variables that are not in the list. -/
theorem extract_snd (tracked vs : List VarId) :
    (extract tracked vs).2 = tracked.filter (· ∉ vs) := by
  induction vs generalizing tracked with
  | nil => exact (List.filter_eq_self.mpr (by simp)).symm
  | cons v vs ih =>
    by_cases mem : v ∈ tracked
    · simp only [extract, mem, if_true, ih, List.filter_filter]
      congr 1
      funext x
      by_cases same : x = v <;> simp [same]
    · simp only [extract, mem, if_false, ih]
      refine List.filter_congr fun x x_mem => ?_
      have differ : x ≠ v := fun same => mem (same ▸ x_mem)
      simp [differ]

/-! ### The scan in its own order -/

/-- Scan bindings one after the other. -/
def scanAll (output : VarId) (s : Scan) (bs : List Binding) : Scan :=
  bs.foldl (fun s b => scanBinding output b s) s

theorem scanAll_append (output : VarId) (s : Scan) (bs cs : List Binding) :
    scanAll output s (bs ++ cs) = scanAll output (scanAll output s bs) cs := by
  simp [scanAll]

theorem scanBlock_eq (output : VarId) (s : Scan) (block : Block) :
    scanBlock output s block = scanAll output s block.bindings.reverse := by
  simp [scanBlock, scanAll]

/-- What is still tracked after scanning has been touched by none of the bindings scanned. -/
theorem tracked_scanAll (output : VarId) (s : Scan) (bs : List Binding) :
    (scanAll output s bs).tracked =
      s.tracked.filter fun x => ∀ b ∈ bs, b.var ≠ output → x ∉ b.touches := by
  induction bs generalizing s with
  | nil => exact (List.filter_eq_self.mpr (by simp)).symm
  | cons b bs ih =>
    have step : scanAll output s (b :: bs) = scanAll output (scanBinding output b s) bs := rfl
    rw [step, ih]
    by_cases is_output : b.var = output
    · simp [scanBinding, is_output]
    · simp only [scanBinding, is_output, if_false, extract_snd, List.filter_filter,
        List.forall_mem_cons]
      congr 1
      funext x
      rw [Bool.and_comm]
      simp [Binding.touches, is_output]

/-- Scanning bindings of other variables does not change what dies at `v`. -/
theorem dyingAt_scanAll_of_notMem {output v : VarId} {bs : List Binding}
    (absent : v ∉ bs.map Binding.var) (s : Scan) :
    (scanAll output s bs).found.dyingAt v = s.found.dyingAt v := by
  induction bs generalizing s with
  | nil => rfl
  | cons b bs ih =>
    simp only [List.map_cons, List.mem_cons, not_or] at absent
    have step : scanAll output s (b :: bs) = scanAll output (scanBinding output b s) bs := rfl
    rw [step, ih absent.2]
    by_cases is_output : b.var = output
    · simp [scanBinding, is_output]
    · simp [scanBinding, is_output, dyingAt, Assoc.get?_insert, Ne.symm absent.1]

/-- The binding of the output is passed over. -/
theorem dyingAt_scanAll_output (output : VarId) (s : Scan) (bs : List Binding) :
    (scanAll output s bs).found.dyingAt output = s.found.dyingAt output := by
  induction bs generalizing s with
  | nil => rfl
  | cons b bs ih =>
    have step : scanAll output s (b :: bs) = scanAll output (scanBinding output b s) bs := rfl
    rw [step, ih]
    by_cases is_output : b.var = output
    · simp [scanBinding, is_output]
    · simp [scanBinding, is_output, dyingAt, Assoc.get?_insert]

/-- At a binding die the tracked variables that it touches and that no binding scanned before it
has touched. -/
theorem dyingAt_scanAll {output : VarId} {earlier later : List Binding} {d : Binding}
    (ordinary : d.var ≠ output) (once : d.var ∉ later.map Binding.var) (s : Scan) :
    (scanAll output s (earlier ++ d :: later)).found.dyingAt d.var =
      (d.touches.filter fun x =>
        x ∈ s.tracked ∧ ∀ b ∈ earlier, b.var ≠ output → x ∉ b.touches).eraseDups := by
  have step : scanAll output s (earlier ++ d :: later) =
      scanAll output (scanBinding output d (scanAll output s earlier)) later :=
    scanAll_append output s earlier (d :: later)
  rw [step, dyingAt_scanAll_of_notMem once]
  simp only [scanBinding, ordinary, if_false, dyingAt, Assoc.get?_insert_self, Option.getD_some,
    extract_fst, tracked_scanAll]
  congr 2
  funext x
  simp

end LastUses

namespace Func

/-- The bindings in the order of the scan: blocks in order, each from its end. -/
def scanOrder (f : Func) : List Binding := f.blocks.flatMap fun block => block.bindings.reverse

theorem lastUses_eq_scanAll (f : Func) (output : VarId) (tracked : List VarId) :
    f.lastUses output tracked =
      (LastUses.scanAll output ⟨tracked, {}⟩ f.scanOrder).found := by
  have blocks : ∀ (blocks : List Block) (s : LastUses.Scan),
      blocks.foldl (LastUses.scanBlock output) s =
        LastUses.scanAll output s (blocks.flatMap fun block => block.bindings.reverse) := by
    intro blocks
    induction blocks with
    | nil => intro s; rfl
    | cons block blocks ih =>
      intro s
      rw [List.foldl_cons, ih, List.flatMap_cons, LastUses.scanAll_append,
        LastUses.scanBlock_eq]
  rw [lastUses, blocks]
  rfl

@[simp] theorem dyingAt_lastUses_output (f : Func) (output : VarId) (tracked : List VarId) :
    (f.lastUses output tracked).dyingAt output = [] := by
  rw [lastUses_eq_scanAll, LastUses.dyingAt_scanAll_output]
  rfl

/-! ### The scan in program order -/

namespace Follows

variable {f : Func} {c : Convention}

/-- What a binding touches, the parameter aside, is bound by then. -/
theorem bound_of_touches (follows : f.Follows c) {before after : List Binding} {d : Binding}
    (split : f.bindings = before ++ d :: after) {x : VarId} (touched : x ∈ d.touches)
    (not_param : x ≠ c.param) : x ∈ (before ++ [d]).map Binding.var := by
  rcases Binding.mem_touches.mp touched with read | rfl
  · have known := (split ▸ follows.ordered).reads_defined x read
    have bound : x ∈ before.map Binding.var := by simpa [not_param] using known
    simp only [List.map_append, List.mem_append]
    exact .inl bound
  · simp

/-- What a binding touches, the parameter aside, is not bound again after it. -/
theorem notMem_after_of_touches (follows : f.Follows c) {before after : List Binding}
    {d : Binding} (split : f.bindings = before ++ d :: after) {x : VarId}
    (touched : x ∈ d.touches) (not_param : x ≠ c.param) : x ∉ after.map Binding.var := by
  intro again
  have nodup := follows.ordered.nodup
  rw [split, List.append_cons, List.map_append, List.nodup_append] at nodup
  exact nodup.2.2 x (follows.bound_of_touches split touched not_param) x again rfl

/-- What an ordinary binding touches, the parameter aside, is bound in its block. -/
theorem home_of_touches (follows : f.Follows c) {block : Block} (block_mem : block ∈ f.blocks)
    {b : Binding} (mem : b ∈ block.bindings) (ordinary : b.var ≠ c.output) {x : VarId}
    (touched : x ∈ b.touches) (not_param : x ≠ c.param) :
    x ∈ block.bindings.map Binding.var := by
  rcases Binding.mem_touches.mp touched with read | rfl
  · exact follows.at_home block block_mem b mem ordinary x read not_param
  · exact List.mem_map_of_mem mem

/-- Ordinary bindings that touch the same variable, other than the parameter, do not stand in
different blocks. -/
theorem not_touches_elsewhere (follows : f.Follows c) {front back : List Block} {block : Block}
    (blocks : f.blocks = front ++ block :: back) {x : VarId}
    (home : x ∈ block.bindings.map Binding.var) (not_param : x ≠ c.param) {other : Block}
    (other_mem : other ∈ front ++ back) {b : Binding} (mem : b ∈ other.bindings)
    (ordinary : b.var ≠ c.output) : x ∉ b.touches := by
  intro touched
  have other_block : other ∈ f.blocks := by
    rw [blocks]
    rcases List.mem_append.mp other_mem with mem | mem
    · exact List.mem_append_left _ mem
    · exact List.mem_append_right _ (List.mem_cons_of_mem _ mem)
  have elsewhere := follows.home_of_touches other_block mem ordinary touched not_param
  have nodup := follows.ordered.nodup
  rw [bindings, blocks, List.flatMap_append, List.flatMap_cons, List.map_append, List.map_append,
    List.nodup_append, List.nodup_append] at nodup
  obtain ⟨-, ⟨-, -, apart_back⟩, apart_front⟩ := nodup
  have in_flatMap : ∀ {blocks : List Block}, other ∈ blocks →
      x ∈ (blocks.flatMap Block.bindings).map Binding.var := by
    intro blocks mem
    obtain ⟨b, b_mem, same⟩ := List.mem_map.mp elsewhere
    exact List.mem_map.mpr ⟨b, List.mem_flatMap.mpr ⟨other, mem, b_mem⟩, same⟩
  rcases List.mem_append.mp other_mem with mem | mem
  · exact apart_front x (in_flatMap mem) x (List.mem_append_left _ home) rfl
  · exact apart_back x home x (in_flatMap mem) rfl

/-- **Last use.**  At an ordinary binding die the tracked variables that it touches and that no
ordinary binding after it reads, in visit order, its own variable last. -/
theorem dyingAt_lastUses (follows : f.Follows c) {tracked : List VarId}
    (param_untracked : c.param ∉ tracked) {before after : List Binding} {d : Binding}
    (split : f.bindings = before ++ d :: after) (ordinary : d.var ≠ c.output) :
    (f.lastUses c.output tracked).dyingAt d.var =
      (d.touches.filter fun x =>
        x ∈ tracked ∧ ∀ b ∈ after, b.var ≠ c.output → x ∉ b.value.reads).eraseDups := by
  obtain ⟨front, block, back, upper, lower, blocks, inner, before_eq, after_eq⟩ :=
    List.exists_part_of_flatMap_eq split
  have d_mem : d ∈ block.bindings := by simp [inner]
  have scan : f.scanOrder =
      ((front.flatMap fun block => block.bindings.reverse) ++ lower.reverse) ++
        d :: (upper.reverse ++ back.flatMap fun block => block.bindings.reverse) := by
    simp [scanOrder, blocks, inner]
  have once : d.var ∉
      (upper.reverse ++ back.flatMap fun block => block.bindings.reverse).map Binding.var := by
    have nodup := follows.ordered.nodup
    rw [split, List.map_append, List.map_cons, List.nodup_append, List.nodup_cons] at nodup
    obtain ⟨-, ⟨not_after, -⟩, apart⟩ := nodup
    rw [List.map_append, List.mem_append, not_or]
    constructor
    · intro again
      have in_before : d.var ∈ before.map Binding.var := by
        rw [before_eq, List.map_append, List.mem_append]
        exact .inr (by simpa using again)
      exact apart d.var in_before d.var (by simp) rfl
    · intro again
      refine not_after ?_
      rw [after_eq, List.map_append, List.mem_append]
      exact .inr (by simpa using again)
  rw [lastUses_eq_scanAll, scan, LastUses.dyingAt_scanAll ordinary once]
  -- The two conditions agree on what `d` touches, since all of that is at home in one block.
  congr 1
  refine List.filter_congr fun x touched => ?_
  rw [decide_eq_decide]
  refine and_congr_right fun x_tracked => ?_
  have not_param : x ≠ c.param := fun same => param_untracked (same ▸ x_tracked)
  have block_mem : block ∈ f.blocks := by simp [blocks]
  have home := follows.home_of_touches block_mem d_mem ordinary touched not_param
  constructor
  · intro untouched b mem b_ordinary read
    rw [after_eq] at mem
    rcases List.mem_append.mp mem with mem | mem
    · exact untouched b (by simp [mem]) b_ordinary (Binding.mem_touches.mpr (.inl read))
    · obtain ⟨other, other_mem, mem⟩ := List.mem_flatMap.mp mem
      exact follows.not_touches_elsewhere blocks home not_param
        (List.mem_append_right _ other_mem) mem b_ordinary (Binding.mem_touches.mpr (.inl read))
  · intro unread b mem b_ordinary b_touches
    rcases List.mem_append.mp mem with mem | mem
    · obtain ⟨other, other_mem, mem⟩ := List.mem_flatMap.mp mem
      exact follows.not_touches_elsewhere blocks home not_param
        (List.mem_append_left _ other_mem) (List.mem_reverse.mp mem) b_ordinary b_touches
    · have b_after : b ∈ after := by
        rw [after_eq]
        exact List.mem_append_left _ (List.mem_reverse.mp mem)
      rcases Binding.mem_touches.mp b_touches with read | rfl
      · exact unread b b_after b_ordinary read
      · exact follows.notMem_after_of_touches split touched not_param
          (List.mem_map_of_mem b_after)

theorem mem_dyingAt_lastUses (follows : f.Follows c) {tracked : List VarId}
    (param_untracked : c.param ∉ tracked) {before after : List Binding} {d : Binding}
    (split : f.bindings = before ++ d :: after) (ordinary : d.var ≠ c.output) {x : VarId} :
    x ∈ (f.lastUses c.output tracked).dyingAt d.var ↔
      x ∈ d.touches ∧ x ∈ tracked ∧ ∀ b ∈ after, b.var ≠ c.output → x ∉ b.value.reads := by
  rw [follows.dyingAt_lastUses param_untracked split ordinary]
  simp

/-- A variable dies at one binding only, and there once. -/
theorem nodup_dying (follows : f.Follows c) {tracked : List VarId}
    (param_untracked : c.param ∉ tracked) :
    (f.bindings.flatMap fun b => (f.lastUses c.output tracked).dyingAt b.var).Nodup := by
  rw [List.nodup_flatMap]
  constructor
  · intro d mem
    by_cases ordinary : d.var = c.output
    · simp [ordinary]
    · obtain ⟨before, after, split⟩ := List.append_of_mem mem
      rw [follows.dyingAt_lastUses param_untracked split ordinary]
      exact List.nodup_eraseDups _
  · refine List.pairwise_of_forall_split fun before d after split e mem => ?_
    show List.Disjoint _ _
    rw [List.disjoint_left]
    intro x dies_at_d dies_at_e
    by_cases d_ordinary : d.var = c.output
    · simp [d_ordinary] at dies_at_d
    by_cases e_ordinary : e.var = c.output
    · simp [e_ordinary] at dies_at_e
    obtain ⟨between, beyond, rfl⟩ := List.append_of_mem mem
    have split' : f.bindings = (before ++ d :: between) ++ e :: beyond := by
      rw [split]
      simp
    obtain ⟨d_touches, x_tracked, unread⟩ :=
      (follows.mem_dyingAt_lastUses param_untracked split d_ordinary).mp dies_at_d
    obtain ⟨e_touches, -⟩ :=
      (follows.mem_dyingAt_lastUses param_untracked split' e_ordinary).mp dies_at_e
    have not_param : x ≠ c.param := fun same => param_untracked (same ▸ x_tracked)
    rcases Binding.mem_touches.mp e_touches with read | rfl
    · exact unread e (by simp) e_ordinary read
    · exact follows.notMem_after_of_touches split d_touches not_param (by simp)

/-- Every tracked variable that an ordinary binding binds dies somewhere. -/
theorem exists_dyingAt (follows : f.Follows c) {tracked : List VarId}
    (param_untracked : c.param ∉ tracked) {x : VarId} (x_tracked : x ∈ tracked)
    (bound : ∃ b ∈ f.bindings, b.var = x ∧ b.var ≠ c.output) :
    ∃ d ∈ f.bindings, d.var ≠ c.output ∧ x ∈ (f.lastUses c.output tracked).dyingAt d.var := by
  obtain ⟨b, b_mem, rfl, b_ordinary⟩ := bound
  obtain ⟨before, d, after, split, ⟨ordinary, touched⟩, last⟩ :=
    List.exists_last (p := fun d : Binding => d.var ≠ c.output ∧ b.var ∈ d.touches)
      ⟨b, b_mem, b_ordinary, Binding.mem_touches.mpr (.inr rfl)⟩
  refine ⟨d, by simp [split], ordinary, ?_⟩
  rw [follows.mem_dyingAt_lastUses param_untracked split ordinary]
  exact ⟨touched, x_tracked, fun e mem e_ordinary read =>
    last e mem ⟨e_ordinary, Binding.mem_touches.mpr (.inl read)⟩⟩

end Follows

end Func

end ParamStream
