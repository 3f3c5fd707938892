import Mathlib.Data.List.Perm.Basic
import ParamStream.Proofs.Plan
import ParamStream.Proofs.Subexpressions

/-!
# One death for each tracked variable

The scan for last uses keeps one set of variables for the whole function and takes a variable out
of it where it meets the variable first.  What it records can be said without the scan.  The
*readers* of a variable are the bindings other than the output's in whose values it stands; a
tracked variable dies at the last of its readers, and at its own binding if it has none.

Since a variable has one last reader, it is listed once: the lists of all bindings together are a
rearrangement of the tracked variables.

## Main definitions

* `Func.readers` — the ordinary bindings that read a variable, in program order.

## Main statements

* `Func.Follows.dyingAt_eq_readers` — the list of one binding;
* `Func.Follows.dying_perm` — the lists of all bindings;
* `Func.dies_with_last_reader`.
-/

namespace ParamStream

/-- Lists kept under distinct keys, one after the other, are the lists read back key by key. -/
theorem Assoc.flatMap_snd_eq {κ α : Type} [DecidableEq κ] {m : Assoc κ (List α)}
    (distinct : m.keys.Nodup) :
    m.flatMap Prod.snd = m.keys.flatMap fun k => (m.get? k).getD [] := by
  rw [keys, List.flatMap_map]
  refine List.flatMap_congr fun entry mem => ?_
  rw [(mem_iff_get? distinct).mp mem, Option.getD_some]

/-! ### Which bindings have a list -/

namespace LastUses

theorem contains_iff_mem_keys {u : LastUses} {v : VarId} :
    u.contains v = true ↔ v ∈ Assoc.keys u.dying := by
  rw [contains, Option.isSome_iff_ne_none, ne_eq, Assoc.get?_eq_none_iff, not_not]

/-- A binding scanned has a list afterwards, unless it is that of the output. -/
theorem mem_keys_scanBinding {output : VarId} {b : Binding} {s : Scan} {v : VarId} :
    v ∈ Assoc.keys (scanBinding output b s).found.dying ↔
      v ∈ Assoc.keys s.found.dying ∨ v = b.var ∧ b.var ≠ output := by
  by_cases is_output : b.var = output
  · simp [scanBinding, is_output]
  · simp only [scanBinding, is_output, if_false, Assoc.keys_insert]
    by_cases known : b.var ∈ Assoc.keys s.found.dying
    · rw [if_pos known]
      refine ⟨.inl, fun old_or_new => ?_⟩
      rcases old_or_new with old | ⟨rfl, -⟩
      · exact old
      · exact known
    · simp [if_neg known, is_output]

/-- The bindings scanned have lists, those of the output aside. -/
theorem mem_keys_scanAll {output : VarId} {s : Scan} {bs : List Binding} {v : VarId} :
    v ∈ Assoc.keys (scanAll output s bs).found.dying ↔
      v ∈ Assoc.keys s.found.dying ∨ v ∈ bs.map Binding.var ∧ v ≠ output := by
  induction bs generalizing s with
  | nil => simp [scanAll]
  | cons b bs ih =>
    have step : scanAll output s (b :: bs) = scanAll output (scanBinding output b s) bs := rfl
    rw [step, ih, mem_keys_scanBinding, List.map_cons, List.mem_cons]
    grind

/-- No binding is given two lists. -/
theorem nodup_keys_scanAll {output : VarId} {s : Scan} (bs : List Binding)
    (distinct : (Assoc.keys s.found.dying).Nodup) :
    (Assoc.keys (scanAll output s bs).found.dying).Nodup := by
  induction bs generalizing s with
  | nil => exact distinct
  | cons b bs ih =>
    refine ih (s := scanBinding output b s) ?_
    by_cases is_output : b.var = output
    · simpa [scanBinding, is_output] using distinct
    · simp only [scanBinding, is_output, if_false]
      exact Assoc.nodup_keys_insertAll [(b.var, _)] distinct

end LastUses

namespace Func

theorem contains_lastUses_iff {f : Func} {output : VarId} {tracked : List VarId} {v : VarId} :
    (f.lastUses output tracked).contains v = true ↔
      v ∈ f.bindings.map Binding.var ∧ v ≠ output := by
  have scanned : v ∈ f.scanOrder.map Binding.var ↔ v ∈ f.bindings.map Binding.var := by
    simp [scanOrder, bindings, List.mem_flatMap]
  rw [LastUses.contains_iff_mem_keys, lastUses_eq_scanAll, LastUses.mem_keys_scanAll, scanned]
  simp [Assoc.keys]

theorem nodup_keys_lastUses (f : Func) (output : VarId) (tracked : List VarId) :
    (Assoc.keys (f.lastUses output tracked).dying).Nodup := by
  rw [lastUses_eq_scanAll]
  exact LastUses.nodup_keys_scanAll _ (by simp [Assoc.keys])

/-! ### Readers -/

/-- The bindings other than that of the output that read `x`, in program order. -/
def readers (f : Func) (output x : VarId) : List Binding :=
  f.bindings.filter fun b => b.var ≠ output ∧ x ∈ b.value.visited

/-- No reader of `x` is among the bindings. -/
theorem filter_readers_eq_nil_iff {bs : List Binding} {output x : VarId} :
    (bs.filter fun b => b.var ≠ output ∧ x ∈ b.value.visited) = [] ↔
      ∀ b ∈ bs, b.var ≠ output → x ∉ b.value.visited := by
  simp [List.filter_eq_nil_iff]

namespace Follows

variable {f : Func} {c : Convention} {before after : List Binding} {d : Binding} {x : VarId}

/-- A binding that reads `x` is the last reader exactly if no ordinary binding after it reads
`x`. -/
theorem last_reader_iff (follows : f.Follows c) (split : f.bindings = before ++ d :: after)
    (ordinary : d.var ≠ c.output) (read : x ∈ d.value.visited) :
    (f.readers c.output x).getLast?.map Binding.var = some d.var ↔
      ∀ b ∈ after, b.var ≠ c.output → x ∉ b.value.visited := by
  have from_d : f.readers c.output x =
      (before.filter fun b => b.var ≠ c.output ∧ x ∈ b.value.visited) ++
        d :: after.filter fun b => b.var ≠ c.output ∧ x ∈ b.value.visited := by
    rw [readers, split, List.filter_append, List.filter_cons_of_pos (by simp [ordinary, read])]
  have later_mem : ∀ e ∈ after.filter fun b => b.var ≠ c.output ∧ x ∈ b.value.visited, e ∈ after :=
    fun e mem => (List.mem_filter.mp mem).1
  rw [from_d, ← filter_readers_eq_nil_iff]
  generalize (after.filter fun b => b.var ≠ c.output ∧ x ∈ b.value.visited) = later at later_mem ⊢
  rcases List.eq_nil_or_concat later with rfl | ⟨front, e, rfl⟩
  · simp
  · -- A later reader is another binding, so its variable is another one.
    have differ : e.var ≠ d.var := by
      have nodup := follows.ordered.nodup
      rw [split, List.map_append, List.map_cons, List.nodup_append, List.nodup_cons] at nodup
      intro same
      exact nodup.2.1.1 (same ▸ List.mem_map_of_mem (later_mem e (by simp)))
    simp [List.getLast?_append, List.getLast?_cons, differ]

/-- Up to its own binding, nothing reads a variable. -/
theorem var_notMem_visited (follows : f.Follows c) (split : f.bindings = before ++ d :: after)
    {b : Binding} (mem : b ∈ before ++ [d]) : d.var ∉ b.value.visited := by
  rw [← Expr.reads_eq_visited]
  intro read
  have d_mem : d ∈ f.bindings := split ▸ by simp
  obtain ⟨earlier, between, at_b⟩ := List.append_of_mem mem
  have at_b' : f.bindings = earlier ++ b :: (between ++ after) := by
    rw [split, List.append_cons, at_b]
    simp
  have bound : d.var ∈ earlier.map Binding.var := by
    have known := (at_b' ▸ follows.ordered).reads_defined d.var read
    simpa [follows.var_ne_param d d_mem] using known
  have nodup := follows.ordered.nodup
  rw [split, List.append_cons, List.map_append, List.nodup_append] at nodup
  have once := nodup.1
  rw [at_b, List.map_append, List.nodup_append] at once
  refine once.2.2 d.var bound d.var ?_ rfl
  -- The binding of the variable is the last one of the part that `b` lies in.
  have d_last : d ∈ b :: between := by
    have last : (b :: between).getLast? = some d := by
      have whole : (earlier ++ b :: between).getLast? = some d := by rw [← at_b]; simp
      simpa [List.getLast?_append, List.getLast?_cons] using whole
    exact List.mem_of_getLast? last
  exact List.mem_map_of_mem d_last

/-- A variable has no readers exactly if no ordinary binding after its own reads it. -/
theorem readers_eq_nil_iff (follows : f.Follows c) (split : f.bindings = before ++ d :: after) :
    f.readers c.output d.var = [] ↔
      ∀ b ∈ after, b.var ≠ c.output → d.var ∉ b.value.visited := by
  rw [readers, filter_readers_eq_nil_iff, split]
  constructor
  · intro unread b mem
    exact unread b (by simp [mem])
  · intro unread b mem ordinary
    rw [List.append_cons, List.mem_append] at mem
    rcases mem with early | late
    · exact follows.var_notMem_visited split early
    · exact unread b late ordinary

/-- **The list of a binding.**  First the tracked variables whose last reader it is, in visit order,
then its own variable, if that is tracked and has no readers. -/
theorem dyingAt_eq_readers (follows : f.Follows c) {tracked : List VarId}
    (param_untracked : c.param ∉ tracked) (mem : d ∈ f.bindings) (ordinary : d.var ≠ c.output) :
    (f.lastUses c.output tracked).dyingAt d.var =
      (d.value.visited.eraseDups.filter fun x =>
        x ∈ tracked ∧ (f.readers c.output x).getLast?.map Binding.var = some d.var) ++
      if d.var ∈ tracked ∧ f.readers c.output d.var = [] then [d.var] else [] := by
  obtain ⟨before, after, split⟩ := List.append_of_mem mem
  rw [follows.dyingAt_lastUses param_untracked split ordinary, Binding.touches,
    List.filter_append, List.eraseDups_append, List.eraseDups_filter]
  simp only [Expr.reads_eq_visited]
  have own_unread : d.var ∉ d.value.visited := follows.var_notMem_visited split (by simp)
  congr 1
  · refine List.filter_congr fun x read => ?_
    rw [List.mem_eraseDups] at read
    rw [decide_eq_decide, follows.last_reader_iff split ordinary read]
  · have unread_iff := follows.readers_eq_nil_iff split
    by_cases dies : d.var ∈ tracked ∧ f.readers c.output d.var = []
    · rw [if_pos dies, List.filter_cons_of_pos (by simpa [← unread_iff] using dies)]
      simp [List.removeAll, own_unread, List.eraseDups_cons]
    · rw [if_neg dies, List.filter_cons_of_neg (by simpa [← unread_iff] using dies)]
      simp [List.removeAll]

/-- **All lists.**  The tracked variables, each of them once. -/
theorem dying_perm (follows : f.Follows c) {tracked : List VarId} (distinct : tracked.Nodup)
    (param_untracked : c.param ∉ tracked)
    (bound : ∀ v ∈ tracked, ∃ b ∈ f.bindings, b.var = v ∧ b.var ≠ c.output) :
    (f.bindings.flatMap fun b => (f.lastUses c.output tracked).dyingAt b.var).Perm tracked := by
  rw [List.perm_ext_iff_of_nodup (follows.nodup_dying param_untracked) distinct]
  intro x
  rw [List.mem_flatMap]
  constructor
  · rintro ⟨b, mem, dies⟩
    by_cases is_output : b.var = c.output
    · simp [is_output] at dies
    · obtain ⟨before, after, split⟩ := List.append_of_mem mem
      exact ((follows.mem_dyingAt_lastUses param_untracked split is_output).mp dies).2.1
  · intro x_tracked
    obtain ⟨d, d_mem, -, dies⟩ :=
      follows.exists_dyingAt param_untracked x_tracked (bound x x_tracked)
    exact ⟨d, d_mem, dies⟩

/-- The lists recorded are those of the bindings. -/
theorem releases_lastUses (follows : f.Follows c) (tracked : List VarId) :
    (f.lastUses c.output tracked).releases =
      (f.bindings.flatMap fun b => (f.lastUses c.output tracked).dyingAt b.var).length := by
  have distinct := f.nodup_keys_lastUses c.output tracked
  have keys : (Assoc.keys (f.lastUses c.output tracked).dying).Perm
      ((f.bindings.map Binding.var).filter (· ≠ c.output)) := by
    rw [List.perm_ext_iff_of_nodup distinct (follows.ordered.nodup.filter _)]
    intro v
    rw [← LastUses.contains_iff_mem_keys, contains_lastUses_iff]
    simp
  -- The output has no list, so leaving it out changes nothing.
  have without_output : ∀ vs : List VarId,
      (vs.filter (· ≠ c.output)).flatMap (f.lastUses c.output tracked).dyingAt =
        vs.flatMap (f.lastUses c.output tracked).dyingAt := by
    intro vs
    induction vs with
    | nil => rfl
    | cons v vs ih =>
      by_cases is_output : v = c.output
      · simpa [is_output] using ih
      · rw [List.filter_cons_of_pos (by simpa using is_output), List.flatMap_cons,
          List.flatMap_cons, ih]
  have lists : (f.lastUses c.output tracked).dying.flatMap Prod.snd =
      (Assoc.keys (f.lastUses c.output tracked).dying).flatMap
        (f.lastUses c.output tracked).dyingAt := Assoc.flatMap_snd_eq distinct
  rw [LastUses.releases, lists, (keys.flatMap_right _).length_eq, without_output,
    List.flatMap_map]

end Follows

/-- **Every tracked variable dies with its last reader.**  At a binding other than the output's die
the tracked variables whose last reader it is, in the order in which it reads them first, and then
its own variable, if that is tracked and has no readers.  All lists together hold every tracked
variable once, and every binding has a list but that of the output. -/
theorem dies_with_last_reader {f : Func} {c : Convention} {i : Interface} (intermediates : Bool)
    (convention : f.convention = .ok c) (interface : f.interface c.param c.output = .ok i) :
    (∀ d ∈ f.bindings, d.var ≠ c.output →
      (f.lastUses c.output (f.tracked c i intermediates)).dyingAt d.var =
        (d.value.visited.eraseDups.filter fun x =>
          x ∈ f.tracked c i intermediates ∧
            (f.readers c.output x).getLast?.map Binding.var = some d.var) ++
        if d.var ∈ f.tracked c i intermediates ∧ f.readers c.output d.var = [] then [d.var]
        else []) ∧
      (f.tracked c i intermediates).Nodup ∧
      (f.bindings.flatMap fun d =>
        (f.lastUses c.output (f.tracked c i intermediates)).dyingAt d.var).Perm
          (f.tracked c i intermediates) ∧
      (f.lastUses c.output (f.tracked c i intermediates)).releases =
        (f.tracked c i intermediates).length ∧
      ∀ v, (f.lastUses c.output (f.tracked c i intermediates)).contains v = true ↔
        (∃ d ∈ f.bindings, d.var = v) ∧ v ≠ c.output := by
  have follows := Follows.of_convention convention
  have distinct : (f.tracked c i intermediates).Nodup := List.nodup_eraseDups _
  have bound : ∀ v ∈ f.tracked c i intermediates,
      ∃ b ∈ f.bindings, b.var = v ∧ b.var ≠ c.output :=
    fun v mem => bound_of_mem_tracked interface mem
  have param_untracked : c.param ∉ f.tracked c i intermediates := by
    intro mem
    obtain ⟨b, b_mem, is_param, -⟩ := bound c.param mem
    exact follows.var_ne_param b b_mem is_param
  have once := follows.dying_perm distinct param_untracked bound
  refine ⟨fun d mem ordinary => follows.dyingAt_eq_readers param_untracked mem ordinary, distinct,
    once, ?_, fun v => ?_⟩
  · rw [follows.releases_lastUses, once.length_eq]
  · rw [contains_lastUses_iff, List.mem_map]

end Func

/-- Two tensors come in.  The first block reads `x` twice in one binding and never reads the second
input; the second block fetches both inputs again. -/
def Sample.twoBlocks : Func where
  params := [⟨0⟩]
  blocks :=
    [⟨.dataflow,
      [⟨⟨1⟩, .proj (.var ⟨0⟩) 0⟩,
        ⟨⟨2⟩, .call (.op ⟨7⟩) [.var ⟨1⟩, .call (.op ⟨6⟩) [.var ⟨1⟩] .tensor] .tensor⟩,
        ⟨⟨3⟩, .proj (.var ⟨0⟩) 1⟩]⟩,
      ⟨.plain,
      [⟨⟨4⟩, .proj (.var ⟨0⟩) 1⟩,
        ⟨⟨5⟩, .call (.op ⟨7⟩) [.call (.op ⟨6⟩) [.var ⟨4⟩] .tensor, .proj (.var ⟨0⟩) 0] .tensor⟩,
        ⟨⟨6⟩, .tuple [.var ⟨2⟩, .var ⟨5⟩, .var ⟨3⟩]⟩]⟩]
  result := .var ⟨6⟩
  resultTy := .tuple [.tensor, .tensor, .tensor]
  vars :=
    [⟨⟨1⟩, .tuple [.tensor, .tensor]⟩, ⟨⟨2⟩, .tensor⟩, ⟨⟨3⟩, .tensor⟩, ⟨⟨4⟩, .tensor⟩,
      ⟨.empty, .tensor⟩, ⟨.empty, .tensor⟩, ⟨⟨5⟩, .tuple [.tensor, .tensor, .tensor]⟩]
  attrs := []

namespace Func

open Sample in
/-- The binding of 2 is the last reader of 1, and nothing but the output reads 2 itself. -/
theorem dies_with_last_reader_twoBlocks : ∃ c i,
    twoBlocks.convention = .ok c ∧ twoBlocks.interface c.param c.output = .ok i ∧
      twoBlocks.tracked c i true = [⟨1⟩, ⟨3⟩, ⟨4⟩, ⟨2⟩, ⟨5⟩] ∧
      (twoBlocks.lastUses c.output (twoBlocks.tracked c i true)).dyingAt ⟨2⟩ = [⟨1⟩, ⟨2⟩] ∧
      (twoBlocks.lastUses c.output (twoBlocks.tracked c i true)).releases = 5 := by
  have convention : twoBlocks.convention = .ok ⟨⟨0⟩, ⟨6⟩⟩ := rfl
  have interface : twoBlocks.interface ⟨0⟩ ⟨6⟩ = .ok _ := rfl
  obtain ⟨lists, -, -, releases, -⟩ := dies_with_last_reader true convention interface
  refine ⟨_, _, convention, interface, rfl, ?_, releases⟩
  exact lists ⟨⟨2⟩, .call (.op ⟨7⟩) [.var ⟨1⟩, .call (.op ⟨6⟩) [.var ⟨1⟩] .tensor] .tensor⟩
    (.tail _ (.head _)) (by decide)

end Func

end ParamStream
