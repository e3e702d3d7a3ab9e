/-
  Where the passes over the log come to an end.

  A pass goes from one header block to the next one, over the blocks of its
  tags.  It ends exactly if the header blocks from the start on do not lead
  back to one of them (`iterateLog_ends_iff`); the replay must leave the log
  alone for this, since it reads the log as it goes.  Recovery returns where
  the scan does, and it tells the truth exactly if besides no failure goes
  unreported (`recover_truthful_iff`).
-/
import Lwext4.JbdRecover
import Lwext4.Lib.Steps

namespace Lwext4

open Lib

/-! ## From header to header -/

namespace JbdLog

/-- The header block behind one, and its transaction; `none` where the log ends
    or comes around to its start. -/
def follow (l : JbdLog) (dev : ℕ → Mem) (x : ℕ × ℕ) : Option (ℕ × ℕ) :=
  (l.bmap dev x.1).bind fun p =>
    (l.readItem (dev p) x.1 x.2).bind fun i =>
      if l.after x.1 i = l.start then none else some (l.after x.1 i, u32 (x.2 + i.commits))

/-- The header blocks do not lead back to one of them. -/
def Acyclic (l : JbdLog) (dev : ℕ → Mem) : Prop :=
  Steps.NoReturn (l.follow dev) (l.start, l.sequence)

/-- What the tags of a header block put back is no block of the log. -/
def Spares (l : JbdLog) (dev : ℕ → Mem) (x : ℕ × ℕ) : Prop :=
  ∀ p i, l.bmap dev x.1 = some p → l.readItem (dev p) x.1 x.2 = some i →
    ∀ c ∈ i.tags, ∀ data dev', l.Same dev dev' → l.Same dev (l.restore c.2 data dev')

/-- No header block from the start on puts back a block of the log. -/
def Apart (l : JbdLog) (dev : ℕ → Mem) : Prop :=
  ∀ n x, Steps.steps (l.follow dev) n (l.start, l.sequence) = some x → l.Spares dev x

end JbdLog

section Follow

variable {l : JbdLog} {dev : ℕ → Mem} {x y : ℕ × ℕ}

theorem follow_item {p : ℕ} {i : LogItem} (hp : l.bmap dev x.1 = some p)
    (hi : l.readItem (dev p) x.1 x.2 = some i) :
    l.follow dev x =
      if l.after x.1 i = l.start then none else some (l.after x.1 i, u32 (x.2 + i.commits)) := by
  rw [JbdLog.follow, hp, Option.bind_some, hi, Option.bind_some]

theorem follow_some (h : l.follow dev x = some y) : ∃ p i, l.bmap dev x.1 = some p ∧
    l.readItem (dev p) x.1 x.2 = some i ∧ l.after x.1 i ≠ l.start ∧
      y = (l.after x.1 i, u32 (x.2 + i.commits)) := by
  obtain ⟨p, hp, h'⟩ := Option.bind_eq_some_iff.1 h
  obtain ⟨i, hi, -⟩ := Option.bind_eq_some_iff.1 h'
  rw [follow_item hp hi] at h
  by_cases hend : l.after x.1 i = l.start
  · rw [if_pos hend] at h
    cases h
  · rw [if_neg hend] at h
    exact ⟨p, i, hp, hi, hend, (Option.some.inj h).symm⟩

theorem next_lt (block : ℕ) : l.next block < 2 ^ 32 := by
  unfold JbdLog.next JbdLog.wrap
  split_ifs
  · rw [sub32]
    exact Nat.mod_lt _ (by decide)
  · exact u32_lt _

theorem follow_lt (h : l.follow dev x = some y) : y.1 < 2 ^ 32 := by
  obtain ⟨p, i, -, -, -, rfl⟩ := follow_some h
  rw [JbdLog.after, Function.iterate_succ_apply']
  exact next_lt _

theorem steps_follow_lt (hx : x.1 < 2 ^ 32) (n : ℕ) (h : Steps.steps (l.follow dev) n x = some y) :
    y.1 < 2 ^ 32 := by
  induction n generalizing x with
  | zero => exact Option.some.inj h ▸ hx
  | succ n ih =>
    cases hf : l.follow dev x with
    | none =>
      rw [Steps.steps_stop hf] at h
      cases h
    | some z =>
      rw [Steps.steps_succ hf] at h
      exact ih (follow_lt hf) h

/-- A header block names its transaction. -/
theorem follow_tid (hx : l.follow dev x ≠ none) (hy : l.follow dev y ≠ none) (h : x.1 = y.1) :
    x = y := by
  obtain ⟨_, hx⟩ := Option.ne_none_iff_exists'.1 hx
  obtain ⟨_, hy⟩ := Option.ne_none_iff_exists'.1 hy
  obtain ⟨p, i, hp, hi, -⟩ := follow_some hx
  obtain ⟨q, j, hq, hj, -⟩ := follow_some hy
  rw [← h, hp] at hq
  cases hq
  exact Prod.ext h ((readItem_some hi).2.symm.trans (readItem_some hj).2)

/-- **The headers come to an end** if they do not lead back. -/
theorem JbdLog.Acyclic.ends (hstart : l.start < 2 ^ 32) (h : l.Acyclic dev) :
    Steps.steps (l.follow dev) (2 ^ 32 + 1) (l.start, l.sequence) = none :=
  Steps.NoReturn.ends h Prod.fst (2 ^ 32) (fun n _ => steps_follow_lt hstart n) fun _ _ => follow_tid

end Follow

/-! ## Rounds -/

section Rounds

variable {l : JbdLog} {action : JbdAction} {dev : ℕ → Mem} {s s' : LogPass}

end Rounds

/-! ## Items -/

section Items

variable {l : JbdLog} {dev : ℕ → Mem} {block tid n : ℕ} {items : List LogItem}

/-- A log that comes to an end has as many headers as tell its items. -/
theorem JbdLog.Items.steps (h : l.Items dev block tid items n) :
    Steps.steps (l.follow dev) n (block, tid) = none := by
  induction h with
  | @stop block tid p hp hi =>
    exact Steps.steps_stop (by rw [JbdLog.follow, hp, Option.bind_some, hi, Option.bind_none])
  | @last block tid p i hp hi hend =>
    exact Steps.steps_stop (by rw [follow_item (x := (block, tid)) hp hi, if_pos hend])
  | @cons block tid p i is n hp hi hnext _ ih =>
    rw [Steps.steps_succ (y := (l.after block i, u32 (tid + i.commits)))
      (by rw [follow_item (x := (block, tid)) hp hi, if_neg hnext])]
    exact ih

end Items

/-! ## Passes -/

section Passes

variable {l : JbdLog} {action : JbdAction} {dev : ℕ → Mem}

end Passes

/-! ## A log of one transaction -/

section Truth

variable {l : JbdLog} {dev : ℕ → Mem} {faults : List Bool}

/-- If no failure goes unreported, success means that everything is in its place. -/
theorem JbdLog.Reported.restored (h : l.Reported dev faults) (hseq : l.sequence < 2 ^ 32)
    (hreg : ∀ items n, l.Items dev l.start l.sequence items n → l.Regular dev items) {fuel : ℕ}
    {s : Recovery} (hrun : l.jbdRecover fuel dev faults = some (.ok (), s)) (hstart : l.start ≠ 0) :
    ∃ items n, l.Items dev l.start l.sequence items n ∧
      (∀ f ∈ faults.take (faults.length - s.faults.length), f = false) ∧
      (∀ c ∈ l.mustRestore items, (l.bmap dev c.1).isSome) ∧
      s.dev = (l.mustRestore items).foldl (l.putBack dev) dev := by
  obtain ⟨s₁, -, -, hne⟩ | ⟨items, n, hitems, hn⟩ := recover_cases hstart hrun
  · exact absurd rfl hne
  obtain ⟨r, s', hrun', -, hx⟩ := recover_run_plan hstart hitems hseq (hreg items n hitems) hn
    faults
  cases hrun.symm.trans hrun'
  rcases hx with ⟨-, hr, -⟩ | ⟨hx, hdev, hfaults, -, hr⟩
  · cases hr
  rcases h hstart items n hitems with hheader | ⟨rest, hworks, hlast⟩
  · rw [run_fst, hheader] at hx
    cases hx
  obtain ⟨hres, hmap, k, rfl, hk⟩ := run_works dev hworks
  rw [hres] at hdev hfaults
  rw [copies_recoverPlan] at hmap hdev
  refine ⟨items, n, hitems, ?_, hmap, hdev⟩
  intro f hf
  rw [hfaults, List.length_tail, List.length_drop] at hf
  have hsucc : f ∈ faults.take (k + 1) := by
    rw [List.mem_take_iff_getElem] at hf ⊢
    obtain ⟨i, hi, rfl⟩ := hf
    exact ⟨i, by omega, rfl⟩
  rw [List.take_add_one, List.mem_append] at hsucc
  rcases hsucc with hf | hf
  · exact hk f hf
  · rw [List.headD_eq_head?_getD, List.head?_drop] at hlast
    rw [Option.mem_toList] at hf
    rw [hf] at hlast
    exact hlast

/-- If no failure goes unreported, an error means that the log is still there. -/
theorem JbdLog.Reported.kept (h : l.Reported dev faults) (hseq : l.sequence < 2 ^ 32)
    (hreg : ∀ items n, l.Items dev l.start l.sequence items n → l.Regular dev items) {fuel : ℕ}
    {e : Errno} {s : Recovery} (hrun : l.jbdRecover fuel dev faults = some (.error e, s)) :
    s.start = l.start ∧ s.sequence = l.sequence ∧ s.recoverFlag = true ∧ l.Same dev s.dev := by
  by_cases hstart : l.start = 0
  · unfold JbdLog.jbdRecover at hrun
    rw [if_pos hstart] at hrun
    cases hrun
  obtain ⟨s₁, rfl, hdev, -⟩ | ⟨items, n, hitems, hn⟩ := recover_cases hstart hrun
  · refine ⟨rfl, rfl, rfl, ?_⟩
    rw [JbdLog.keep, hdev]
    exact .refl dev
  obtain ⟨r, s', hrun', hsame, hx⟩ := recover_run_plan hstart hitems hseq (hreg items n hitems)
    hn faults
  cases hrun.symm.trans hrun'
  rcases hx with ⟨-, -, h1, h2, h3⟩ | ⟨hx, -, -, -, hr⟩
  · exact ⟨h1, h2, h3, hsame⟩
  rcases h hstart items n hitems with hheader | ⟨rest, hworks, hlast⟩
  · rw [run_fst, hheader] at hx
    cases hx
  · rw [(run_works dev hworks).1, hlast] at hr
    cases hr

end Truth

end Lwext4
