/-
  Recovery of the log (`jbd_recover`) with accesses to the device that fail.

  What the log has to restore is read off the log as it lies on the device: the
  items of its transactions, the part of them that is committed, and the tags
  in it that no later transaction revokes.  The passes meet these items one
  after the other (`scan_run`, `revoke_run`, `recover_run`), and the last one
  copies as long as nothing fails; what fails inside the callback is not
  reported.  Main result: `recover_run_plan`, which says what recovery does on a
  log that comes to an end.
-/
import Lwext4.JbdScan

namespace Lwext4

open Lib

/-! ## `jbd_recover` -/

/-- What recovery leaves: the start and sequence of the journal superblock in
    memory, whether it is to be written, the RECOVER flag on the device, the
    blocks of the device and the errors to come. -/
structure Recovery where
  start : ℕ
  sequence : ℕ
  dirty : Bool
  recoverFlag : Bool
  dev : ℕ → Mem
  faults : List Bool

namespace JbdLog

/-- An error of a pass. -/
def keep (l : JbdLog) (s : LogPass) : Recovery :=
  { start := l.start, sequence := l.sequence, dirty := false, recoverFlag := true, dev := s.dev,
    faults := s.faults }

/-- The end of `jbd_recover`: the log is given up, and the superblock written. -/
def clear (s : LogPass) : Except Errno Unit × Recovery :=
  let (ok, s) := s.access
  (if ok then .ok () else .error Errno.EIO,
    { start := 0, sequence := s.info.lastTransId, dirty := true, recoverFlag := !ok, dev := s.dev,
      faults := s.faults })

/-- `jbd_recover`, with `fuel` rounds for a pass.  The cache writes through. -/
def jbdRecover (l : JbdLog) (fuel : ℕ) (dev : ℕ → Mem) (faults : List Bool) :
    Option (Except Errno Unit × Recovery) :=
  if l.start = 0 then
    some (.ok (), ⟨l.start, l.sequence, false, true, dev, faults⟩)
  else
    match jbdIterateLog l .scan fuel ⟨0, 0, 0, fun _ => none⟩ dev faults with
    | none => none
    | some (.error e, s) => some (.error e, l.keep s)
    | some (.ok (), s) =>
      match jbdIterateLog l .revoke fuel s.info s.dev s.faults with
      | none => none
      | some (.error e, s) => some (.error e, l.keep s)
      | some (.ok (), s) =>
        match jbdIterateLog l .recover fuel s.info s.dev s.faults with
        | none => none
        | some (.error e, s) => some (.error e, l.keep s)
        | some (.ok (), s) => some (clear s)

end JbdLog

/-! ## What the log has to restore -/

/-- A header block of the log with its contents: the tags with the log blocks
    they stand for, the end of a transaction, or a revoke block. -/
inductive LogItem where
  | descriptor (tags : List (ℕ × TagRead))
  | commit
  | revoke (b : Mem)

namespace LogItem

def tags : LogItem → List (ℕ × TagRead)
  | descriptor tags => tags
  | commit => []
  | revoke _ => []

def commits : LogItem → ℕ
  | descriptor _ => 0
  | commit => 1
  | revoke _ => 0

/-- The block numbers of a revoke block. -/
def revoked (sb : JbdSb) : LogItem → List ℕ
  | descriptor _ => []
  | commit => []
  | revoke b => jbdRevokeEntries sb b

/-- The committed part: what lies behind the last commit does not count. -/
def committed : List LogItem → List LogItem
  | [] => []
  | i :: is => if committed is = [] ∧ i.commits = 0 then [] else i :: committed is

/-- The block numbers that are revoked, with the transactions that do, counted
    from the `j`-th on. -/
def records (sb : JbdSb) : (j : ℕ) → List LogItem → List (ℕ × ℕ)
  | _, [] => []
  | j, i :: is => (i.revoked sb).map (Prod.mk j) ++ records sb (j + i.commits) is

/-- Is a block of the `j`-th transaction to be restored? -/
def live (recs : List (ℕ × ℕ)) (j : ℕ) (c : ℕ × TagRead) : Bool :=
  !recs.any fun r => r.2 == c.2.block && decide (j ≤ r.1)

/-- The blocks to be restored, each with its place in the log. -/
def restores (recs : List (ℕ × ℕ)) : (j : ℕ) → List LogItem → List (ℕ × TagRead)
  | _, [] => []
  | j, i :: is => i.tags.filter (live recs j) ++ restores recs (j + i.commits) is

end LogItem

namespace JbdLog

/-- The log blocks that the tags of a descriptor block in `block` stand for. -/
def place (l : JbdLog) : ℕ → List TagRead → List (ℕ × TagRead)
  | _, [] => []
  | block, t :: ts => (l.next block, t) :: l.place (l.next block) ts

/-- The item in log block `block`, which holds `b`; `none` where the log ends. -/
def readItem (l : JbdLog) (b : Mem) (block tid : ℕ) : Option LogItem :=
  if getBE b 0 4 ≠ jbdMagicNumber then none
  else if getBE b 8 4 ≠ tid then none
  else if getBE b 4 4 = jbdDescriptorBlock then
    if l.metaCsumOk b then some (.descriptor (l.place block (jbdIterateBlockTableT l.sb b).val))
    else none
  else if getBE b 4 4 = jbdCommitBlock then
    if l.commitCsumOk b then some .commit else none
  else if getBE b 4 4 = jbdRevokeBlock then
    if l.metaCsumOk b then some (.revoke b) else none
  else none

/-- The log block behind an item in `block`. -/
def after (l : JbdLog) (block : ℕ) (i : LogItem) : ℕ := l.next^[i.tags.length + 1] block

/-- The items from log block `block` on, where transaction `tid` begins, and
    how many blocks tell so. -/
inductive Items (l : JbdLog) (dev : ℕ → Mem) : (block tid : ℕ) → List LogItem → (n : ℕ) → Prop
  | stop {block tid p} (hp : l.bmap dev block = some p) (hi : l.readItem (dev p) block tid = none) :
    Items l dev block tid [] 1
  | last {block tid p i} (hp : l.bmap dev block = some p)
    (hi : l.readItem (dev p) block tid = some i) (hend : l.after block i = l.start) :
    Items l dev block tid [i] 1
  | cons {block tid p i is n} (hp : l.bmap dev block = some p)
    (hi : l.readItem (dev p) block tid = some i) (hnext : l.after block i ≠ l.start)
    (h : Items l dev (l.after block i) (u32 (tid + i.commits)) is n) :
    Items l dev block tid (i :: is) (n + 1)

/-- A block that a tag stands for is put back; `data` is what the log holds. -/
def restore (l : JbdLog) (t : TagRead) (data : Mem) (dev : ℕ → Mem) : ℕ → Mem :=
  if t.block = 0 then l.sbWrite data dev
  else
    let data : Mem := fun i => if i < l.sb.blocksize then data i else dev t.block i
    let data := if t.isEscape then putBE data 0 4 jbdMagicNumber else data
    fun b => if b = t.block then data else dev b

/-- A block is put back from its log block. -/
def putBack (l : JbdLog) (dev₀ : ℕ → Mem) (dev : ℕ → Mem) (c : ℕ × TagRead) : ℕ → Mem :=
  match l.bmap dev₀ c.1 with
  | none => dev
  | some p => l.restore c.2 (dev₀ p) dev

/-- All that the log has to restore. -/
def mustRestore (l : JbdLog) (items : List LogItem) : List (ℕ × TagRead) :=
  let items := LogItem.committed items
  LogItem.restores (LogItem.records l.sb 0 items) 0 items

/-- The log reads the same. -/
def Same (l : JbdLog) (dev dev' : ℕ → Mem) : Prop :=
  ∀ k, l.bmap dev' k = l.bmap dev k ∧ ∀ p, l.bmap dev k = some p → dev' p = dev p

/-- Nothing to be restored is a block of the log itself, and the transactions
    can be told apart. -/
structure Regular (l : JbdLog) (dev : ℕ → Mem) (items : List LogItem) : Prop where
  apart : ∀ c ∈ l.mustRestore items, ∀ data dev', l.Same dev dev' →
    l.Same dev (l.restore c.2 data dev')
  few : (items.map LogItem.commits).sum < 2 ^ 31

end JbdLog

/-! ## One round -/

section Rounds

variable {l : JbdLog} {action : JbdAction} {s s' : LogPass} {p : ℕ}

theorem access_eq (s : LogPass) :
    s.access = (!s.faults.headD false, { s with faults := s.faults.tail }) := by
  unfold LogPass.access
  rcases hf : s.faults with - | ⟨f, rest⟩
  · obtain ⟨_, _, _, _, faults, _, _⟩ := s
    simp only at hf
    subst hf
    rfl
  · rfl

theorem blockGet_eq (hp : l.bmap s.dev s.thisBlock = some p) :
    jbdBlockGet l s =
      (if s.faults.headD false then none else some p, { s with faults := s.faults.tail }) := by
  unfold jbdBlockGet
  rw [hp, access_eq]
  rcases s.faults.headD false with - | - <;> rfl

/-- A pass, but for the blocks it has come by. -/
structure LogPass.Is (s : LogPass) (block tid : ℕ) (info : RecoverInfo) (dev : ℕ → Mem)
    (faults : List Bool) : Prop where
  block : s.thisBlock = block
  tid : s.thisTransId = tid
  info : s.info = info
  dev : s.dev = dev
  faults : s.faults = faults

/-- The tags of a descriptor block are met one after the other, as long as the
    callback leaves the block alone. -/
theorem iterateTable_eq {func : TagRead → LogPass → LogPass} {b : Mem} {P : LogPass → Prop}
    (hb : ∀ s, P s → s.dev p = b) : ∀ (fuel tagPtr : ℕ) (size : ℤ) (s : LogPass), P s →
      (∀ t ∈ (jbdIterateTagsT l.sb b fuel tagPtr size).val, ∀ s, P s → P (func t s)) →
      jbdIterateTable l func p fuel tagPtr size s =
        (jbdIterateTagsT l.sb b fuel tagPtr size).val.foldl (fun s t => func t s) s
  | 0, _, _, _, _, _ => rfl
  | fuel + 1, tagPtr, size, s, hs, hfunc => by
    unfold jbdIterateTable
    unfold jbdIterateTagsT at hfunc ⊢
    by_cases hsize : size = 0
    · rw [if_pos hsize, if_pos hsize]
      rfl
    rw [if_neg hsize, Traced.bind_val] at hfunc
    rw [if_neg hsize, if_neg hsize, Traced.bind_val, hb s hs]
    rcases ht : (jbdExtractBlockTagT l.sb b tagPtr size).val with - | t
    · rfl
    · rw [ht] at hfunc
      simp only at hfunc ⊢
      by_cases hlast : t.lastTag = true
      · rw [if_pos hlast, if_pos hlast]
        rfl
      · rw [if_neg hlast, Traced.bind_val] at hfunc
        rw [if_neg hlast, if_neg hlast, Traced.bind_val]
        exact iterateTable_eq hb fuel _ _ _ (hfunc t List.mem_cons_self s hs)
          fun t ht => hfunc t (List.mem_cons_of_mem _ ht)

theorem foldl_toTag (tags : List TagRead) (s : LogPass) :
    (tags.foldl (fun s _ => s.toTag l) s).Is (l.next^[tags.length] s.thisBlock) s.thisTransId s.info
      s.dev s.faults := by
  induction tags generalizing s with
  | nil => exact ⟨rfl, rfl, rfl, rfl, rfl⟩
  | cons t tags ih => exact ih (s.toTag l)

theorem place_length (block : ℕ) (tags : List TagRead) :
    (l.place block tags).length = tags.length := by
  induction tags generalizing block with
  | nil => rfl
  | cons t tags ih => rw [JbdLog.place, List.length_cons, List.length_cons, ih]

/-- The passes before the last one only move over a descriptor block. -/
theorem descriptor_display (ha : action ≠ .recover) (p : ℕ) (s : LogPass) :
    (jbdDescriptor l action p s).Is
      (l.next^[(jbdIterateBlockTableT l.sb (s.dev p)).val.length] s.thisBlock) s.thisTransId s.info
      s.dev s.faults := by
  unfold jbdDescriptor
  rw [if_neg ha]
  simp only
  have hP : ∀ t ∈ (jbdIterateBlockTableT l.sb (s.dev p)).val, ∀ s' : LogPass, s'.dev p = s.dev p →
      (jbdDisplayBlockTags l t s').dev p = s.dev p := fun t _ s' hs' => hs'
  have heq := iterateTable_eq (l := l) (fun _ h => h) (jbdTagArea l.sb) jbdBhdrSize
    (jbdTagTblSize l.sb) s rfl hP
  rw [heq]
  exact foldl_toTag _ s

/-- The header of a block that holds an item. -/
theorem readItem_some {b : Mem} {block tid : ℕ} {i : LogItem} (h : l.readItem b block tid = some i) :
    getBE b 0 4 = jbdMagicNumber ∧ getBE b 8 4 = tid := by
  unfold JbdLog.readItem at h
  by_cases hmagic : getBE b 0 4 ≠ jbdMagicNumber
  · rw [if_pos hmagic] at h
    cases h
  rw [if_neg hmagic] at h
  by_cases hseq : getBE b 8 4 ≠ tid
  · rw [if_pos hseq] at h
    cases h
  exact ⟨not_not.1 hmagic, not_not.1 hseq⟩

/-- What an item does to `struct recover_info`. -/
def RecoverInfo.meet (l : JbdLog) (action : JbdAction) (tid : ℕ) (i : LogItem) (info : RecoverInfo) :
    RecoverInfo :=
  match action with
  | .scan => if i.commits = 0 then info else { info with transCnt := u32 (info.transCnt + 1) }
  | .revoke =>
    { info with revokeRoot := (i.revoked l.sb).foldl (jbdAddRevokeBlockTags tid) info.revokeRoot }
  | .recover => info

/-- **The block of an item**, when its tags move the position and do `dev'` and
    `faults'`. -/
theorem logBlock_item {i : LogItem} {dev' : ℕ → Mem} {faults' : List Bool}
    (hi : l.readItem (s.dev p) s.thisBlock s.thisTransId = some i)
    (htags : ∀ tags, i = .descriptor (l.place s.thisBlock tags) →
      tags = (jbdIterateBlockTableT l.sb (s.dev p)).val →
      (jbdDescriptor l action p s).Is (l.next^[tags.length] s.thisBlock) s.thisTransId s.info dev'
        faults')
    (hother : i.tags = [] → s.dev = dev' ∧ s.faults = faults') :
    ∃ s', jbdLogBlock l action p s = (false, s') ∧
      s'.Is (l.next^[i.tags.length] s.thisBlock) (u32 (s.thisTransId + i.commits))
        (s.info.meet l action s.thisTransId i) dev' faults' := by
  obtain ⟨hmagic, hseq⟩ := readItem_some hi
  have htid : u32 (s.thisTransId + 0) = s.thisTransId := by
    rw [Nat.add_zero, ← hseq]
    exact u32_of_lt (getBE_lt _ _ _)
  unfold JbdLog.readItem at hi
  rw [if_neg (not_not.2 hmagic), if_neg (not_not.2 hseq)] at hi
  unfold jbdLogBlock
  simp only
  by_cases h1 : getBE (s.dev p) 4 4 = jbdDescriptorBlock
  · rw [if_pos h1] at hi ⊢
    by_cases hc : l.metaCsumOk (s.dev p) = true
    · rw [if_pos hc] at hi ⊢
      cases hi
      refine ⟨_, rfl, ?_⟩
      have h := htags _ rfl rfl
      refine ⟨?_, ?_, ?_, h.dev, h.faults⟩
      · rw [h.block, LogItem.tags, place_length]
      · rw [h.tid, LogItem.commits, htid]
      · rw [h.info]
        cases action <;> rfl
    · rw [if_neg hc] at hi
      cases hi
  rw [if_neg h1] at hi ⊢
  by_cases h2 : getBE (s.dev p) 4 4 = jbdCommitBlock
  · rw [if_pos h2] at hi ⊢
    by_cases hc : l.commitCsumOk (s.dev p) = true
    · rw [if_pos hc] at hi ⊢
      cases hi
      obtain ⟨rfl, rfl⟩ := hother rfl
      refine ⟨_, rfl, rfl, ?_, ?_, rfl, rfl⟩
      · rw [LogItem.commits]
      · cases action <;> simp [RecoverInfo.meet, LogItem.commits, LogItem.revoked]
    · rw [if_neg hc] at hi
      cases hi
  rw [if_neg h2] at hi ⊢
  by_cases h5 : getBE (s.dev p) 4 4 = jbdRevokeBlock
  · rw [if_pos h5] at hi ⊢
    by_cases hc : l.metaCsumOk (s.dev p) = true
    · rw [if_pos hc] at hi ⊢
      cases hi
      obtain ⟨rfl, rfl⟩ := hother rfl
      refine ⟨_, rfl, ?_⟩
      rw [LogItem.commits, htid, RecoverInfo.meet.eq_def, LogItem.revoked, LogItem.tags,
        LogItem.commits]
      by_cases ha : action = .revoke
      · subst ha
        rw [if_pos rfl, jbdBuildRevokeTree]
        exact ⟨rfl, rfl, rfl, rfl, rfl⟩
      · rw [if_neg ha]
        cases action
        · exact ⟨rfl, rfl, rfl, rfl, rfl⟩
        · exact absurd rfl ha
        · exact ⟨rfl, rfl, rfl, rfl, rfl⟩
    · rw [if_neg hc] at hi
      cases hi
  · rw [if_neg h5] at hi
    cases hi

/-- A round whose read fails. -/
theorem logStep_error (hgo : ¬ (action ≠ .scan ∧ 0 < transIdDiff s.thisTransId s.info.lastTransId))
    (hp : l.bmap s.dev s.thisBlock = some p) (hf : s.faults.headD false = true) :
    ∃ s', jbdLogStep l action s = (some (.error Errno.EIO), s') ∧ s'.dev = s.dev := by
  unfold jbdLogStep
  rw [if_neg hgo, blockGet_eq hp, if_pos hf]
  exact ⟨_, rfl, rfl⟩

/-- **The block behind the end of the log**, which has the number looked for. -/
theorem logBlock_stop (hmagic : getBE (s.dev p) 0 4 = jbdMagicNumber)
    (hseq : getBE (s.dev p) 8 4 = s.thisTransId)
    (hi : l.readItem (s.dev p) s.thisBlock s.thisTransId = none) :
    jbdLogBlock l action p s = (true, s) := by
  unfold JbdLog.readItem at hi
  rw [if_neg (not_not.2 hmagic), if_neg (not_not.2 hseq)] at hi
  unfold jbdLogBlock
  simp only
  by_cases h1 : getBE (s.dev p) 4 4 = jbdDescriptorBlock
  · rw [if_pos h1] at hi ⊢
    by_cases hc : l.metaCsumOk (s.dev p) = true
    · rw [if_pos hc] at hi
      cases hi
    · rw [if_neg hc]
  rw [if_neg h1] at hi ⊢
  by_cases h2 : getBE (s.dev p) 4 4 = jbdCommitBlock
  · rw [if_pos h2] at hi ⊢
    by_cases hc : l.commitCsumOk (s.dev p) = true
    · rw [if_pos hc] at hi
      cases hi
    · rw [if_neg hc]
  rw [if_neg h2] at hi ⊢
  by_cases h5 : getBE (s.dev p) 4 4 = jbdRevokeBlock
  · rw [if_pos h5] at hi ⊢
    by_cases hc : l.metaCsumOk (s.dev p) = true
    · rw [if_pos hc] at hi
      cases hi
    · rw [if_neg hc]
  · rw [if_neg h5]

/-- A round that finds the end of the log. -/
theorem logStep_end (hgo : ¬ (action ≠ .scan ∧ 0 < transIdDiff s.thisTransId s.info.lastTransId))
    (hp : l.bmap s.dev s.thisBlock = some p) (hf : s.faults.headD false = false)
    (hi : l.readItem (s.dev p) s.thisBlock s.thisTransId = none) :
    ∃ r s', jbdLogStep l action s = (some r, s') ∧ (action = .scan → r = .ok ()) ∧
      s'.thisTransId = s.thisTransId ∧ s'.info = s.info ∧ s'.dev = s.dev ∧
      s'.faults = s.faults.tail := by
  unfold jbdLogStep
  rw [if_neg hgo, blockGet_eq hp, hf]
  simp only [Bool.false_eq_true, if_false]
  by_cases hmagic : getBE (s.dev p) 0 4 ≠ jbdMagicNumber
  · rw [if_pos hmagic]
    exact ⟨_, _, rfl, fun _ => rfl, rfl, rfl, rfl, rfl⟩
  rw [if_neg hmagic]
  by_cases hseq : getBE (s.dev p) 8 4 ≠ s.thisTransId
  · rw [if_pos hseq]
    exact ⟨_, _, rfl, fun ha => if_pos ha, rfl, rfl, rfl, rfl⟩
  have hstop := @logBlock_stop l action { s with faults := s.faults.tail, trail := s.trail ++ [s.thisBlock] } p
    (not_not.1 hmagic) (not_not.1 hseq) hi
  rw [if_neg hseq, hstop]
  exact ⟨_, _, rfl, fun _ => rfl, rfl, rfl, rfl, rfl⟩

/-- The same in the scan. -/
theorem logStep_stop (hp : l.bmap s.dev s.thisBlock = some p) (hf : s.faults.headD false = false)
    (hi : l.readItem (s.dev p) s.thisBlock s.thisTransId = none) :
    ∃ s', jbdLogStep l .scan s = (some (.ok ()), s') ∧ s'.thisTransId = s.thisTransId ∧
      s'.info = s.info ∧ s'.dev = s.dev ∧ s'.faults = s.faults.tail := by
  obtain ⟨r, s', hstep, hr, h⟩ := @logStep_end l .scan s p (by simp) hp hf hi
  rw [hr rfl] at hstep
  exact ⟨s', hstep, h⟩

/-- A round that meets an item. -/
theorem logStep_item {i : LogItem} {dev' : ℕ → Mem} {faults' : List Bool}
    (hgo : ¬ (action ≠ .scan ∧ 0 < transIdDiff s.thisTransId s.info.lastTransId))
    (hp : l.bmap s.dev s.thisBlock = some p) (hf : s.faults.headD false = false)
    (hi : l.readItem (s.dev p) s.thisBlock s.thisTransId = some i)
    (htags : ∀ tags, i = .descriptor (l.place s.thisBlock tags) →
      tags = (jbdIterateBlockTableT l.sb (s.dev p)).val → ∀ u : LogPass,
      u.Is s.thisBlock s.thisTransId s.info s.dev s.faults.tail →
      (jbdDescriptor l action p u).Is (l.next^[tags.length] s.thisBlock) s.thisTransId s.info dev'
        faults')
    (hother : i.tags = [] → s.dev = dev' ∧ s.faults.tail = faults') :
    ∃ s', jbdLogStep l action s =
        (if l.after s.thisBlock i = l.start then some (.ok ()) else none, s') ∧
      s'.Is (l.after s.thisBlock i) (u32 (s.thisTransId + i.commits))
        (s.info.meet l action s.thisTransId i) dev' faults' := by
  obtain ⟨hmagic, hseq⟩ := readItem_some hi
  obtain ⟨s₁, hblock, h⟩ := @logBlock_item _ action
    { s with faults := s.faults.tail, trail := s.trail ++ [s.thisBlock] } _ _ _ _ hi
    (fun tags h1 h2 => htags tags h1 h2 _ ⟨rfl, rfl, rfl, rfl, rfl⟩) hother
  have hafter : l.next s₁.thisBlock = l.after s.thisBlock i := by
    rw [h.block, JbdLog.after, Function.iterate_succ_apply']
  unfold jbdLogStep
  rw [if_neg hgo, blockGet_eq hp, hf]
  simp only [Bool.false_eq_true, if_false]
  rw [if_neg (not_not.2 hmagic), if_neg (not_not.2 hseq), hblock]
  simp only [Bool.false_or, beq_iff_eq, hafter]
  exact ⟨_, rfl, rfl, h.tid, h.info, h.dev, h.faults⟩

/-- The same before the last pass. -/
theorem logStep_item_display {i : LogItem} (ha : action ≠ .recover)
    (hgo : ¬ (action ≠ .scan ∧ 0 < transIdDiff s.thisTransId s.info.lastTransId))
    (hp : l.bmap s.dev s.thisBlock = some p) (hf : s.faults.headD false = false)
    (hi : l.readItem (s.dev p) s.thisBlock s.thisTransId = some i) :
    ∃ s', jbdLogStep l action s =
        (if l.after s.thisBlock i = l.start then some (.ok ()) else none, s') ∧
      s'.Is (l.after s.thisBlock i) (u32 (s.thisTransId + i.commits))
        (s.info.meet l action s.thisTransId i) s.dev s.faults.tail := by
  refine logStep_item hgo hp hf hi ?_ fun _ => ⟨rfl, rfl⟩
  rintro tags - rfl u hu
  have h := descriptor_display (l := l) ha p u
  rw [hu.block, hu.tid, hu.info, hu.dev, hu.faults] at h
  exact h

end Rounds

/-! ## The first two passes -/

section Passes

variable {l : JbdLog} {dev : ℕ → Mem}

theorem committed_prefix (items : List LogItem) : LogItem.committed items <+: items := by
  induction items with
  | nil => exact List.prefix_rfl
  | cons i is ih =>
    rw [LogItem.committed]
    split_ifs
    · exact List.nil_prefix
    · exact (List.prefix_cons_inj i).2 ih

/-- The number of commits from here on. -/
def LogItem.count (items : List LogItem) : ℕ := (items.map LogItem.commits).sum

@[simp] theorem count_cons (i : LogItem) (is : List LogItem) :
    LogItem.count (i :: is) = i.commits + LogItem.count is := by
  simp [LogItem.count]

theorem committed_eq_nil_iff (items : List LogItem) :
    LogItem.committed items = [] ↔ LogItem.count items = 0 := by
  induction items with
  | nil => exact iff_of_true rfl rfl
  | cons i is ih =>
    rw [LogItem.committed, count_cons, Nat.add_eq_zero_iff, ← ih]
    by_cases h : LogItem.committed is = [] ∧ i.commits = 0
    · rw [if_pos h]
      exact iff_of_true rfl ⟨h.2, h.1⟩
    · rw [if_neg h]
      exact iff_of_false (List.cons_ne_nil _ _) fun h' => h ⟨h'.2, h'.1⟩

/-- Transactions less than `2 ^ 31` apart are told apart. -/
theorem transIdDiff_u32 {q a b : ℕ} (ha : a < b + 2 ^ 31) (hb : b < a + 2 ^ 31) :
    transIdDiff (u32 (q + a)) (u32 (q + b)) = (a : ℤ) - b := by
  have hcast (n : ℕ) : ((u32 n : ℕ) : ℤ) = (n : ℤ) % 2 ^ 32 := by
    rw [u32]
    omega
  unfold transIdDiff int32
  rw [hcast, hcast, Int.bmod_def]
  have hdiff : (((q + a : ℕ) : ℤ) % 2 ^ 32 - ((q + b : ℕ) : ℤ) % 2 ^ 32) % (2 ^ 32 : ℕ) =
      ((a : ℤ) - b) % 2 ^ 32 := by
    push_cast
    omega
  rw [hdiff]
  omega

/-- The first access has worked. -/
theorem take_good {faults : List Bool} {n : ℕ} (hf : faults.headD false = false)
    (h : ∀ f ∈ faults.tail.take n, f = false) : ∀ f ∈ faults.take (n + 1), f = false := by
  cases faults with
  | nil => exact fun f hf => absurd hf List.not_mem_nil
  | cons f rest =>
    rw [List.take_succ_cons]
    intro g hg
    rcases List.mem_cons.1 hg with rfl | hg
    · exact hf
    · exact h g hg

theorem take_bad {faults : List Bool} {n : ℕ} (h : ∃ f ∈ faults.tail.take n, f = true) :
    ∃ f ∈ faults.take (n + 1), f = true := by
  cases faults with
  | nil => simp at h
  | cons f rest =>
    obtain ⟨g, hg, hbad⟩ := h
    exact ⟨g, List.mem_cons_of_mem _ hg, hbad⟩

theorem take_head {faults : List Bool} (hf : faults.headD false = true) (n : ℕ) :
    ∃ f ∈ faults.take (n + 1), f = true := by
  cases faults with
  | nil => cases hf
  | cons f rest => exact ⟨f, List.mem_cons_self, hf⟩

theorem meet_scan {info : RecoverInfo} {tid : ℕ} {i : LogItem}
    (h : info.transCnt + i.commits < 2 ^ 32) :
    info.meet l .scan tid i = { info with transCnt := info.transCnt + i.commits } := by
  unfold RecoverInfo.meet
  simp only
  cases i with
  | commit =>
    rw [LogItem.commits] at h ⊢
    rw [if_neg (by decide), u32_of_lt h]
  | descriptor => rfl
  | revoke => rfl

/-- **The scan** counts the commits, one read for each block it looks at. -/
theorem scan_run {block tid n : ℕ} {items : List LogItem} (h : l.Items dev block tid items n) :
    ∀ {fuel : ℕ} {s : LogPass} {faults : List Bool} {info : RecoverInfo}, n ≤ fuel →
      tid < 2 ^ 32 → s.Is block tid info dev faults → info.transCnt + LogItem.count items < 2 ^ 32 →
      ∃ r s', jbdIterateLogLoop l .scan fuel s = some (r, s') ∧ s'.dev = dev ∧
        ((∃ f ∈ faults.take n, f = true) ∧ r = .error Errno.EIO ∨
          (∀ f ∈ faults.take n, f = false) ∧ r = .ok () ∧ s'.faults = faults.drop n ∧
            s'.thisTransId = u32 (tid + LogItem.count items) ∧
            s'.info = { info with transCnt := info.transCnt + LogItem.count items }) := by
  induction h with
  | @stop block tid p hp hi =>
    intro fuel s faults info hn htid hs _
    obtain ⟨fuel, rfl⟩ := Nat.exists_eq_add_of_le' hn
    obtain ⟨rfl, rfl, rfl, rfl, rfl⟩ := hs
    rw [jbdIterateLogLoop]
    rcases hf : s.faults.headD false with - | -
    · obtain ⟨s', hstep, h1, h2, h3, h4⟩ := logStep_stop hp hf hi
      rw [hstep]
      refine ⟨_, s', rfl, h3, .inr ⟨take_good hf (by simp), rfl, ?_, ?_, h2⟩⟩
      · rw [h4, List.drop_one]
      · rw [h1]
        exact (u32_of_lt htid).symm
    · obtain ⟨s', hstep, hdev⟩ := @logStep_error _ .scan _ _ (by simp) hp hf
      rw [hstep]
      exact ⟨_, s', rfl, hdev, .inl ⟨take_head hf 0, rfl⟩⟩
  | @last block tid p i hp hi hend =>
    intro fuel s faults info hn htid hs hcnt
    obtain ⟨fuel, rfl⟩ := Nat.exists_eq_add_of_le' hn
    obtain ⟨rfl, rfl, rfl, rfl, rfl⟩ := hs
    rw [jbdIterateLogLoop]
    rcases hf : s.faults.headD false with - | -
    · obtain ⟨s', hstep, h⟩ := @logStep_item_display _ .scan _ _ _ (by decide) (by simp) hp hf hi
      rw [hstep, if_pos hend]
      refine ⟨_, s', rfl, h.dev, .inr ⟨take_good hf (by simp), rfl, ?_, h.tid, ?_⟩⟩
      · rw [h.faults, List.drop_one]
      · rw [h.info, meet_scan hcnt]
        rfl
    · obtain ⟨s', hstep, hdev⟩ := @logStep_error _ .scan _ _ (by simp) hp hf
      rw [hstep]
      exact ⟨_, s', rfl, hdev, .inl ⟨take_head hf 0, rfl⟩⟩
  | @cons block tid p i is n hp hi hnext h ih =>
    intro fuel s faults info hn htid hs hcnt
    obtain ⟨fuel, rfl⟩ := Nat.exists_eq_add_of_le' (Nat.le_trans (Nat.le_add_left 1 n) hn)
    obtain ⟨rfl, rfl, rfl, rfl, rfl⟩ := hs
    rw [count_cons] at hcnt ⊢
    rw [jbdIterateLogLoop]
    rcases hf : s.faults.headD false with - | -
    · obtain ⟨s₁, hstep, h₁⟩ := @logStep_item_display _ .scan _ _ _ (by decide) (by simp) hp hf hi
      rw [hstep, if_neg hnext]
      rw [meet_scan (by omega)] at h₁
      obtain ⟨r, s', hrun, hdev, hr⟩ := ih (show n ≤ fuel by omega) (u32_lt _) h₁
        (by simp only; omega)
      refine ⟨r, s', hrun, hdev, ?_⟩
      rcases hr with ⟨hbad, rfl⟩ | ⟨hgood, rfl, h1, h2, h3⟩
      · exact .inl ⟨take_bad hbad, rfl⟩
      · refine .inr ⟨take_good hf hgood, rfl, ?_, ?_, ?_⟩
        · rw [h1, List.drop_tail]
        · rw [h2, u32_u32_add, Nat.add_assoc]
        · rw [h3]
          simp only [Nat.add_assoc]
    · obtain ⟨s', hstep, hdev⟩ := @logStep_error _ .scan _ _ (by simp) hp hf
      rw [hstep]
      exact ⟨_, s', rfl, hdev, .inl ⟨take_head hf n, rfl⟩⟩

theorem committed_cons {i : LogItem} {is : List LogItem} (h : LogItem.count (i :: is) ≠ 0) :
    LogItem.committed (i :: is) = i :: LogItem.committed is := by
  rw [LogItem.committed, if_neg]
  rintro ⟨h1, h2⟩
  rw [committed_eq_nil_iff] at h1
  rw [count_cons] at h
  omega

theorem committed_of_count {items : List LogItem} (h : LogItem.count items = 0) :
    LogItem.committed items = [] := (committed_eq_nil_iff items).2 h

/-- A later pass at the `j`-th transaction, with `items` ahead of it: it knows
    the last transaction. -/
structure LogPass.Ahead (s : LogPass) (q j : ℕ) (items : List LogItem) : Prop where
  tid : s.thisTransId = u32 (q + j)
  last : s.info.lastTransId = u32 (q + (j + LogItem.count items - 1))
  few : j + LogItem.count items < 2 ^ 31
  pos : 0 < j + LogItem.count items

/-- It ends when no commit is ahead. -/
theorem LogPass.Ahead.ends_iff {s : LogPass} {q j : ℕ} {items : List LogItem}
    (h : s.Ahead q j items) :
    0 < transIdDiff s.thisTransId s.info.lastTransId ↔ LogItem.count items = 0 := by
  obtain ⟨htid, hlast, hfew, hpos⟩ := h
  rw [htid, hlast, transIdDiff_u32 (by omega) (by omega)]
  omega

theorem LogPass.Ahead.step {s s' : LogPass} {q j : ℕ} {i : LogItem} {is : List LogItem}
    (h : s.Ahead q j (i :: is)) (htid : s'.thisTransId = u32 (s.thisTransId + i.commits))
    (hlast : s'.info.lastTransId = s.info.lastTransId) : s'.Ahead q (j + i.commits) is := by
  have hcount : j + LogItem.count (i :: is) = j + i.commits + LogItem.count is := by
    rw [count_cons]
    omega
  refine ⟨?_, ?_, ?_, ?_⟩
  · rw [htid, h.tid, u32_u32_add, Nat.add_assoc]
  · rw [hlast, h.last, hcount]
  · rw [← hcount]
    exact h.few
  · rw [← hcount]
    exact h.pos

/-- The revoke tree with records entered in order. -/
def LogItem.enter (q : ℕ) (recs : List (ℕ × ℕ)) (tree : RevokeTree) : RevokeTree :=
  recs.foldl (fun tree r => jbdAddRevokeBlockTags (u32 (q + r.1)) tree r.2) tree

theorem enter_cons (q j : ℕ) (i : LogItem) (is : List LogItem) (tree : RevokeTree) :
    LogItem.enter q (LogItem.records l.sb j (i :: is)) tree =
      LogItem.enter q (LogItem.records l.sb (j + i.commits) is)
        ((i.revoked l.sb).foldl (jbdAddRevokeBlockTags (u32 (q + j))) tree) := by
  rw [LogItem.records, LogItem.enter, List.foldl_append, List.foldl_map]
  rfl

/-- How the second pass over `items` ends: a read has failed, or the records of
    the committed part are entered. -/
def LogPass.Revoked (l : JbdLog) (q j : ℕ) (items : List LogItem) (faults : List Bool)
    (info : RecoverInfo) (r : Except Errno Unit) (s' : LogPass) : Prop :=
  let committed := LogItem.committed items
  (∃ f ∈ faults.take committed.length, f = true) ∧ r = .error Errno.EIO ∨
    (∀ f ∈ faults.take committed.length, f = false) ∧ r = .ok () ∧
      s'.faults = faults.drop committed.length ∧ s'.info =
        { info with revokeRoot := LogItem.enter q (LogItem.records l.sb j committed) info.revokeRoot }

/-- **The second pass** enters the records of the committed part. -/
theorem revoke_run {q block tid n : ℕ} {items : List LogItem} (h : l.Items dev block tid items n) :
    ∀ {fuel j : ℕ} {s : LogPass} {faults : List Bool} {info : RecoverInfo}, n ≤ fuel →
      s.Ahead q j items → s.Is block tid info dev faults →
      ∃ r s', jbdIterateLogLoop l .revoke fuel s = some (r, s') ∧ s'.dev = dev ∧
        LogPass.Revoked l q j items faults info r s' := by
  -- the pass ends where no commit is ahead
  have hends {fuel j block tid n : ℕ} {items : List LogItem} {s : LogPass} {faults : List Bool}
      {info : RecoverInfo} (hn : n + 1 ≤ fuel) (ha : s.Ahead q j items)
      (hs : s.Is block tid info dev faults) (h0 : LogItem.count items = 0) :
      ∃ r s', jbdIterateLogLoop l .revoke fuel s = some (r, s') ∧ s'.dev = dev ∧
        LogPass.Revoked l q j items faults info r s' := by
    obtain ⟨fuel, rfl⟩ := Nat.exists_eq_add_of_le' (Nat.le_trans (Nat.le_add_left 1 n) hn)
    unfold LogPass.Revoked
    rw [jbdIterateLogLoop, jbdLogStep, if_pos ⟨by decide, ha.ends_iff.2 h0⟩, committed_of_count h0]
    exact ⟨_, _, rfl, hs.dev, .inr ⟨by simp, rfl, hs.faults, hs.info⟩⟩
  induction h with
  | stop hp hi =>
    intro fuel j s faults info hn ha hs
    exact hends hn ha hs rfl
  | @last block tid p i hp hi hend =>
    intro fuel j s faults info hn ha hs
    by_cases h0 : LogItem.count [i] = 0
    · exact hends hn ha hs h0
    obtain ⟨fuel, rfl⟩ := Nat.exists_eq_add_of_le' hn
    have hgo : ¬ (JbdAction.revoke ≠ .scan ∧ 0 < transIdDiff s.thisTransId s.info.lastTransId) :=
      fun h => h0 (ha.ends_iff.1 h.2)
    have htid := ha.tid
    obtain ⟨rfl, rfl, rfl, rfl, rfl⟩ := hs
    unfold LogPass.Revoked
    rw [committed_cons h0, jbdIterateLogLoop]
    rcases hf : s.faults.headD false with - | -
    · obtain ⟨s', hstep, h⟩ := logStep_item_display (by decide) hgo hp hf hi
      rw [hstep, if_pos hend]
      refine ⟨_, s', rfl, h.dev, .inr ⟨take_good hf (by simp [LogItem.committed]), rfl, ?_, ?_⟩⟩
      · rw [h.faults, LogItem.committed, List.length_singleton, List.drop_one]
      · rw [h.info, enter_cons, htid]
        rfl
    · obtain ⟨s', hstep, hdev⟩ := logStep_error hgo hp hf
      rw [hstep]
      exact ⟨_, s', rfl, hdev, .inl ⟨take_head hf _, rfl⟩⟩
  | @cons block tid p i is n hp hi hnext h ih =>
    intro fuel j s faults info hn ha hs
    by_cases h0 : LogItem.count (i :: is) = 0
    · exact hends hn ha hs h0
    obtain ⟨fuel, rfl⟩ := Nat.exists_eq_add_of_le' (Nat.le_trans (Nat.le_add_left 1 n) hn)
    have hgo : ¬ (JbdAction.revoke ≠ .scan ∧ 0 < transIdDiff s.thisTransId s.info.lastTransId) :=
      fun h => h0 (ha.ends_iff.1 h.2)
    have htid := ha.tid
    obtain ⟨rfl, rfl, rfl, rfl, rfl⟩ := hs
    unfold LogPass.Revoked
    rw [committed_cons h0, jbdIterateLogLoop]
    rcases hf : s.faults.headD false with - | -
    · obtain ⟨s₁, hstep, h₁⟩ := logStep_item_display (by decide) hgo hp hf hi
      rw [hstep, if_neg hnext]
      obtain ⟨r, s', hrun, hdev, hr⟩ := ih (show n ≤ fuel by omega)
        (ha.step h₁.tid (by rw [h₁.info]; rfl)) h₁
      refine ⟨r, s', hrun, hdev, ?_⟩
      rcases hr with ⟨hbad, rfl⟩ | ⟨hgood, rfl, h1, h2⟩
      · exact .inl ⟨take_bad hbad, rfl⟩
      · refine .inr ⟨take_good hf hgood, rfl, ?_, ?_⟩
        · rw [h1, List.drop_tail]
          rfl
        · rw [h2, enter_cons, htid]
          rfl
    · obtain ⟨s', hstep, hdev⟩ := logStep_error hgo hp hf
      rw [hstep]
      exact ⟨_, s', rfl, hdev, .inl ⟨take_head hf _, rfl⟩⟩

end Passes

/-! ## The last pass -/

/-- What recovery does on the device: it reads a header block, or copies a
    block of the log to its place. -/
inductive LogAccess where
  | header
  | copy (c : ℕ × TagRead)

namespace JbdLog

/-- A copy, with the errors to come: a read of the log, and a write. -/
def copyStep (l : JbdLog) (dev₀ : ℕ → Mem) (x : (ℕ → Mem) × List Bool) (c : ℕ × TagRead) :
    (ℕ → Mem) × List Bool :=
  match l.bmap dev₀ c.1 with
  | none => x
  | some p =>
    if x.2.headD false then (x.1, x.2.tail)
    else if x.2.tail.headD false then (x.1, x.2.tail.tail)
    else (l.restore c.2 (dev₀ p) x.1, x.2.tail.tail)

/-- The accesses one after the other, until the read of a header fails. -/
def run (l : JbdLog) (dev₀ : ℕ → Mem) : List LogAccess → (ℕ → Mem) × List Bool →
    Bool × (ℕ → Mem) × List Bool
  | [], x => (true, x)
  | .header :: plan, x => if x.2.headD false then (false, x.1, x.2.tail)
    else l.run dev₀ plan (x.1, x.2.tail)
  | .copy c :: plan, x => l.run dev₀ plan (l.copyStep dev₀ x c)

end JbdLog

/-- The accesses of the last pass. -/
def LogItem.plan (recs : List (ℕ × ℕ)) : (j : ℕ) → List LogItem → List LogAccess
  | _, [] => []
  | j, i :: is =>
    .header :: (i.tags.filter (live recs j)).map .copy ++ plan recs (j + i.commits) is

section Recover

variable {l : JbdLog} {dev₀ : ℕ → Mem}

theorem run_copies (cs : List (ℕ × TagRead)) (plan : List LogAccess) (x : (ℕ → Mem) × List Bool) :
    l.run dev₀ (cs.map .copy ++ plan) x = l.run dev₀ plan (cs.foldl (l.copyStep dev₀) x) := by
  induction cs generalizing x with
  | nil => rfl
  | cons c cs ih => exact ih _

theorem JbdLog.Same.refl (dev : ℕ → Mem) : l.Same dev dev := fun _ => ⟨rfl, fun _ _ => rfl⟩

/-- Is a tag of transaction `tid` revoked by the tree? -/
def revokedBy (tree : RevokeTree) (tid : ℕ) (t : TagRead) : Bool :=
  match tree t.block with
  | some transId => decide (transIdDiff tid transId ≤ 0)
  | none => false

/-- **The callback** makes one copy, if the tag is not revoked. -/
theorem replayBlockTags_eq (t : TagRead) (s : LogPass) : jbdReplayBlockTags l t s =
    if revokedBy s.info.revokeRoot s.thisTransId t then s.toTag l
    else match jbdBlockGet l (s.toTag l) with
      | (none, s) => s
      | (some p, s) => s.replay l t p := rfl

theorem replayBlockTags_is {s : LogPass} (hsame : l.Same dev₀ s.dev) (t : TagRead) :
    let x := if revokedBy s.info.revokeRoot s.thisTransId t then (s.dev, s.faults)
      else l.copyStep dev₀ (s.dev, s.faults) (l.next s.thisBlock, t)
    (jbdReplayBlockTags l t s).Is (l.next s.thisBlock) s.thisTransId s.info x.1 x.2 := by
  intro x
  rw [replayBlockTags_eq]
  by_cases hr : revokedBy s.info.revokeRoot s.thisTransId t = true
  · rw [show x = (s.dev, s.faults) from if_pos hr, if_pos hr]
    exact ⟨rfl, rfl, rfl, rfl, rfl⟩
  rw [show x = l.copyStep dev₀ (s.dev, s.faults) (l.next s.thisBlock, t) from if_neg hr, if_neg hr,
    JbdLog.copyStep]
  obtain ⟨hbmap, hdata⟩ := hsame (l.next s.thisBlock)
  simp only
  rcases hp : l.bmap dev₀ (l.next s.thisBlock) with - | p
  · rw [hp] at hbmap
    have hget : jbdBlockGet l (s.toTag l) = (none, s.toTag l) := by
      unfold jbdBlockGet
      rw [show l.bmap (s.toTag l).dev (s.toTag l).thisBlock = none from hbmap]
    rw [hget]
    exact ⟨rfl, rfl, rfl, rfl, rfl⟩
  rw [hp] at hbmap
  rw [blockGet_eq (show l.bmap (s.toTag l).dev (s.toTag l).thisBlock = some p from hbmap)]
  rw [show (s.toTag l).faults = s.faults from rfl]
  rcases hf : s.faults.headD false with - | -
  · simp only [Bool.false_eq_true, if_false]
    unfold LogPass.replay
    rw [access_eq]
    dsimp only
    rcases hf2 : s.faults.tail.headD false with - | -
    · simp only [Bool.not_false, Bool.false_eq_true, if_false]
      rw [← hdata p hp]
      by_cases h0 : t.block = 0
      · rw [if_pos h0]
        exact ⟨rfl, rfl, rfl, (if_pos h0).symm, rfl⟩
      · rw [if_neg h0]
        exact ⟨rfl, rfl, rfl, (if_neg h0).symm, rfl⟩
    · exact ⟨rfl, rfl, rfl, rfl, rfl⟩
  · exact ⟨rfl, rfl, rfl, rfl, rfl⟩

/-- A copy leaves the log alone if the block it restores is not of the log. -/
theorem copyStep_same {x : (ℕ → Mem) × List Bool} {c : ℕ × TagRead} (hx : l.Same dev₀ x.1)
    (hapart : ∀ data dev', l.Same dev₀ dev' → l.Same dev₀ (l.restore c.2 data dev')) :
    l.Same dev₀ (l.copyStep dev₀ x c).1 := by
  unfold JbdLog.copyStep
  rcases l.bmap dev₀ c.1 with - | p
  · exact hx
  · simp only
    split_ifs
    · exact hx
    · exact hx
    · exact hapart _ _ hx

/-- **The tags of a descriptor block** are copied one after the other, but for
    the revoked ones. -/
theorem foldl_replay {tree : RevokeTree} {tid : ℕ} : ∀ {tags : List TagRead} {block : ℕ}
    {s : LogPass} {info : RecoverInfo} {dev : ℕ → Mem} {faults : List Bool},
    s.Is block tid info dev faults → info.revokeRoot = tree → l.Same dev₀ dev →
    (∀ t ∈ tags, revokedBy tree tid t = false → ∀ data dev', l.Same dev₀ dev' →
      l.Same dev₀ (l.restore t data dev')) →
    let x := ((l.place block tags).filter fun c => !revokedBy tree tid c.2).foldl (l.copyStep dev₀)
      (dev, faults)
    (tags.foldl (fun s t => jbdReplayBlockTags l t s) s).Is (l.next^[tags.length] block) tid info x.1
      x.2 ∧ l.Same dev₀ x.1
  | [], _, _, _, _, _, hs, _, hsame, _ => ⟨hs, hsame⟩
  | t :: tags, block, s, info, dev, faults, hs, htree, hsame, hapart => by
    have hstep := @replayBlockTags_is l dev₀ s (by rwa [hs.dev]) t
    rw [hs.block, hs.tid, hs.info, hs.dev, hs.faults, htree] at hstep
    rw [JbdLog.place, List.filter_cons, List.foldl_cons, List.length_cons,
      Function.iterate_succ_apply]
    have hrest : ∀ t ∈ tags, revokedBy tree tid t = false → ∀ data dev', l.Same dev₀ dev' →
        l.Same dev₀ (l.restore t data dev') := fun t ht => hapart t (List.mem_cons_of_mem _ ht)
    rcases hr : revokedBy tree tid t with - | -
    · rw [hr] at hstep
      exact foldl_replay hstep htree
        (copyStep_same hsame (hapart t List.mem_cons_self hr)) hrest
    · rw [hr] at hstep
      exact foldl_replay hstep htree hsame hrest

theorem mem_place {block : ℕ} {tags : List TagRead} {t : TagRead} (h : t ∈ tags) :
    ∃ c ∈ l.place block tags, c.2 = t := by
  induction tags generalizing block with
  | nil => cases h
  | cons u tags ih =>
    rcases List.mem_cons.1 h with rfl | h
    · exact ⟨_, List.mem_cons_self, rfl⟩
    · obtain ⟨c, hc, rfl⟩ := ih h
      exact ⟨c, List.mem_cons_of_mem _ hc, rfl⟩

/-- The descriptor blocks of the last pass. -/
theorem descriptor_replay {s : LogPass} {p : ℕ} {tree : RevokeTree} (hp : ∃ k, l.bmap dev₀ k = some p)
    (hsame : l.Same dev₀ s.dev) (htree : s.info.revokeRoot = tree)
    (hapart : ∀ t ∈ (jbdIterateBlockTableT l.sb (dev₀ p)).val,
      revokedBy tree s.thisTransId t = false → ∀ data dev', l.Same dev₀ dev' →
        l.Same dev₀ (l.restore t data dev')) :
    let tags := (jbdIterateBlockTableT l.sb (dev₀ p)).val
    let x := ((l.place s.thisBlock tags).filter fun c => !revokedBy tree s.thisTransId c.2).foldl
      (l.copyStep dev₀) (s.dev, s.faults)
    (jbdDescriptor l .recover p s).Is (l.next^[tags.length] s.thisBlock) s.thisTransId s.info x.1
      x.2 ∧ l.Same dev₀ x.1 := by
  obtain ⟨k, hk⟩ := hp
  unfold jbdDescriptor
  rw [if_pos rfl]
  simp only
  -- the block with the tags is one of the log, so it stays as it is
  have hP : ∀ t ∈ (jbdIterateBlockTableT l.sb (dev₀ p)).val, ∀ u : LogPass,
      (l.Same dev₀ u.dev ∧ u.info = s.info ∧ u.thisTransId = s.thisTransId) →
      l.Same dev₀ (jbdReplayBlockTags l t u).dev ∧ (jbdReplayBlockTags l t u).info = s.info ∧
        (jbdReplayBlockTags l t u).thisTransId = s.thisTransId := by
    rintro t ht u ⟨hu, hinfo, htid⟩
    have h := replayBlockTags_is hu t
    rw [hinfo, htid, htree] at h
    refine ⟨?_, h.info, h.tid⟩
    rw [h.dev]
    rcases hr : revokedBy tree s.thisTransId t with - | -
    · exact copyStep_same hu (hapart t ht hr)
    · exact hu
  have heq := iterateTable_eq (l := l) (p := p) (b := dev₀ p)
    (fun u (hu : l.Same dev₀ u.dev ∧ u.info = s.info ∧ u.thisTransId = s.thisTransId) =>
      (hu.1 k).2 p hk) (jbdTagArea l.sb) jbdBhdrSize (jbdTagTblSize l.sb) s ⟨hsame, rfl, rfl⟩ hP
  rw [heq]
  exact foldl_replay ⟨rfl, rfl, rfl, rfl, rfl⟩ htree hsame hapart

/-- How the last pass over `items` ends: the read of a header has failed, or the
    copies are made. -/
def LogPass.Copied (l : JbdLog) (dev₀ : ℕ → Mem) (plan : List LogAccess)
    (x : (ℕ → Mem) × List Bool) (r : Except Errno Unit) (s' : LogPass) : Prop :=
  (l.run dev₀ plan x).1 = false ∧ r = .error Errno.EIO ∨
    (l.run dev₀ plan x).1 = true ∧ r = .ok () ∧ (s'.dev, s'.faults) = (l.run dev₀ plan x).2

/-- The round of an item in the last pass. -/
theorem logStep_recover {live : ℕ × TagRead → Bool} {p : ℕ} {s : LogPass} {i : LogItem}
    (hgo : ¬ (JbdAction.recover ≠ .scan ∧ 0 < transIdDiff s.thisTransId s.info.lastTransId))
    (hp : l.bmap dev₀ s.thisBlock = some p) (hf : s.faults.headD false = false)
    (hi : l.readItem (dev₀ p) s.thisBlock s.thisTransId = some i) (hsame : l.Same dev₀ s.dev)
    (hlive : ∀ c, live c = !revokedBy s.info.revokeRoot s.thisTransId c.2)
    (hapart : ∀ c ∈ i.tags.filter live, ∀ data dev', l.Same dev₀ dev' →
      l.Same dev₀ (l.restore c.2 data dev')) :
    let x := (i.tags.filter live).foldl (l.copyStep dev₀) (s.dev, s.faults.tail)
    (∃ s', jbdLogStep l .recover s =
        (if l.after s.thisBlock i = l.start then some (.ok ()) else none, s') ∧
      s'.Is (l.after s.thisBlock i) (u32 (s.thisTransId + i.commits)) s.info x.1 x.2) ∧
      l.Same dev₀ x.1 := by
  intro x
  obtain ⟨hbmap, hdata⟩ := hsame s.thisBlock
  have hdev := hdata p hp
  have hx : l.Same dev₀ x.1 := by
    have hfold : ∀ (cs : List (ℕ × TagRead)) (y : (ℕ → Mem) × List Bool), l.Same dev₀ y.1 →
        (∀ c ∈ cs, ∀ data dev', l.Same dev₀ dev' → l.Same dev₀ (l.restore c.2 data dev')) →
        l.Same dev₀ (cs.foldl (l.copyStep dev₀) y).1 := by
      intro cs
      induction cs with
      | nil => exact fun y hy _ => hy
      | cons c cs ih =>
        intro y hy hcs
        exact ih _ (copyStep_same hy (hcs c List.mem_cons_self))
          fun c hc => hcs c (List.mem_cons_of_mem _ hc)
    exact hfold _ _ hsame hapart
  refine ⟨?_, hx⟩
  refine @logStep_item _ .recover _ _ _ _ _ hgo (hbmap.trans hp) hf (by rwa [hdev]) ?_ ?_
  · rintro tags rfl htags u ⟨hu1, hu2, hu3, hu4, hu5⟩
    rw [hdev] at htags
    have hfilter : (fun c : ℕ × TagRead => !revokedBy s.info.revokeRoot s.thisTransId c.2) = live :=
      (funext hlive).symm
    have h := @descriptor_replay l _ u _ s.info.revokeRoot ⟨_, hp⟩ (by rwa [hu4]) (by rw [hu3]) (by
      rw [hu2, ← htags]
      intro t ht hr
      obtain ⟨c, hc, rfl⟩ := @mem_place l s.thisBlock _ _ ht
      refine hapart c (List.mem_filter.2 ⟨hc, ?_⟩)
      rw [hlive, hr]
      rfl)
    rw [hu1, hu2, hu3, hu4, hu5, ← htags, hfilter] at h
    exact h.1
  · intro hnil
    have hnone : x = (s.dev, s.faults.tail) := by
      show (i.tags.filter _).foldl _ _ = _
      rw [hnil]
      rfl
    rw [hnone]
    exact ⟨rfl, rfl⟩

/-- The pass stops in front of what is not committed. -/
theorem recover_ends {recs : List (ℕ × ℕ)} {q j block tid n fuel : ℕ} {items : List LogItem}
    {s : LogPass} {faults : List Bool} {info : RecoverInfo} {dev : ℕ → Mem} (hn : n + 1 ≤ fuel)
    (ha : s.Ahead q j items) (hs : s.Is block tid info dev faults) (hsame : l.Same dev₀ dev)
    (h0 : LogItem.count items = 0) :
    ∃ r s', jbdIterateLogLoop l .recover fuel s = some (r, s') ∧ l.Same dev₀ s'.dev ∧
      s'.Copied l dev₀ (LogItem.plan recs j (LogItem.committed items)) (dev, faults) r := by
  obtain ⟨fuel, rfl⟩ := Nat.exists_eq_add_of_le' (Nat.le_trans (Nat.le_add_left 1 n) hn)
  rw [jbdIterateLogLoop, jbdLogStep, if_pos ⟨by decide, ha.ends_iff.2 h0⟩, committed_of_count h0]
  refine ⟨_, _, rfl, by rwa [hs.dev], .inr ⟨rfl, rfl, ?_⟩⟩
  rw [hs.dev, hs.faults]
  rfl

/-- The read of a header fails. -/
theorem recover_header_fails {fuel block tid p : ℕ} {s : LogPass} {faults : List Bool}
    {info : RecoverInfo} {dev : ℕ → Mem} (plan : List LogAccess)
    (hgo : ¬ (JbdAction.recover ≠ .scan ∧ 0 < transIdDiff s.thisTransId s.info.lastTransId))
    (hs : s.Is block tid info dev faults) (hsame : l.Same dev₀ dev)
    (hp : l.bmap dev₀ block = some p) (hf : faults.headD false = true) :
    ∃ r s', jbdIterateLogLoop l .recover (fuel + 1) s = some (r, s') ∧ l.Same dev₀ s'.dev ∧
      s'.Copied l dev₀ (.header :: plan) (dev, faults) r := by
  obtain ⟨rfl, rfl, rfl, rfl, rfl⟩ := hs
  obtain ⟨s', hstep, hdev⟩ := logStep_error hgo (((hsame _).1).trans hp) hf
  rw [jbdIterateLogLoop, hstep]
  refine ⟨_, s', rfl, by rwa [hdev], .inl ⟨?_, rfl⟩⟩
  rw [JbdLog.run, if_pos hf]

/-- The plan of an item whose header is read: its copies come first. -/
theorem run_item {recs : List (ℕ × ℕ)} {j : ℕ} {i : LogItem} {is : List LogItem} {dev : ℕ → Mem}
    {faults : List Bool} (hf : faults.headD false = false) :
    l.run dev₀ (LogItem.plan recs j (i :: is)) (dev, faults) =
      l.run dev₀ (LogItem.plan recs (j + i.commits) is)
        ((i.tags.filter (LogItem.live recs j)).foldl (l.copyStep dev₀) (dev, faults.tail)) := by
  rw [LogItem.plan, List.cons_append, JbdLog.run, hf, if_neg (by decide), run_copies]

/-- **The last pass** makes the copies of the committed part, until the read of
    a header fails. -/
theorem recover_run {recs : List (ℕ × ℕ)} {q block tid n : ℕ} {items : List LogItem}
    (h : l.Items dev₀ block tid items n) :
    ∀ {fuel j : ℕ} {s : LogPass} {faults : List Bool} {info : RecoverInfo} {dev : ℕ → Mem},
      n ≤ fuel → s.Ahead q j items → s.Is block tid info dev faults → l.Same dev₀ dev →
      (∀ j' ≤ j + LogItem.count items, ∀ c,
        LogItem.live recs j' c = !revokedBy info.revokeRoot (u32 (q + j')) c.2) →
      (∀ c ∈ LogItem.restores recs j (LogItem.committed items), ∀ data dev', l.Same dev₀ dev' →
        l.Same dev₀ (l.restore c.2 data dev')) →
      ∃ r s', jbdIterateLogLoop l .recover fuel s = some (r, s') ∧ l.Same dev₀ s'.dev ∧
        s'.Copied l dev₀ (LogItem.plan recs j (LogItem.committed items)) (dev, faults) r := by
  induction h with
  | stop hp hi =>
    intro fuel j s faults info dev hn ha hs hsame _ _
    exact recover_ends hn ha hs hsame rfl
  | @last block tid p i hp hi hend =>
    intro fuel j s faults info dev hn ha hs hsame hlive hapart
    by_cases h0 : LogItem.count [i] = 0
    · exact recover_ends hn ha hs hsame h0
    obtain ⟨fuel, rfl⟩ := Nat.exists_eq_add_of_le' hn
    have hgo : ¬ (JbdAction.recover ≠ .scan ∧ 0 < transIdDiff s.thisTransId s.info.lastTransId) :=
      fun h => h0 (ha.ends_iff.1 h.2)
    rw [committed_cons h0] at hapart ⊢
    rcases hf : faults.headD false with - | -
    · obtain ⟨rfl, rfl, rfl, rfl, rfl⟩ := hs
      obtain ⟨⟨s', hstep, h⟩, hx⟩ := logStep_recover hgo hp hf hi hsame
        (by rw [ha.tid]; exact hlive j (Nat.le_add_right _ _))
        fun c hc => hapart c (List.mem_append_left _ hc)
      rw [jbdIterateLogLoop, hstep, if_pos hend]
      refine ⟨_, s', rfl, by rwa [h.dev], .inr ⟨?_, rfl, ?_⟩⟩
      · rw [run_item hf]
        rfl
      · rw [run_item hf, h.dev, h.faults]
        rfl
    · exact recover_header_fails _ hgo hs hsame hp hf
  | @cons block tid p i is n hp hi hnext h ih =>
    intro fuel j s faults info dev hn ha hs hsame hlive hapart
    by_cases h0 : LogItem.count (i :: is) = 0
    · exact recover_ends hn ha hs hsame h0
    obtain ⟨fuel, rfl⟩ := Nat.exists_eq_add_of_le' (Nat.le_trans (Nat.le_add_left 1 n) hn)
    have hgo : ¬ (JbdAction.recover ≠ .scan ∧ 0 < transIdDiff s.thisTransId s.info.lastTransId) :=
      fun h => h0 (ha.ends_iff.1 h.2)
    rw [committed_cons h0] at hapart ⊢
    rcases hf : faults.headD false with - | -
    · obtain ⟨rfl, rfl, rfl, rfl, rfl⟩ := hs
      obtain ⟨⟨s₁, hstep, h₁⟩, hx⟩ := logStep_recover hgo hp hf hi hsame
        (by rw [ha.tid]; exact hlive j (Nat.le_add_right _ _))
        fun c hc => hapart c (List.mem_append_left _ hc)
      rw [jbdIterateLogLoop, hstep, if_neg hnext]
      have hcount : j + i.commits + LogItem.count is = j + LogItem.count (i :: is) := by
        rw [count_cons]
        omega
      obtain ⟨r, s', hrun, hsame', hr⟩ := ih (show n ≤ fuel by omega)
        (ha.step h₁.tid (by rw [h₁.info])) h₁ hx (by rwa [hcount])
        fun c hc => hapart c (List.mem_append_right _ hc)
      refine ⟨r, s', hrun, hsame', ?_⟩
      rw [LogPass.Copied, run_item hf]
      exact hr
    · exact recover_header_fails _ hgo hs hsame hp hf

end Recover

/-! ## The passes together -/

section Together

variable {l : JbdLog} {dev : ℕ → Mem}

theorem items_unique {block tid n n' : ℕ} {items items' : List LogItem}
    (h : l.Items dev block tid items n) (h' : l.Items dev block tid items' n') :
    items = items' ∧ n = n' := by
  induction h generalizing items' n' with
  | stop hp hi =>
    cases h' with
    | stop => exact ⟨rfl, rfl⟩
    | last hp' hi' =>
      cases hp.symm.trans hp'
      cases hi.symm.trans hi'
    | cons hp' hi' =>
      cases hp.symm.trans hp'
      cases hi.symm.trans hi'
  | last hp hi hend =>
    cases h' with
    | stop hp' hi' =>
      cases hp.symm.trans hp'
      cases hi.symm.trans hi'
    | last hp' hi' =>
      cases hp.symm.trans hp'
      cases hi.symm.trans hi'
      exact ⟨rfl, rfl⟩
    | cons hp' hi' hnext =>
      cases hp.symm.trans hp'
      cases hi.symm.trans hi'
      exact absurd hend hnext
  | cons hp hi hnext _ ih =>
    cases h' with
    | stop hp' hi' =>
      cases hp.symm.trans hp'
      cases hi.symm.trans hi'
    | last hp' hi' hend =>
      cases hp.symm.trans hp'
      cases hi.symm.trans hi'
      exact absurd hend hnext
    | cons hp' hi' _ h' =>
      cases hp.symm.trans hp'
      cases hi.symm.trans hi'
      obtain ⟨rfl, rfl⟩ := ih h'
      exact ⟨rfl, rfl⟩

/-- What a round of the scan can do. -/
theorem logStep_scan_cases (s : LogPass) {r : Option (Except Errno Unit)} {s' : LogPass}
    (h : jbdLogStep l .scan s = (r, s')) :
    s'.dev = s.dev ∧ (r = some (.error Errno.EIO) ∨ ∃ p, l.bmap s.dev s.thisBlock = some p ∧
      (l.readItem (s.dev p) s.thisBlock s.thisTransId = none ∧ r = some (.ok ()) ∨
        ∃ i, l.readItem (s.dev p) s.thisBlock s.thisTransId = some i ∧
          r = (if l.after s.thisBlock i = l.start then some (.ok ()) else none) ∧
          s'.thisBlock = l.after s.thisBlock i ∧ s'.thisTransId = u32 (s.thisTransId + i.commits))) := by
  rcases hp : l.bmap s.dev s.thisBlock with - | p
  · have hget : jbdBlockGet l s = (none, s) := by
      unfold jbdBlockGet
      rw [hp]
    rw [jbdLogStep, if_neg (by simp), hget] at h
    cases h
    exact ⟨rfl, .inl rfl⟩
  rcases hf : s.faults.headD false with - | -
  · rcases hi : l.readItem (s.dev p) s.thisBlock s.thisTransId with - | i
    · obtain ⟨u, hstep, -, -, hdev, -⟩ := logStep_stop hp hf hi
      rw [hstep] at h
      cases h
      exact ⟨hdev, .inr ⟨p, rfl, .inl ⟨hi, rfl⟩⟩⟩
    · obtain ⟨u, hstep, hu⟩ := @logStep_item_display _ .scan _ _ _ (by decide) (by simp) hp hf hi
      rw [hstep] at h
      cases h
      exact ⟨hu.dev, .inr ⟨p, rfl, .inr ⟨i, hi, rfl, hu.block, hu.tid⟩⟩⟩
  · obtain ⟨u, hstep, hdev⟩ := @logStep_error _ .scan _ _ (by simp) hp hf
    rw [hstep] at h
    cases h
    exact ⟨hdev, .inl rfl⟩

/-- The scan changes nothing; if it succeeds the log has an end. -/
theorem scan_items {r : Except Errno Unit} {s' : LogPass} : ∀ {fuel : ℕ} {s : LogPass},
    jbdIterateLogLoop l .scan fuel s = some (r, s') → s'.dev = s.dev ∧ (r = .ok () →
      ∃ items n, l.Items s.dev s.thisBlock s.thisTransId items n ∧ n ≤ fuel)
  | 0, _, h => by cases h
  | fuel + 1, s, h => by
    rw [jbdIterateLogLoop] at h
    rcases hstep : jbdLogStep l .scan s with ⟨r', u⟩
    rw [hstep] at h
    obtain ⟨hdev, hcases⟩ := logStep_scan_cases s hstep
    rcases hcases with rfl | ⟨p, hp, ⟨hi, rfl⟩ | ⟨i, hi, rfl, hblock, htid⟩⟩
    · cases h
      exact ⟨hdev, fun hs => by cases hs⟩
    · cases h
      exact ⟨hdev, fun _ => ⟨[], 1, .stop hp hi, by omega⟩⟩
    · by_cases hend : l.after s.thisBlock i = l.start
      · rw [if_pos hend] at h
        cases h
        exact ⟨hdev, fun _ => ⟨[i], 1, .last hp hi hend, by omega⟩⟩
      · rw [if_neg hend] at h
        obtain ⟨hdev', hitems⟩ := scan_items h
        refine ⟨hdev'.trans hdev, fun hr => ?_⟩
        obtain ⟨items, n, hi', hn⟩ := hitems hr
        rw [hdev, hblock, htid] at hi'
        exact ⟨i :: items, n + 1, .cons hp hi hend hi', by omega⟩

/-- The records of the later transactions come last. -/
theorem records_bounds (sb : JbdSb) (items : List LogItem) (j : ℕ) :
    (∀ r ∈ LogItem.records sb j items, j ≤ r.1 ∧ r.1 ≤ j + LogItem.count items) ∧
      (LogItem.records sb j items).Pairwise fun r r' => r.1 ≤ r'.1 := by
  induction items generalizing j with
  | nil => exact ⟨nofun, .nil⟩
  | cons i is ih =>
    obtain ⟨h1, h2⟩ := ih (j + i.commits)
    rw [LogItem.records, count_cons]
    refine ⟨fun r hr => ?_, List.pairwise_append.2 ⟨?_, h2, ?_⟩⟩
    · rcases List.mem_append.1 hr with hr | hr
      · obtain ⟨b, -, rfl⟩ := List.mem_map.1 hr
        exact ⟨le_rfl, Nat.le_add_right _ _⟩
      · have := h1 r hr
        omega
    · rw [List.pairwise_map]
      exact List.pairwise_of_forall fun _ _ => le_rfl
    · intro r hr r' hr'
      obtain ⟨b, -, rfl⟩ := List.mem_map.1 hr
      have := h1 r' hr'
      show j ≤ r'.1
      omega

/-- **The revoke tree** knows the last transaction that revokes a block. -/
theorem live_eq {q j m : ℕ} {recs : List (ℕ × ℕ)} (hm : m < 2 ^ 31) (hj : j ≤ m)
    (hle : ∀ r ∈ recs, r.1 ≤ m) (hsorted : recs.Pairwise fun r r' => r.1 ≤ r'.1)
    (c : ℕ × TagRead) : LogItem.live recs j c =
      !revokedBy (LogItem.enter q recs fun _ => none) (u32 (q + j)) c.2 := by
  unfold LogItem.live
  congr 1
  induction recs using List.reverseRecOn with
  | nil => rfl
  | append_singleton recs r ih =>
    obtain ⟨hs1, -, hs2⟩ := List.pairwise_append.1 hsorted
    have ih := ih (fun r hr => hle r (List.mem_append_left _ hr)) hs1
    have hr := hle r (List.mem_append_right _ List.mem_cons_self)
    rw [List.any_append]
    unfold revokedBy at ih ⊢
    rw [LogItem.enter, List.foldl_append]
    change _ = (match (if c.2.block = r.2 then some (u32 (q + r.1))
      else LogItem.enter q recs (fun _ => none) c.2.block) with
      | some transId => decide (transIdDiff (u32 (q + j)) transId ≤ 0)
      | none => false)
    by_cases hb : c.2.block = r.2
    · rw [if_pos hb]
      simp only
      rw [transIdDiff_u32 (by omega) (by omega), Bool.eq_iff_iff]
      simp only [Bool.or_eq_true, List.any_eq_true, Bool.and_eq_true, beq_iff_eq,
        decide_eq_true_eq, List.mem_singleton, exists_eq_left]
      constructor
      · rintro (⟨r', hr', -, hle'⟩ | ⟨-, hle'⟩)
        · have := hs2 r' hr' r List.mem_cons_self
          omega
        · omega
      · exact fun h => .inr ⟨hb.symm, by omega⟩
    · rw [if_neg hb, ← ih]
      simp [Ne.symm hb]

/-- **The scan** of a whole log. -/
theorem iterateLog_scan {n fuel : ℕ} {items : List LogItem}
    (h : l.Items dev l.start l.sequence items n) (hseq : l.sequence < 2 ^ 32)
    (hfew : LogItem.count items < 2 ^ 31) (hn : n ≤ fuel) (faults : List Bool) :
    ∃ r s', jbdIterateLog l .scan fuel ⟨0, 0, 0, fun _ => none⟩ dev faults = some (r, s') ∧
      s'.dev = dev ∧ ((∃ f ∈ faults.take n, f = true) ∧ r = .error Errno.EIO ∨
        (∀ f ∈ faults.take n, f = false) ∧ r = .ok () ∧ s'.faults = faults.drop n ∧
          s'.info.transCnt = LogItem.count items ∧ s'.info.revokeRoot = (fun _ => none) ∧
          (0 < LogItem.count items →
            s'.info.lastTransId = u32 (l.sequence + (LogItem.count items - 1)))) := by
  have hs : (LogPass.begin l .scan ⟨0, 0, 0, fun _ => none⟩ dev faults).Is l.start l.sequence
      ⟨0, 0, 0, fun _ => none⟩ dev faults := ⟨rfl, rfl, rfl, rfl, rfl⟩
  obtain ⟨r, s', hrun, hdev, hr⟩ := scan_run h hn hseq hs (by simp only; omega)
  unfold jbdIterateLog
  simp only
  rw [if_neg (by simp), hrun]
  simp only [and_true]
  rcases hr with ⟨hbad, rfl⟩ | ⟨hgood, rfl, h1, h2, h3⟩
  · rw [if_neg nofun]
    exact ⟨_, _, rfl, hdev, .inl ⟨hbad, rfl⟩⟩
  · rw [if_pos rfl]
    refine ⟨_, _, rfl, hdev, .inr ⟨hgood, rfl, h1, ?_, ?_, ?_⟩⟩
    · show s'.info.transCnt = _
      rw [h3]
      exact Nat.zero_add _
    · show s'.info.revokeRoot = _
      rw [h3]
    · intro hpos
      have hdiff := transIdDiff_u32 (q := l.sequence) (a := LogItem.count items) (b := 0) (by omega)
        (by omega)
      rw [Nat.add_zero, u32_of_lt hseq] at hdiff
      show (if 0 < transIdDiff s'.thisTransId l.sequence then sub32 s'.thisTransId 1
        else s'.thisTransId) = _
      rw [h2, hdiff, if_pos (by omega), sub32, u32, u32]
      omega

theorem begin_is {action : JbdAction} (ha : action ≠ .scan) (info : RecoverInfo)
    (faults : List Bool) :
    (LogPass.begin l action info dev faults).Is l.start l.sequence info dev faults :=
  ⟨rfl, rfl, if_neg ha, rfl, rfl⟩

/-- A later pass starts in front of the whole log. -/
theorem begin_ahead {action : JbdAction} (ha : action ≠ .scan) {info : RecoverInfo}
    {items : List LogItem} (hseq : l.sequence < 2 ^ 32) (hfew : LogItem.count items < 2 ^ 31)
    (hpos : 0 < LogItem.count items)
    (hlast : info.lastTransId = u32 (l.sequence + (LogItem.count items - 1)))
    (faults : List Bool) :
    (LogPass.begin l action info dev faults).Ahead l.sequence 0 items := by
  have hs := @begin_is l dev _ ha info faults
  refine ⟨?_, ?_, by omega, by omega⟩
  · rw [hs.tid, Nat.add_zero, u32_of_lt hseq]
  · rw [hs.info, hlast, Nat.zero_add]

/-- **The second pass** over a whole log. -/
theorem iterateLog_revoke {n fuel : ℕ} {items : List LogItem} {info : RecoverInfo}
    (h : l.Items dev l.start l.sequence items n) (hseq : l.sequence < 2 ^ 32)
    (hfew : LogItem.count items < 2 ^ 31) (hn : n ≤ fuel)
    (hcnt : info.transCnt = LogItem.count items)
    (hlast : 0 < LogItem.count items →
      info.lastTransId = u32 (l.sequence + (LogItem.count items - 1))) (faults : List Bool) :
    ∃ r s', jbdIterateLog l .revoke fuel info dev faults = some (r, s') ∧ s'.dev = dev ∧
      LogPass.Revoked l l.sequence 0 items faults info r s' := by
  have hs := @begin_is l dev _ (show JbdAction.revoke ≠ .scan by decide) info faults
  unfold jbdIterateLog
  simp only
  by_cases h0 : LogItem.count items = 0
  · rw [if_pos ⟨by decide, hcnt.trans h0⟩]
    unfold LogPass.Revoked
    rw [committed_of_count h0]
    exact ⟨_, _, rfl, rfl, .inr ⟨by simp, rfl, rfl, hs.info⟩⟩
  · rw [if_neg fun hc => h0 (hcnt.symm.trans hc.2)]
    obtain ⟨r, s', hrun, hdev, hr⟩ := revoke_run h hn
      (begin_ahead (by decide) hseq hfew (by omega) (hlast (by omega)) faults) hs
    rw [hrun]
    simp only
    rw [if_neg fun hc => absurd hc.2 (by decide)]
    exact ⟨r, s', rfl, hdev, hr⟩

/-- **The last pass** over a whole log. -/
theorem iterateLog_recover {n fuel : ℕ} {items : List LogItem} {info : RecoverInfo}
    (h : l.Items dev l.start l.sequence items n) (hseq : l.sequence < 2 ^ 32)
    (hreg : l.Regular dev items) (hn : n ≤ fuel) (hcnt : info.transCnt = LogItem.count items)
    (hlast : 0 < LogItem.count items →
      info.lastTransId = u32 (l.sequence + (LogItem.count items - 1)))
    (hroot : info.revokeRoot = LogItem.enter l.sequence
      (LogItem.records l.sb 0 (LogItem.committed items)) fun _ => none) (faults : List Bool) :
    ∃ r s', jbdIterateLog l .recover fuel info dev faults = some (r, s') ∧ l.Same dev s'.dev ∧
      s'.Copied l dev (LogItem.plan (LogItem.records l.sb 0 (LogItem.committed items)) 0
        (LogItem.committed items)) (dev, faults) r := by
  have hs := @begin_is l dev _ (show JbdAction.recover ≠ .scan by decide) info faults
  have hfew : LogItem.count items < 2 ^ 31 := hreg.few
  unfold jbdIterateLog
  simp only
  by_cases h0 : LogItem.count items = 0
  · rw [if_pos ⟨by decide, hcnt.trans h0⟩]
    rw [committed_of_count h0]
    exact ⟨_, _, rfl, .refl dev, .inr ⟨rfl, rfl, rfl⟩⟩
  · rw [if_neg fun hc => h0 (hcnt.symm.trans hc.2)]
    obtain ⟨hle, hsorted⟩ := records_bounds l.sb (LogItem.committed items) 0
    have hcommitted : LogItem.count (LogItem.committed items) ≤ LogItem.count items := by
      obtain ⟨rest, hrest⟩ := committed_prefix items
      have hsum := congrArg LogItem.count hrest
      simp only [LogItem.count, List.map_append, List.sum_append] at hsum ⊢
      omega
    obtain ⟨r, s', hrun, hsame, hr⟩ := recover_run h hn
      (begin_ahead (by decide) hseq hfew (by omega) (hlast (by omega)) faults) hs (.refl dev)
      (fun j' hj' c => by
        rw [hroot]
        exact live_eq hfew (by omega) (fun r hr => by have := hle r hr; omega) hsorted c)
      hreg.apart
    rw [hrun]
    simp only
    rw [if_neg fun hc => absurd hc.2 (by decide)]
    exact ⟨r, s', rfl, hsame, hr⟩

end Together

/-! ## What is reported -/

namespace JbdLog

/-- All accesses of `jbd_recover`, when none fails: the scan looks at `n` blocks. -/
def recoverPlan (l : JbdLog) (items : List LogItem) (n : ℕ) : List LogAccess :=
  let committed := LogItem.committed items
  List.replicate n .header ++ (List.replicate committed.length .header ++
    LogItem.plan (LogItem.records l.sb 0 committed) 0 committed)

/-- Does the read of a header fail?  A copy that is not made for want of its
    log block makes no write. -/
def headerFails (l : JbdLog) (dev : ℕ → Mem) : List LogAccess → List Bool → Bool
  | [], _ => false
  | .header :: plan, faults => faults.headD false || l.headerFails dev plan faults.tail
  | .copy c :: plan, faults =>
    if (l.bmap dev c.1).isNone then l.headerFails dev plan faults
    else if faults.headD false then l.headerFails dev plan faults.tail
    else l.headerFails dev plan faults.tail.tail

/-- The errors behind the plan, when all of it works. -/
def works (l : JbdLog) (dev : ℕ → Mem) : List LogAccess → List Bool → Option (List Bool)
  | [], faults => some faults
  | .header :: plan, faults => if faults.headD false then none else l.works dev plan faults.tail
  | .copy c :: plan, faults =>
    if (l.bmap dev c.1).isNone || faults.headD false || faults.tail.headD false then none
    else l.works dev plan faults.tail.tail

/-- **No failure goes unreported**: the read of a header fails, or all accesses
    work, the write of the superblock too. -/
def Reported (l : JbdLog) (dev : ℕ → Mem) (faults : List Bool) : Prop :=
  l.start ≠ 0 → ∀ items n, l.Items dev l.start l.sequence items n →
    l.headerFails dev (l.recoverPlan items n) faults = true ∨
      ∃ rest, l.works dev (l.recoverPlan items n) faults = some rest ∧ rest.headD false = false

end JbdLog

/-- The copies of a plan. -/
def LogAccess.copies : List LogAccess → List (ℕ × TagRead)
  | [] => []
  | .header :: plan => copies plan
  | .copy c :: plan => c :: copies plan

section Reports

variable {l : JbdLog} {dev₀ : ℕ → Mem}

theorem run_fst (plan : List LogAccess) (x : (ℕ → Mem) × List Bool) :
    (l.run dev₀ plan x).1 = !l.headerFails dev₀ plan x.2 := by
  induction plan generalizing x with
  | nil => rfl
  | cons a plan ih =>
    cases a with
    | header =>
      rw [JbdLog.run, JbdLog.headerFails]
      rcases x.2.headD false with - | -
      · exact ih _
      · rfl
    | copy c =>
      rw [JbdLog.run, JbdLog.headerFails, ih, JbdLog.copyStep]
      rcases l.bmap dev₀ c.1 with - | p
      · rfl
      · simp only [Option.isNone_some, Bool.false_eq_true, if_false]
        split_ifs <;> rfl

/-- What works makes all copies, and no access fails. -/
theorem run_works {plan : List LogAccess} {faults rest : List Bool} (dev : ℕ → Mem)
    (h : l.works dev₀ plan faults = some rest) :
    l.run dev₀ plan (dev, faults) =
      (true, (LogAccess.copies plan).foldl (l.putBack dev₀) dev, rest) ∧
      (∀ c ∈ LogAccess.copies plan, (l.bmap dev₀ c.1).isSome) ∧
      ∃ k, rest = faults.drop k ∧ ∀ f ∈ faults.take k, f = false := by
  induction plan generalizing dev faults with
  | nil =>
    cases h
    exact ⟨rfl, nofun, 0, rfl, by simp⟩
  | cons a plan ih =>
    cases a with
    | header =>
      rw [JbdLog.works] at h
      rcases hf : faults.headD false with - | -
      · rw [hf, if_neg (by decide)] at h
        obtain ⟨h1, h2, k, rfl, hk⟩ := ih dev h
        refine ⟨?_, h2, k + 1, by rw [List.drop_tail], take_good hf hk⟩
        rw [JbdLog.run, hf, if_neg (by decide)]
        exact h1
      · rw [hf, if_pos rfl] at h
        cases h
    | copy c =>
      rw [JbdLog.works] at h
      by_cases hbad : (l.bmap dev₀ c.1).isNone || faults.headD false || faults.tail.headD false
      · rw [if_pos hbad] at h
        cases h
      rw [if_neg hbad] at h
      simp only [Bool.or_eq_true, not_or, Bool.not_eq_true] at hbad
      obtain ⟨⟨hmap, hf⟩, hf2⟩ := hbad
      rcases hp : l.bmap dev₀ c.1 with - | p
      · rw [hp] at hmap
        cases hmap
      obtain ⟨h1, h2, k, rfl, hk⟩ := ih (l.restore c.2 (dev₀ p) dev) h
      refine ⟨?_, ?_, k + 2, ?_, take_good hf (take_good hf2 hk)⟩
      · rw [JbdLog.run, JbdLog.copyStep, hp]
        simp only [hf, hf2, Bool.false_eq_true, if_false]
        rw [h1, LogAccess.copies, List.foldl_cons, JbdLog.putBack, hp]
      · intro c' hc'
        rcases List.mem_cons.1 hc' with rfl | hc'
        · rw [hp]
          rfl
        · exact h2 c' hc'
      · rw [List.drop_tail, List.drop_tail]

/-- The headers of the first two passes. -/
theorem run_headers (m : ℕ) (plan : List LogAccess) (dev : ℕ → Mem) (faults : List Bool) :
    (∃ f ∈ faults.take m, f = true) ∧
        (l.run dev₀ (List.replicate m .header ++ plan) (dev, faults)).1 = false ∨
      (∀ f ∈ faults.take m, f = false) ∧ l.run dev₀ (List.replicate m .header ++ plan) (dev, faults) =
        l.run dev₀ plan (dev, faults.drop m) := by
  induction m generalizing faults with
  | zero => exact .inr ⟨by simp, rfl⟩
  | succ m ih =>
    rw [List.replicate_succ, List.cons_append, JbdLog.run]
    rcases hf : faults.headD false with - | -
    · rw [if_neg (by decide)]
      rcases ih faults.tail with ⟨hbad, h⟩ | ⟨hgood, h⟩
      · exact .inl ⟨take_bad hbad, h⟩
      · exact .inr ⟨take_good hf hgood, by rw [h, List.drop_tail]⟩
    · rw [if_pos rfl]
      exact .inl ⟨take_head hf m, rfl⟩

theorem copies_append (plan plan' : List LogAccess) :
    LogAccess.copies (plan ++ plan') = LogAccess.copies plan ++ LogAccess.copies plan' := by
  induction plan with
  | nil => rfl
  | cons a plan ih => cases a <;> simp [LogAccess.copies, ih]

theorem copies_headers (m : ℕ) : LogAccess.copies (List.replicate m .header) = [] := by
  induction m with
  | zero => rfl
  | succ m ih => exact ih

theorem copies_plan (recs : List (ℕ × ℕ)) (j : ℕ) (items : List LogItem) :
    LogAccess.copies (LogItem.plan recs j items) = LogItem.restores recs j items := by
  have hmap (cs : List (ℕ × TagRead)) : LogAccess.copies (cs.map .copy) = cs := by
    induction cs with
    | nil => rfl
    | cons c cs ih => rw [List.map_cons, LogAccess.copies, ih]
  induction items generalizing j with
  | nil => rfl
  | cons i is ih =>
    rw [LogItem.plan, LogItem.restores, List.cons_append, LogAccess.copies, copies_append, hmap, ih]

/-- The plan copies what the log has to restore. -/
theorem copies_recoverPlan (items : List LogItem) (n : ℕ) :
    LogAccess.copies (l.recoverPlan items n) = l.mustRestore items := by
  unfold JbdLog.recoverPlan JbdLog.mustRestore
  rw [copies_append, copies_append, copies_headers, copies_headers, copies_plan]
  rfl

/-- **What recovery does** is the run of its plan, and the write of the
    superblock behind it. -/
theorem recover_run_plan {n fuel : ℕ} {items : List LogItem} (hstart : l.start ≠ 0)
    (h : l.Items dev₀ l.start l.sequence items n) (hseq : l.sequence < 2 ^ 32)
    (hreg : l.Regular dev₀ items) (hn : n ≤ fuel) (faults : List Bool) :
    ∃ r s, l.jbdRecover fuel dev₀ faults = some (r, s) ∧ l.Same dev₀ s.dev ∧
      let x := l.run dev₀ (l.recoverPlan items n) (dev₀, faults)
      (x.1 = false ∧ r = .error Errno.EIO ∧ s.start = l.start ∧ s.sequence = l.sequence ∧
          s.recoverFlag = true ∨
        x.1 = true ∧ s.dev = x.2.1 ∧ s.faults = x.2.2.tail ∧ s.start = 0 ∧
          r = if x.2.2.headD false then .error Errno.EIO else .ok ()) := by
  have hfew : LogItem.count items < 2 ^ 31 := hreg.few
  obtain ⟨r₁, s₁, hrun₁, hdev₁, h₁⟩ := iterateLog_scan h hseq hfew hn faults
  have hplan₁ := @run_headers l dev₀ n (List.replicate (LogItem.committed items).length .header ++
      LogItem.plan (LogItem.records l.sb 0 (LogItem.committed items)) 0 (LogItem.committed items)) dev₀ faults
  have hcontra {fs : List Bool} (hbad : ∃ f ∈ fs, f = true) (hgood : ∀ f ∈ fs, f = false) : False := by
    obtain ⟨f, hf, rfl⟩ := hbad
    exact absurd (hgood true hf) (by decide)
  unfold JbdLog.jbdRecover JbdLog.recoverPlan
  rw [if_neg hstart, hrun₁]
  rcases h₁ with ⟨hbad, rfl⟩ | ⟨hgood, rfl, hf₁, hcnt, hroot, hlast⟩
  · refine ⟨_, _, rfl, ?_, .inl ⟨?_, rfl, rfl, rfl, rfl⟩⟩
    · rw [JbdLog.keep, hdev₁]
      exact .refl dev₀
    · rcases hplan₁ with ⟨-, h⟩ | ⟨hgood, -⟩
      · exact h
      · exact (hcontra hbad hgood).elim
  obtain ⟨r₂, s₂, hrun₂, hdev₂, h₂⟩ := iterateLog_revoke h hseq hfew hn hcnt hlast s₁.faults
  have hplan₂ := @run_headers l dev₀ (LogItem.committed items).length
    (LogItem.plan (LogItem.records l.sb 0 (LogItem.committed items)) 0
      (LogItem.committed items)) dev₀ (faults.drop n)
  rcases hplan₁ with ⟨hbad, -⟩ | ⟨-, hplan₁⟩
  · exact (hcontra hbad hgood).elim
  simp only
  rw [hdev₁, hrun₂, hplan₁]
  rw [hf₁] at h₂
  rcases h₂ with ⟨hbad, rfl⟩ | ⟨hgood₂, rfl, hf₂, hinfo⟩
  · refine ⟨_, _, rfl, ?_, .inl ⟨?_, rfl, rfl, rfl, rfl⟩⟩
    · rw [JbdLog.keep, hdev₂]
      exact .refl dev₀
    · rcases hplan₂ with ⟨-, h⟩ | ⟨hgood, -⟩
      · exact h
      · exact (hcontra hbad hgood).elim
  rcases hplan₂ with ⟨hbad, -⟩ | ⟨-, hplan₂⟩
  · exact (hcontra hbad hgood₂).elim
  obtain ⟨r₃, s₃, hrun₃, hsame₃, h₃⟩ := @iterateLog_recover _ _ _ _ _ s₂.info h hseq hreg hn
    (by rw [hinfo]; exact hcnt) (by rw [hinfo]; exact hlast) (by rw [hinfo, hroot]) s₂.faults
  simp only
  rw [hdev₂, hrun₃, hplan₂, ← hf₂]
  rcases h₃ with ⟨hx, rfl⟩ | ⟨hx, rfl, hres⟩
  · exact ⟨_, _, rfl, hsame₃, .inl ⟨hx, rfl, rfl, rfl, rfl⟩⟩
  · rw [← hres]
    simp only [JbdLog.clear, access_eq]
    refine ⟨_, _, rfl, hsame₃, .inr ⟨hx, rfl, rfl, rfl, ?_⟩⟩
    cases s₃.faults.headD false <;> rfl

/-- Recovery fails in the scan, which changes nothing, or the log has an end. -/
theorem recover_cases {fuel : ℕ} {faults : List Bool} {r : Except Errno Unit} {s : Recovery}
    (hstart : l.start ≠ 0) (h : l.jbdRecover fuel dev₀ faults = some (r, s)) :
    (∃ s₁ : LogPass, s = l.keep s₁ ∧ s₁.dev = dev₀ ∧ r ≠ .ok ()) ∨
      ∃ items n, l.Items dev₀ l.start l.sequence items n ∧ n ≤ fuel := by
  unfold JbdLog.jbdRecover at h
  rw [if_neg hstart] at h
  unfold jbdIterateLog at h
  simp only at h
  rw [if_neg (by simp)] at h
  rcases hloop : jbdIterateLogLoop l .scan fuel
    (.begin l .scan ⟨0, 0, 0, fun _ => none⟩ dev₀ faults) with - | ⟨r₁, s₁⟩
  · rw [hloop] at h
    cases h
  rw [hloop] at h
  obtain ⟨hdev, hitems⟩ := scan_items hloop
  rcases r₁ with e | ⟨⟩
  · simp only [reduceCtorEq, false_and, if_false] at h
    cases h
    exact .inl ⟨s₁, rfl, hdev, nofun⟩
  · exact .inr (hitems rfl)

end Reports

/-! ## A log of one transaction -/

/-- A descriptor block with a tag for block 50, the copy of that block, and the
    commit block. -/
def copyDev : ℕ → Mem
  | 1 => putBE (putBE (logHeader jbdDescriptorBlock) 12 4 50) 18 2 10
  | 2 => fun _ => 9
  | 3 => logHeader jbdCommitBlock
  | _ => fun _ => 0

/-- The journal of that log, which takes all of its blocks. -/
def copyLog : JbdLog where
  sb := plainSb
  first := 1
  maxlen := 4
  start := 1
  sequence := 7
  bmap := fun _ b => if b < 4 then some b else none
  metaCsumOk := fun _ => true
  commitCsumOk := fun _ => true
  sbWrite := fun _ dev => dev

theorem copy_items : ∃ t : TagRead, t.block = 50 ∧
    copyLog.Items copyDev 1 7 [.descriptor [(2, t)], .commit] 2 := by
  have htags : ((jbdIterateBlockTableT plainSb (copyDev 1)).val.map TagRead.block) = [50] := by
    decide +kernel
  obtain ⟨t, ht, hblock⟩ := List.map_eq_singleton_iff.1 htags
  have hnext1 : copyLog.next 1 = 2 := by decide +kernel
  have hnext2 : copyLog.next 2 = 3 := by decide +kernel
  have hnext3 : copyLog.next 3 = 1 := by decide +kernel
  have h1 : copyLog.readItem (copyDev 1) 1 7 = some (.descriptor [(2, t)]) := by
    unfold JbdLog.readItem
    rw [if_neg (by decide +kernel), if_neg (by decide +kernel), if_pos (by decide +kernel),
      if_pos (show copyLog.metaCsumOk _ = true from rfl)]
    show some (LogItem.descriptor (copyLog.place 1 (jbdIterateBlockTableT plainSb (copyDev 1)).val)) = _
    rw [ht, JbdLog.place, JbdLog.place, hnext1]
  have h3 : copyLog.readItem (copyDev 3) 3 7 = some .commit := by
    unfold JbdLog.readItem
    rw [if_neg (by decide +kernel), if_neg (by decide +kernel), if_neg (by decide +kernel),
      if_pos (by decide +kernel), if_pos (show copyLog.commitCsumOk _ = true from rfl)]
  have hafter : copyLog.after 1 (.descriptor [(2, t)]) = 3 := by
    show copyLog.next (copyLog.next 1) = 3
    rw [hnext1, hnext2]
  refine ⟨t, hblock, .cons rfl h1 (by rw [hafter]; decide) ?_⟩
  rw [hafter]
  have htid : u32 (7 + (LogItem.descriptor [(2, t)]).commits) = 7 :=
    u32_of_lt (show 7 + 0 < 2 ^ 32 by decide)
  rw [htid]
  exact .last rfl h3 hnext3

theorem copy_regular : ∀ items n, copyLog.Items copyDev copyLog.start copyLog.sequence items n →
    copyLog.Regular copyDev items := by
  intro items n h
  obtain ⟨t, ht, h'⟩ := copy_items
  obtain ⟨rfl, rfl⟩ := items_unique h h'
  refine ⟨fun c hc data dev' hsame k => ⟨rfl, fun p hp => ?_⟩, show 0 + (1 + 0) < 2 ^ 31 by decide⟩
  have hc : c = (2, t) := by
    have hmem : c ∈ [(2, t)] := hc
    rwa [List.mem_singleton] at hmem
  have hk : k < 4 ∧ k = p := by
    change (if k < 4 then some k else none) = some p at hp
    split_ifs at hp with hlt
    exact ⟨hlt, Option.some.inj hp⟩
  have hne : p ≠ t.block := by
    rw [ht]
    omega
  rw [hc, ← (hsame k).2 p hp, JbdLog.restore, if_neg (by rw [ht]; decide)]
  exact if_neg hne

end Lwext4
