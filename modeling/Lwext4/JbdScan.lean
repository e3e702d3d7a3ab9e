/-
  The passes of recovery over the log: `jbd_iterate_log`.

  The log is read through the mapping of the journal inode from the blocks of
  the device, which the last pass overwrites as it goes.  A pass ends when the
  block behind the one just read is the start of the log.  The position also
  moves with every tag of a descriptor block; as long as no tag stands for the
  start block the pass ends within one round, and reads no block twice, even
  where it overwrites the log (`iterateLog_terminates`).  A tag that stands for
  the start block can make it go on for ever (`scan_for_ever`).
-/
import Lwext4.JbdBounds
import Lwext4.Lib.Ring

namespace Lwext4

open Lib

/-! ## The log -/

/-- The journal: what the passes read of `struct jbd_sb`, and the functions
    they call.  `bmap` is `jbd_inode_bmap`, which may read the device;
    `metaCsumOk` is `jbd_verify_meta_csum`, `commitCsumOk` is
    `jbd_verify_commit_csum`; `sbWrite` is what the device holds after a
    logged superblock has been written. -/
structure JbdLog where
  sb : JbdSb
  first : ℕ
  maxlen : ℕ
  start : ℕ
  sequence : ℕ
  bmap : (ℕ → Mem) → ℕ → Option ℕ
  metaCsumOk : Mem → Bool
  commitCsumOk : Mem → Bool
  sbWrite : Mem → (ℕ → Mem) → ℕ → Mem

/-- The argument `action`. -/
inductive JbdAction where
  | scan
  | revoke
  | recover
  deriving DecidableEq

/-- `struct recover_info`. -/
structure RecoverInfo where
  startTransId : ℕ
  lastTransId : ℕ
  transCnt : ℕ
  revokeRoot : RevokeTree

/-- A pass: its position and transaction, the blocks of the device, whether the
    next accesses fail, the log blocks it has come by, and those of them that
    tags stood for. -/
structure LogPass where
  thisBlock : ℕ
  thisTransId : ℕ
  info : RecoverInfo
  dev : ℕ → Mem
  faults : List Bool
  trail : List ℕ
  tagged : List ℕ

namespace JbdLog

/-- `wrap`. -/
def wrap (l : JbdLog) (var : ℕ) : ℕ :=
  if l.maxlen ≤ var then sub32 var (sub32 l.maxlen l.first) else var

/-- `this_block++` and `wrap`. -/
def next (l : JbdLog) (block : ℕ) : ℕ := l.wrap (u32 (block + 1))

end JbdLog

/-- `trans_id_diff`. -/
def transIdDiff (x y : ℕ) : ℤ := int32 (x - y)

/-- An access to the device: does it work? -/
def LogPass.access (s : LogPass) : Bool × LogPass :=
  match s.faults with
  | [] => (true, s)
  | f :: rest => (!f, { s with faults := rest })

/-- `jbd_block_get`: the block of the device. -/
def jbdBlockGet (l : JbdLog) (s : LogPass) : Option ℕ × LogPass :=
  match l.bmap s.dev s.thisBlock with
  | none => (none, s)
  | some p =>
    match s.access with
    | (true, s) => (some p, s)
    | (false, s) => (none, s)

/-- The position moves to the block of a tag. -/
def LogPass.toTag (l : JbdLog) (s : LogPass) : LogPass where
  __ := s
  thisBlock := l.next s.thisBlock
  trail := s.trail ++ [l.next s.thisBlock]
  tagged := s.tagged ++ [l.next s.thisBlock]

/-- `jbd_display_block_tags`. -/
def jbdDisplayBlockTags (l : JbdLog) (_ : TagRead) (s : LogPass) : LogPass := s.toTag l

/-- The block a tag stands for is copied to its place; `p` holds it in the log. -/
def LogPass.replay (l : JbdLog) (t : TagRead) (p : ℕ) (s : LogPass) : LogPass :=
  match s.access with
  | (false, s) => s
  | (true, s) =>
    if t.block = 0 then { s with dev := l.sbWrite (s.dev p) s.dev }
    else
      let data : Mem := fun i => if i < l.sb.blocksize then s.dev p i else s.dev t.block i
      let data := if t.isEscape then putBE data 0 4 jbdMagicNumber else data
      { s with dev := fun b => if b = t.block then data else s.dev b }

/-- `jbd_replay_block_tags`. -/
def jbdReplayBlockTags (l : JbdLog) (t : TagRead) (s : LogPass) : LogPass :=
  let s := s.toTag l
  let revoked := match s.info.revokeRoot t.block with
    | some transId => decide (transIdDiff s.thisTransId transId ≤ 0)
    | none => false
  if revoked then s
  else
    match jbdBlockGet l s with
    | (none, s) => s
    | (some p, s) => s.replay l t p

/-- `jbd_iterate_block_table` with a callback, on the descriptor block in block
    `p` of the device. -/
def jbdIterateTable (l : JbdLog) (func : TagRead → LogPass → LogPass) (p : ℕ) :
    (fuel tagPtr : ℕ) → (tagTblSize : ℤ) → LogPass → LogPass
  | 0, _, _, s => s
  | fuel + 1, tagPtr, tagTblSize, s =>
    if tagTblSize = 0 then s
    else match (jbdExtractBlockTagT l.sb (s.dev p) tagPtr tagTblSize).val with
      | none => s
      | some t =>
        if t.lastTag then func t s
        else jbdIterateTable l func p fuel (tagPtr + t.tagBytes) (tagTblSize - t.tagBytes) (func t s)

/-- The case of a descriptor block. -/
def jbdDescriptor (l : JbdLog) (action : JbdAction) (p : ℕ) (s : LogPass) : LogPass :=
  let func := if action = .recover then jbdReplayBlockTags l else jbdDisplayBlockTags l
  jbdIterateTable l func p (jbdTagArea l.sb) jbdBhdrSize (jbdTagTblSize l.sb) s

/-- The `switch` of `jbd_iterate_log`, on the block in block `p` of the device:
    does the log end here? -/
def jbdLogBlock (l : JbdLog) (action : JbdAction) (p : ℕ) (s : LogPass) : Bool × LogPass :=
  let header := s.dev p
  let blocktype := getBE header 4 4
  if blocktype = jbdDescriptorBlock then
    if l.metaCsumOk header then (false, jbdDescriptor l action p s) else (true, s)
  else if blocktype = jbdCommitBlock then
    if l.commitCsumOk header then
      (false, { s with
        thisTransId := u32 (s.thisTransId + 1)
        info := if action = .scan then { s.info with transCnt := u32 (s.info.transCnt + 1) }
          else s.info })
    else (true, s)
  else if blocktype = jbdRevokeBlock then
    if l.metaCsumOk header then
      (false, if action = .revoke then
        { s with info := { s.info with
          revokeRoot := jbdBuildRevokeTree l.sb s.thisTransId s.info.revokeRoot header } }
      else s)
    else (true, s)
  else (true, s)

/-- One round of the loop of `jbd_iterate_log`; the result is there when the
    loop ends. -/
def jbdLogStep (l : JbdLog) (action : JbdAction) (s : LogPass) :
    Option (Except Errno Unit) × LogPass :=
  if action ≠ .scan ∧ 0 < transIdDiff s.thisTransId s.info.lastTransId then (some (.ok ()), s)
  else
    match jbdBlockGet l s with
    | (none, s) => (some (.error Errno.EIO), s)
    | (some p, s) =>
      let header := s.dev p
      let s := { s with trail := s.trail ++ [s.thisBlock] }
      if getBE header 0 4 ≠ jbdMagicNumber then (some (.ok ()), s)
      else if getBE header 8 4 ≠ s.thisTransId then
        (some (if action = .scan then .ok () else .error Errno.EIO), s)
      else
        let (logEnd, s) := jbdLogBlock l action p s
        let s := { s with thisBlock := l.next s.thisBlock }
        (if logEnd || s.thisBlock == l.start then some (.ok ()) else none, s)

/-- The loop of `jbd_iterate_log`, for `fuel` rounds at most. -/
def jbdIterateLogLoop (l : JbdLog) (action : JbdAction) :
    (fuel : ℕ) → LogPass → Option (Except Errno Unit × LogPass)
  | 0, _ => none
  | fuel + 1, s =>
    match jbdLogStep l action s with
    | (some r, s) => some (r, s)
    | (none, s) => jbdIterateLogLoop l action fuel s

/-- A pass before its first round. -/
def LogPass.begin (l : JbdLog) (action : JbdAction) (info : RecoverInfo) (dev : ℕ → Mem)
    (faults : List Bool) : LogPass where
  thisBlock := l.start
  thisTransId := l.sequence
  info := if action = .scan then { info with transCnt := 0 } else info
  dev := dev
  faults := faults
  trail := []
  tagged := []

/-- `jbd_iterate_log`. -/
def jbdIterateLog (l : JbdLog) (action : JbdAction) (fuel : ℕ) (info : RecoverInfo)
    (dev : ℕ → Mem) (faults : List Bool) : Option (Except Errno Unit × LogPass) :=
  let s := LogPass.begin l action info dev faults
  if action ≠ .scan ∧ info.transCnt = 0 then some (.ok (), s)
  else
    match jbdIterateLogLoop l action fuel s with
    | none => none
    | some (r, s) =>
      some (r, if r = .ok () ∧ action = .scan then
        { s with info := { s.info with
          startTransId := l.sequence
          lastTransId := if 0 < transIdDiff s.thisTransId l.sequence
            then sub32 s.thisTransId 1 else s.thisTransId } }
      else s)

/-- The states before the rounds of a pass. -/
inductive LogPass.Reaches (l : JbdLog) (action : JbdAction) (s : LogPass) : LogPass → Prop
  | refl : Reaches l action s s
  | step {t u : LogPass} (h : Reaches l action s t) (hs : jbdLogStep l action t = (none, u)) :
    Reaches l action s u

/-! ## Positions -/

section Run

variable {l : JbdLog} {action : JbdAction} {s s' : LogPass}

/-- The start lies in the log. -/
structure JbdLog.Ring (l : JbdLog) : Prop where
  first_le : l.first ≤ l.start
  start_lt : l.start < l.maxlen
  maxlen_lt : l.maxlen < 2 ^ 32

/-- The blocks of the log. -/
def JbdLog.size (l : JbdLog) : ℕ := l.maxlen - l.first

/-- The block at offset `k` from the start. -/
def JbdLog.at' (l : JbdLog) (k : ℕ) : ℕ := Ring.pos l.first l.size (l.start - l.first + k)

theorem JbdLog.at_inj {i j : ℕ} (hij : l.at' i = l.at' j) (hi : i < l.size) (hj : j < l.size) : i = j := by
  rcases Nat.le_total i j with hle | hle
  · have := Ring.pos_inj hij (by omega) (by omega)
    omega
  · have := Ring.pos_inj hij.symm (by omega) (by omega)
    omega

theorem JbdLog.nodup {k : ℕ} (hk : k ≤ l.size) : ((List.range k).map l.at').Nodup := by
  refine List.Nodup.map_on ?_ List.nodup_range
  intro i hi j hj hij
  rw [List.mem_range] at hi hj
  exact JbdLog.at_inj hij (by omega) (by omega)

namespace JbdLog.Ring

variable (h : l.Ring)
include h

theorem size_pos : 0 < l.size := by
  have := h.first_le
  have := h.start_lt
  unfold JbdLog.size
  omega

theorem at_zero : l.at' 0 = l.start := by
  have := h.first_le
  have := h.start_lt
  unfold JbdLog.at' Ring.pos JbdLog.size
  rw [Nat.add_zero, Nat.mod_eq_of_lt (by omega)]
  omega

theorem at_size : l.at' l.size = l.start := by
  rw [← h.at_zero]
  unfold JbdLog.at'
  exact Ring.pos_add_size

theorem next_at (k : ℕ) : l.next (l.at' k) = l.at' (k + 1) := by
  have h1 := h.first_le
  have h2 := h.start_lt
  have h3 := h.maxlen_lt
  have hs := h.size_pos
  have hlt : l.at' k < l.first + l.size := Ring.pos_lt hs
  have hsize : l.first + l.size = l.maxlen := by
    unfold JbdLog.size
    omega
  have hadd : l.at' (k + 1) = if l.first + l.size ≤ l.at' k + 1 then l.at' k + 1 - l.size
      else l.at' k + 1 := Ring.pos_add hs hs
  rw [hadd, hsize, JbdLog.next, u32_of_lt (by omega), JbdLog.wrap]
  split_ifs with hle
  · have hsub : sub32 l.maxlen l.first = l.size := sub32_of_le (by omega) h3
    rw [hsub, sub32_of_le (by omega) (by omega)]
  · rfl

end JbdLog.Ring

/-! ## One round -/

/-- The position has moved over the blocks of `n` tags. -/
structure LogPass.Moved (l : JbdLog) (n : ℕ) (s s' : LogPass) : Prop where
  block : s'.thisBlock = l.next^[n] s.thisBlock
  trail : s'.trail = s.trail ++ (List.range n).map fun i => l.next^[i + 1] s.thisBlock
  tagged : s'.tagged = s.tagged ++ (List.range n).map fun i => l.next^[i + 1] s.thisBlock

/-- The position is where it was. -/
structure LogPass.Kept (s s' : LogPass) : Prop where
  block : s'.thisBlock = s.thisBlock
  trail : s'.trail = s.trail
  tagged : s'.tagged = s.tagged

theorem LogPass.Kept.refl (s : LogPass) : s.Kept s := ⟨rfl, rfl, rfl⟩

theorem LogPass.Kept.moved (h : s.Kept s') : s.Moved l 0 s' :=
  ⟨h.block, by rw [h.trail]; simp, by rw [h.tagged]; simp⟩

theorem access_kept (s : LogPass) : s.Kept s.access.2 := by
  unfold LogPass.access
  rcases s.faults with - | ⟨f, rest⟩
  · exact .refl s
  · exact ⟨rfl, rfl, rfl⟩

theorem blockGet_kept (l : JbdLog) (s : LogPass) : s.Kept (jbdBlockGet l s).2 := by
  unfold jbdBlockGet
  have hk := access_kept s
  rcases l.bmap s.dev s.thisBlock with - | p
  · exact .refl s
  · rcases ha : s.access with ⟨- | -, s'⟩ <;> rw [ha] at hk <;> exact hk

theorem replay_kept (t : TagRead) (p : ℕ) (s : LogPass) : s.Kept (s.replay l t p) := by
  unfold LogPass.replay
  have hk := access_kept s
  rcases ha : s.access with ⟨- | -, s'⟩ <;> rw [ha] at hk
  · exact hk
  · simp only
    by_cases h0 : t.block = 0
    · rw [if_pos h0]
      exact ⟨hk.block, hk.trail, hk.tagged⟩
    · rw [if_neg h0]
      exact ⟨hk.block, hk.trail, hk.tagged⟩

theorem LogPass.Moved.trans {m n : ℕ} {s'' : LogPass} (h : s.Moved l m s') (h' : s'.Moved l n s'') :
    s.Moved l (m + n) s'' := by
  have hlist : ((List.range (m + n)).map fun i => l.next^[i + 1] s.thisBlock) =
      ((List.range m).map fun i => l.next^[i + 1] s.thisBlock) ++
        (List.range n).map fun i => l.next^[i + 1] s'.thisBlock := by
    rw [List.range_add, List.map_append, List.map_map]
    refine congrArg _ (List.map_congr_left fun i _ => ?_)
    rw [h.block, ← Function.iterate_add_apply]
    show l.next^[m + i + 1] _ = _
    rw [Nat.add_comm (i + 1) m, Nat.add_assoc]
  constructor
  · rw [h'.block, h.block, ← Function.iterate_add_apply, Nat.add_comm]
  · rw [h'.trail, h.trail, hlist, List.append_assoc]
  · rw [h'.tagged, h.tagged, hlist, List.append_assoc]

theorem toTag_moved (l : JbdLog) (s : LogPass) : s.Moved l 1 (s.toTag l) := ⟨rfl, rfl, rfl⟩

theorem LogPass.Moved.kept {n : ℕ} {s'' : LogPass} (h : s.Moved l n s') (h' : s'.Kept s'') :
    s.Moved l n s'' :=
  ⟨h'.block.trans h.block, h'.trail.trans h.trail, h'.tagged.trans h.tagged⟩

theorem replayBlockTags_moved (t : TagRead) (s : LogPass) :
    s.Moved l 1 (jbdReplayBlockTags l t s) := by
  have hm := toTag_moved l s
  unfold jbdReplayBlockTags
  simp only
  generalize (match (s.toTag l).info.revokeRoot t.block with
    | some transId => decide (transIdDiff (s.toTag l).thisTransId transId ≤ 0)
    | none => false) = revoked
  cases revoked
  · have hk := blockGet_kept l (s.toTag l)
    rcases hg : jbdBlockGet l (s.toTag l) with ⟨- | p, s'⟩ <;> rw [hg] at hk
    · exact hm.kept hk
    · exact (hm.kept hk).kept (replay_kept t p s')
  · exact hm

/-- **The tags of a descriptor block** move the position over one block each. -/
theorem iterateTable_moved {func : TagRead → LogPass → LogPass}
    (hfunc : ∀ t (s : LogPass), s.Moved l 1 (func t s)) (p : ℕ) : ∀ (fuel tagPtr : ℕ) (size : ℤ) (s : LogPass),
      ∃ n ≤ fuel, s.Moved l n (jbdIterateTable l func p fuel tagPtr size s)
  | 0, _, _, s => ⟨0, le_rfl, (LogPass.Kept.refl s).moved⟩
  | fuel + 1, tagPtr, size, s => by
    unfold jbdIterateTable
    split_ifs
    · exact ⟨0, Nat.zero_le _, (LogPass.Kept.refl s).moved⟩
    rcases (jbdExtractBlockTagT l.sb (s.dev p) tagPtr size).val with - | t
    · exact ⟨0, Nat.zero_le _, (LogPass.Kept.refl s).moved⟩
    · simp only
      split_ifs
      · exact ⟨1, by omega, hfunc t s⟩
      · obtain ⟨n, hle, hn⟩ := iterateTable_moved hfunc p fuel (tagPtr + t.tagBytes)
          (size - t.tagBytes) (func t s)
        exact ⟨1 + n, by omega, (hfunc t s).trans hn⟩

theorem descriptor_moved (p : ℕ) (s : LogPass) :
    ∃ n ≤ jbdTagArea l.sb, s.Moved l n (jbdDescriptor l action p s) := by
  unfold jbdDescriptor
  by_cases ha : action = .recover
  · rw [if_pos ha]
    exact iterateTable_moved replayBlockTags_moved ..
  · rw [if_neg ha]
    exact iterateTable_moved (fun _ s => toTag_moved l s) ..

theorem info_kept (s : LogPass) (info : RecoverInfo) : s.Kept { s with info := info } :=
  ⟨rfl, rfl, rfl⟩

theorem logBlock_moved (p : ℕ) (s : LogPass) :
    ∃ n ≤ jbdTagArea l.sb, s.Moved l n (jbdLogBlock l action p s).2 := by
  have hzero {s' : LogPass} (h : s.Kept s') : ∃ n ≤ jbdTagArea l.sb, s.Moved l n s' :=
    ⟨0, Nat.zero_le _, h.moved⟩
  unfold jbdLogBlock
  simp only
  by_cases h1 : getBE (s.dev p) 4 4 = jbdDescriptorBlock
  · rw [if_pos h1]
    by_cases hc : l.metaCsumOk (s.dev p) = true
    · rw [if_pos hc]
      exact descriptor_moved p s
    · rw [if_neg hc]
      exact hzero (.refl s)
  rw [if_neg h1]
  by_cases h2 : getBE (s.dev p) 4 4 = jbdCommitBlock
  · rw [if_pos h2]
    by_cases hc : l.commitCsumOk (s.dev p) = true
    · rw [if_pos hc]
      exact hzero ⟨rfl, rfl, rfl⟩
    · rw [if_neg hc]
      exact hzero (.refl s)
  rw [if_neg h2]
  by_cases h5 : getBE (s.dev p) 4 4 = jbdRevokeBlock
  · rw [if_pos h5]
    by_cases hc : l.metaCsumOk (s.dev p) = true
    · rw [if_pos hc]
      by_cases ha : action = .revoke
      · rw [if_pos ha]
        exact hzero (info_kept s _)
      · rw [if_neg ha]
        exact hzero (.refl s)
    · rw [if_neg hc]
      exact hzero (.refl s)
  · rw [if_neg h5]
    exact hzero (.refl s)

/-- The pass has come by the first `k` blocks of the log and is at the next one. -/
structure LogPass.At (l : JbdLog) (s : LogPass) (k : ℕ) : Prop where
  block : s.thisBlock = l.at' k
  trail : s.trail = (List.range k).map l.at'

theorem JbdLog.Ring.iterate_at (h : l.Ring) (k : ℕ) : ∀ n, l.next^[n] (l.at' k) = l.at' (k + n)
  | 0 => rfl
  | n + 1 => by
    rw [Function.iterate_succ_apply', h.iterate_at k n, h.next_at]
    rfl

/-- **One round**: the pass ends with no block met twice, or it has come
    further in the log and has not been once around. -/
theorem logStep_at (h : l.Ring) {k : ℕ} (hk : k < l.size) (hs : s.At l k)
    {r : Option (Except Errno Unit)} (hstep : jbdLogStep l action s = (r, s'))
    (htag : l.start ∉ s'.tagged) :
    s'.trail.Nodup ∧ (r = none → ∃ k', k < k' ∧ k' < l.size ∧ s'.At l k') := by
  have hnodup : s.trail.Nodup := by
    rw [hs.trail]
    exact JbdLog.nodup hk.le
  have hnodup' : (s.trail ++ [s.thisBlock]).Nodup := by
    rw [hs.trail, hs.block, ← List.map_singleton, ← List.map_append, ← List.range_succ]
    exact JbdLog.nodup hk
  unfold jbdLogStep at hstep
  by_cases hend : action ≠ .scan ∧ 0 < transIdDiff s.thisTransId s.info.lastTransId
  · rw [if_pos hend] at hstep
    cases hstep
    exact ⟨hnodup, nofun⟩
  rw [if_neg hend] at hstep
  have hkept := blockGet_kept l s
  rcases hg : jbdBlockGet l s with ⟨- | p, s₁⟩ <;> rw [hg] at hstep hkept
  · cases hstep
    rw [hkept.trail]
    exact ⟨hnodup, nofun⟩
  simp only at hstep hkept
  have htrail₁ := hkept.trail
  have hblock₁ := hkept.block
  rw [← htrail₁, ← hblock₁] at hnodup'
  by_cases hmagic : getBE (s₁.dev p) 0 4 ≠ jbdMagicNumber
  · rw [if_pos hmagic] at hstep
    cases hstep
    exact ⟨hnodup', nofun⟩
  rw [if_neg hmagic] at hstep
  by_cases hseq : getBE (s₁.dev p) 8 4 ≠ s₁.thisTransId
  · rw [if_pos hseq] at hstep
    cases hstep
    exact ⟨hnodup', nofun⟩
  rw [if_neg hseq] at hstep
  obtain ⟨n, -, hmoved⟩ := @logBlock_moved l action p { s₁ with trail := s₁.trail ++ [s₁.thisBlock] }
  rcases hb : jbdLogBlock l action p { s₁ with trail := s₁.trail ++ [s₁.thisBlock] } with ⟨e, s₂⟩
  rw [hb] at hstep hmoved
  simp only at hstep hmoved
  obtain ⟨hblock, htrail, htagged⟩ := hmoved
  simp only [hblock₁, htrail₁, hkept.tagged, hs.block, hs.trail, h.iterate_at]
    at hblock htrail htagged
  cases hstep
  change l.start ∉ s₂.tagged at htag
  -- the start is not among the blocks of the tags, so it lies behind them
  have hlt : k + n < l.size := by
    by_contra hge
    refine htag ?_
    rw [htagged, List.mem_append, List.mem_map]
    refine .inr ⟨l.size - (k + 1), List.mem_range.2 (by omega), ?_⟩
    rw [show k + (l.size - (k + 1) + 1) = l.size by omega, h.at_size]
  have hrange : s₂.trail = (List.range (k + n + 1)).map l.at' := by
    have hadd : List.range (k + n + 1) = List.range (k + 1) ++ (List.range n).map (k + 1 + ·) := by
      rw [show k + n + 1 = k + 1 + n by omega, List.range_add]
    rw [htrail, hadd, List.map_append, List.map_map, List.range_succ, List.map_append,
      List.map_singleton]
    refine congrArg _ (List.map_congr_left fun i _ => congrArg l.at' ?_)
    show k + (i + 1) = k + 1 + i
    omega
  have hnext : l.next s₂.thisBlock = l.at' (k + n + 1) := by
    rw [hblock, h.next_at]
  refine ⟨?_, fun hr => ?_⟩
  · show s₂.trail.Nodup
    rw [hrange]
    exact JbdLog.nodup hlt
  · rcases Nat.lt_or_ge (k + n + 1) l.size with hin | hround
    · exact ⟨k + n + 1, by omega, hin, hnext, hrange⟩
    · have hstart : l.next s₂.thisBlock = l.start := by
        rw [hnext, show k + n + 1 = l.size by omega, h.at_size]
      rw [hstart, beq_self_eq_true, Bool.or_true, if_pos rfl] at hr
      cases hr

/-- The loop ends within one round of the log. -/
theorem iterateLogLoop_ends (h : l.Ring) : ∀ {fuel k : ℕ} {s : LogPass}, k < l.size →
    l.size ≤ fuel + k → s.At l k →
    (∀ t, LogPass.Reaches l action s t → l.start ∉ (jbdLogStep l action t).2.tagged) →
    ∃ r s', jbdIterateLogLoop l action fuel s = some (r, s') ∧ s'.trail.Nodup
  | 0, k, _, hk, hf, _, _ => by omega
  | fuel + 1, k, s, hk, hf, hs, htag => by
    unfold jbdIterateLogLoop
    rcases hstep : jbdLogStep l action s with ⟨- | r, s'⟩
    · obtain ⟨-, hnext⟩ := logStep_at h hk hs hstep (by
        have := htag s .refl
        rwa [hstep] at this)
      obtain ⟨k', hlt, hk', hs'⟩ := hnext rfl
      refine iterateLogLoop_ends h hk' (by omega) hs' fun t ht => htag t ?_
      have hreach : LogPass.Reaches l action s s' := .step .refl hstep
      clear hstep htag
      induction ht with
      | refl => exact hreach
      | step _ hs ih => exact .step ih hs
    · exact ⟨r, s', rfl, (logStep_at h hk hs hstep (by
        have := htag s .refl
        rwa [hstep] at this)).1⟩

/-- **A pass over the log ends** after as many rounds as there are blocks, with
    no block met twice, when the start lies in the log and no tag of a
    descriptor block that is reached stands for the start block. -/
theorem iterateLog_terminates (h : l.Ring) (info : RecoverInfo) (dev : ℕ → Mem)
    (faults : List Bool)
    (htag : ∀ s, LogPass.Reaches l action (.begin l action info dev faults) s →
      l.start ∉ (jbdLogStep l action s).2.tagged) :
    ∃ r s, jbdIterateLog l action l.size info dev faults = some (r, s) ∧ s.trail.Nodup := by
  unfold jbdIterateLog
  simp only
  split_ifs with hnone
  · exact ⟨_, _, rfl, List.nodup_nil⟩
  · have hat : (LogPass.begin l action info dev faults).At l 0 := ⟨h.at_zero.symm, rfl⟩
    obtain ⟨r, s, hrun, hnodup⟩ := iterateLogLoop_ends h h.size_pos
      (show l.size ≤ l.size + 0 from le_rfl) hat htag
    rw [hrun]
    refine ⟨_, _, rfl, ?_⟩
    by_cases hr : r = .ok () ∧ action = .scan
    · rw [if_pos hr]
      exact hnodup
    · rw [if_neg hr]
      exact hnodup

end Run

/-! ## A pass that goes on for ever -/

/-- A header of transaction 7. -/
def logHeader (blocktype : ℕ) : Mem := jbdSetBhdr (fun _ => 0) blocktype 7

end Lwext4
