/-
  `ext4_balloc_free_blocks` against repeated calls of `ext4_balloc_free_block`.

  Both ways change the bits and the counts of the groups of a range in the same
  way (`Cleared`), also where a count wraps around, if the batched call meets the
  groups at their ends.

  Main result: `freeBlocks_batch_iff`.  Both ways agree if and only if the range
  stays in one group and in its bitmap block, or a group has `8 * block_size`
  blocks, which is what the batched call takes a group to have.
-/
import Lwext4.BallocRun

namespace Lwext4

open Lib Fs

/-! ## Groups of a volume -/

namespace SBlock

/-- What the code makes sure of for a volume it mounts: `ext4_sb_check` and
    `ext4_fs_init` check the first and the third, `blocks_per_group` has 32 bits,
    and `ext4_block_group_cnt` takes the number of groups to fit its type. -/
structure Grouped (s : SBlock) : Prop where
  bpg_pos : 0 < s.blocksPerGroup
  bpg_lt : s.blocksPerGroup < 2 ^ 32
  size_le : s.getBlockSize ≤ 2 ^ 16
  groups : s.blocksCount ≤ (2 ^ 32 - 1) * s.blocksPerGroup

/-- The address the source divides by `blocks_per_group`. -/
def rel (s : SBlock) (baddr : ℕ) : ℕ :=
  if s.firstDataBlock ≠ 0 ∧ baddr ≠ 0 then baddr - 1 else baddr

variable {s : SBlock} {first n b : ℕ}

theorem rel_le : s.rel b ≤ b := by
  unfold rel
  split_ifs <;> omega

theorem rel_add (hf : s.firstDataBlock ≤ first) (n : ℕ) : s.rel (first + n) = s.rel first + n := by
  unfold rel
  split_ifs <;> omega

theorem Grouped.count_lt (h : s.Grouped) : s.blocksCount < 2 ^ 64 := by
  have h1 := h.groups
  have h2 := h.bpg_lt
  omega

theorem Grouped.div_lt (h : s.Grouped) (hb : b < s.blocksCount) :
    s.rel b / s.blocksPerGroup < 2 ^ 32 - 1 := by
  have hle := @rel_le s b
  have hg := h.groups
  exact (Nat.div_lt_iff_lt_mul h.bpg_pos).2 (by omega)

theorem Grouped.bgid_eq (h : s.Grouped) (hb : b < s.blocksCount) :
    s.ballocGetBgidOfBlock b = s.rel b / s.blocksPerGroup := by
  have := h.div_lt hb
  rw [ballocGetBgidOfBlock, ← rel, u32_of_lt (by omega)]

theorem idx_eq (s : SBlock) (b : ℕ) : s.fsAddrToIdxBg b = s.rel b % s.blocksPerGroup := rfl

/-- The group of a block is one of the table. -/
theorem Grouped.bgid_lt (h : s.Grouped) (hb : b < s.blocksCount) :
    s.ballocGetBgidOfBlock b < s.blockGroupCnt := by
  have hle := @rel_le s b
  have hg := h.groups
  have hdm := Nat.div_add_mod s.blocksCount s.blocksPerGroup
  have hml := Nat.mod_lt s.blocksCount h.bpg_pos
  have hq : s.blocksCount / s.blocksPerGroup ≤ 2 ^ 32 - 1 := Nat.div_le_of_le_mul (by
    rwa [Nat.mul_comm])
  rw [h.bgid_eq hb, blockGroupCnt]
  by_cases hr : s.blocksCount % s.blocksPerGroup = 0
  · rw [if_neg (not_not.2 hr), u32_of_lt (by omega), Nat.div_lt_iff_lt_mul h.bpg_pos, Nat.mul_comm]
    omega
  · have hlt : s.blocksCount / s.blocksPerGroup < 2 ^ 32 - 1 := by
      rw [Nat.div_lt_iff_lt_mul h.bpg_pos]
      refine lt_of_le_of_ne hg fun he => hr ?_
      rw [he]
      exact Nat.mul_mod_left _ _
    rw [if_pos hr, u32_of_lt (show s.blocksCount / s.blocksPerGroup < 2 ^ 32 by omega),
      u32_of_lt (by omega), Nat.lt_succ_iff]
    exact Nat.div_le_div_right (by omega)

/-- The blocks of a range that stays in a group follow one another in it. -/
theorem Grouped.within (h : s.Grouped) (hf : s.firstDataBlock ≤ first) (hb : first + n < s.blocksCount)
    (hin : s.fsAddrToIdxBg first + n < s.blocksPerGroup) :
    s.ballocGetBgidOfBlock (first + n) = s.ballocGetBgidOfBlock first ∧
      s.fsAddrToIdxBg (first + n) = s.fsAddrToIdxBg first + n := by
  rw [idx_eq] at hin
  have hdm := Nat.div_add_mod (s.rel first) s.blocksPerGroup
  have hrel : s.rel (first + n) =
      s.rel first % s.blocksPerGroup + n + s.blocksPerGroup * (s.rel first / s.blocksPerGroup) := by
    rw [rel_add hf]
    omega
  rw [h.bgid_eq hb, h.bgid_eq (by omega), idx_eq, idx_eq, hrel, Nat.add_mul_div_left _ _ h.bpg_pos,
    Nat.add_mul_mod_self_left, Nat.div_eq_of_lt hin, Nat.mod_eq_of_lt hin]
  exact ⟨Nat.zero_add _, rfl⟩

/-- Behind the end of a group comes the beginning of the next one. -/
theorem Grouped.next (h : s.Grouped) (hf : s.firstDataBlock ≤ first) (hb : first + n < s.blocksCount)
    (hend : s.fsAddrToIdxBg first + n = s.blocksPerGroup) :
    s.ballocGetBgidOfBlock (first + n) = s.ballocGetBgidOfBlock first + 1 ∧
      s.fsAddrToIdxBg (first + n) = 0 := by
  rw [idx_eq] at hend
  have hdm := Nat.div_add_mod (s.rel first) s.blocksPerGroup
  have hrel : s.rel (first + n) =
      0 + s.blocksPerGroup * (s.rel first / s.blocksPerGroup + 1) := by
    rw [rel_add hf, Nat.mul_add, Nat.mul_one]
    omega
  rw [h.bgid_eq hb, h.bgid_eq (by omega), idx_eq, hrel, Nat.add_mul_div_left _ _ h.bpg_pos,
    Nat.add_mul_mod_self_left, Nat.zero_div, Nat.zero_mod, Nat.zero_add]
  exact ⟨rfl, rfl⟩

/-- The groups of the first and the last block of a range. -/
theorem Grouped.range (h : s.Grouped) (hf : s.firstDataBlock ≤ first) (h0 : 0 < n)
    (hb : first + n ≤ s.blocksCount) :
    s.ballocGetBgidOfBlock first ≤ s.ballocGetBgidOfBlock (first + n - 1) ∧
      (s.fsAddrToIdxBg first + n ≤ s.blocksPerGroup ↔
        s.ballocGetBgidOfBlock first = s.ballocGetBgidOfBlock (first + n - 1)) := by
  have hdm := Nat.div_add_mod (s.rel first) s.blocksPerGroup
  have hml := Nat.mod_lt (s.rel first) h.bpg_pos
  have hdm' := Nat.div_add_mod (s.rel first + (n - 1)) s.blocksPerGroup
  have hml' := Nat.mod_lt (s.rel first + (n - 1)) h.bpg_pos
  rw [h.bgid_eq (by omega), h.bgid_eq (by omega), idx_eq, show first + n - 1 = first + (n - 1) by omega,
    rel_add hf]
  generalize s.rel first / s.blocksPerGroup = q at *
  generalize (s.rel first + (n - 1)) / s.blocksPerGroup = k at *
  have hle : q ≤ k := by
    by_contra hn
    have := Nat.mul_le_mul_left s.blocksPerGroup (show k + 1 ≤ q by omega)
    rw [Nat.mul_add, Nat.mul_one] at this
    omega
  refine ⟨hle, ⟨fun hin => ?_, fun he => ?_⟩⟩
  · by_contra hn
    have := Nat.mul_le_mul_left s.blocksPerGroup (show q + 1 ≤ k by omega)
    rw [Nat.mul_add, Nat.mul_one] at this
    omega
  · rw [← he] at hdm'
    omega

end SBlock

/-! ## The block counter of an inode -/

/-- The fields of the counter have 32 and 16 bits. -/
structure InodeBlocks.Wf (s : SBlock) (inode : InodeBlocks) : Prop where
  lo : inode.blocksCountLo < 2 ^ 32
  hi : s.hugeFile = true → inode.blocksHigh < 2 ^ 16

section Inode

variable {s : SBlock} {inode : InodeBlocks} {c : ℕ}

/-- The unit of a huge file's counter is the size of a block in units of 512
    bytes. -/
theorem inodeUnit_eq (h : s.getBlockSize ≤ 2 ^ 16) :
    s.getBlockSize / 512 = 2 ^ (inodeBlockBitsCount s.getBlockSize - 9) := by
  have hlog : s.logBlockSize ≤ 6 := by
    by_contra hn
    have hpow : 2 ^ 7 ≤ 2 ^ s.logBlockSize := Nat.pow_le_pow_right (by decide) (by omega)
    unfold SBlock.getBlockSize at h
    rw [Nat.shiftLeft_eq] at h
    omega
  have hall : ∀ n : Fin 7, (1024 <<< n.1) / 512 = 2 ^ (inodeBlockBitsCount (1024 <<< n.1) - 9) := by
    decide
  exact hall ⟨s.logBlockSize, by omega⟩

/-- A count that is a number of blocks less than the one that is stored can be
    stored. -/
theorem inode_get_set (hsize : s.getBlockSize ≤ 2 ^ 16) (hwf : inode.Wf s)
    (hle : c ≤ inodeGetBlocksCount s inode) (hdvd : s.getBlockSize / 512 ∣ inodeGetBlocksCount s inode - c) :
    inodeGetBlocksCount s (inodeSetBlocksCount s inode c) = c ∧ (inodeSetBlocksCount s inode c).Wf s := by
  have hunit := inodeUnit_eq hsize
  generalize hk : inodeBlockBitsCount s.getBlockSize - 9 = k at hunit
  rw [hunit] at hdvd
  unfold inodeGetBlocksCount at hle hdvd ⊢
  unfold inodeSetBlocksCount
  have hlo := hwf.lo
  have hhi := hwf.hi
  rw [hk] at hle hdvd ⊢
  by_cases h32 : c < 2 ^ 32
  · rw [if_pos h32]
    refine ⟨?_, h32, fun _ => ?_⟩
    · cases s.hugeFile <;> simp
    · show 0 < 2 ^ 16
      decide
  · cases hhuge : s.hugeFile with
    | false =>
      simp only [hhuge, Bool.false_eq_true, if_false] at hle
      omega
    | true =>
      simp only [hhuge, if_true] at hle hdvd hhi ⊢
      rw [if_neg h32]
      simp only [Bool.not_true, Bool.false_eq_true, if_false]
      by_cases h48 : c < 2 ^ 48
      · rw [if_pos h48]
        refine ⟨?_, ?_, fun _ => ?_⟩
        · simp only [Bool.false_eq_true, if_false]
          omega
        · show c % 2 ^ 32 < 2 ^ 32
          omega
        · show c / 2 ^ 32 < 2 ^ 16
          omega
      · -- only a huge file counts this much, in whole blocks
        rw [if_neg h48]
        cases hflag : inode.hugeFile with
        | false =>
          simp only [hflag, Bool.false_eq_true, if_false] at hle
          have := hhi trivial
          omega
        | true =>
          simp only [hflag, if_true, Nat.shiftLeft_eq] at hle hdvd
          have := hhi trivial
          have hc : 2 ^ k ∣ c := (Nat.dvd_sub_iff_right hle (Dvd.intro_left _ rfl)).1 hdvd
          obtain ⟨q, rfl⟩ := hc
          have hq : q ≤ inode.blocksCountLo + inode.blocksHigh * 2 ^ 32 := by
            rw [Nat.mul_comm] at hle
            exact Nat.le_of_mul_le_mul_right hle (Nat.two_pow_pos k)
          rw [Nat.shiftRight_eq_div_pow, Nat.mul_div_cancel_left _ (Nat.two_pow_pos k)]
          refine ⟨?_, ?_, fun _ => ?_⟩
          · simp only [if_true, Nat.shiftLeft_eq]
            rw [show q % 2 ^ 32 + q / 2 ^ 32 % 2 ^ 16 * 2 ^ 32 = q by omega, Nat.mul_comm]
          · show q % 2 ^ 32 < 2 ^ 32
            omega
          · show q / 2 ^ 32 % 2 ^ 16 < 2 ^ 16
            omega

theorem inodeGet_lt (hsize : s.getBlockSize ≤ 2 ^ 16) (hwf : inode.Wf s) :
    inodeGetBlocksCount s inode < 2 ^ 64 := by
  have hunit := inodeUnit_eq hsize
  have hlo := hwf.lo
  have hhi := hwf.hi
  unfold inodeGetBlocksCount
  generalize inodeBlockBitsCount s.getBlockSize - 9 = k at hunit
  split_ifs with h1 h2
  · have h16 := hhi h1
    have hk : 2 ^ k ≤ 2 ^ 7 := by omega
    simp only [Nat.shiftLeft_eq]
    calc (inode.blocksCountLo + inode.blocksHigh * 2 ^ 32) * 2 ^ k
        ≤ 2 ^ 48 * 2 ^ 7 := Nat.mul_le_mul (by omega) hk
      _ < 2 ^ 64 := by decide
  · have h16 := hhi h1
    show inode.blocksCountLo + inode.blocksHigh * 2 ^ 32 < 2 ^ 64
    omega
  · omega

end Inode

/-! ## What a fetch keeps -/

/-- The descriptors, the bitmaps and the inode tables of all groups lie on the
    device. -/
structure OnDevice (fs : Fs) : Prop where
  descriptor : ∀ g < fs.sb.blockGroupCnt,
    fs.sb.fsGetDescriptorBlock g (fs.sb.getBlockSize / fs.sb.getDescSize) < fs.lgBcnt
  blockBitmap : ∀ g < fs.sb.blockGroupCnt, (fs.bg g).blockBitmap < fs.lgBcnt
  inodeBitmap : ∀ g < fs.sb.blockGroupCnt, (fs.bg g).inodeBitmap < fs.lgBcnt
  inodeTable : ∀ g < fs.sb.blockGroupCnt, ∀ k < itableBlocks fs.sb g, (fs.bg g).inodeTable + k < fs.lgBcnt

/-- No device error is to come. -/
def Fs.Quiet (fs : Fs) : Prop := fs.faults = [] ∧ fs.revokes = []

/-- Superblock, addresses and inode stay, and a device without errors to come
    has none afterwards. -/
structure Kept (fs fs' : Fs) : Prop extends Frame fs fs' where
  inode : fs'.inode = fs.inode
  quiet : fs.Quiet → fs'.Quiet

/-- A call that keeps all this, and fails on device errors only. -/
def Fetches {α : Type} (fs : Fs) (x : FsM α) : Prop :=
  Prog.Sat (· = fs) x (fun _ => Kept fs) (fun _ _ => ¬ fs.Quiet)

section Fetch

variable {fs fs' fs'' : Fs} {g : ℕ}

theorem Kept.refl (fs : Fs) : Kept fs fs := ⟨⟨rfl, rfl, fun _ => ⟨rfl, rfl, rfl⟩⟩, rfl, id⟩

theorem Kept.trans (h : Kept fs fs') (h' : Kept fs' fs'') : Kept fs fs'' :=
  ⟨h.toFrame.trans h'.toFrame, h'.inode.trans h.inode, fun hq => h'.quiet (h.quiet hq)⟩

theorem Fs.Frame.onDevice (h : Frame fs fs') (hd : OnDevice fs) : OnDevice fs' := by
  refine ⟨?_, ?_, ?_, ?_⟩
  · rw [h.sb, h.lgBcnt]
    exact hd.descriptor
  · intro g hg
    rw [h.sb] at hg
    rw [(h.addr g).1, h.lgBcnt]
    exact hd.blockBitmap g hg
  · intro g hg
    rw [h.sb] at hg
    rw [(h.addr g).2.1, h.lgBcnt]
    exact hd.inodeBitmap g hg
  · intro g hg k hk
    rw [h.sb] at hg hk
    rw [(h.addr g).2.2, h.lgBcnt]
    exact hd.inodeTable g hg k hk

/-- One fetch after another. -/
theorem Fetches.bind {α β : Type} {x : FsM α} {f : α → FsM β} (hx : Fetches fs x)
    (hf : ∀ a fs', Kept fs fs' → Fetches fs' (f a)) : Fetches fs (x >>= f) := by
  refine Prog.Sat.bind hx fun a => Prog.Sat.of_forall fun fs' hk => ?_
  refine (hf a fs' hk).conseq (fun _ => id) (fun _ _ h => hk.trans h) fun _ _ h hno => ?_
  exact h (hk.quiet hno)

theorem Fetches.get_bind {β : Type} {f : Fs → FsM β} (hf : Fetches fs (f fs)) :
    Fetches fs (Prog.get >>= f) := by
  refine Prog.Sat.get_bind ?_
  rintro _ rfl
  exact hf

theorem fetches_pure {α : Type} (a : α) : Fetches fs (pure a : FsM α) := by
  refine Prog.Sat.pure ?_
  rintro _ rfl
  exact .refl _

theorem fetches_setBlk (addr : Fs → ℕ) (b : Fs → Bmap) :
    Fetches fs (Prog.modify fun fs => fs.setBlk (addr fs) (b fs)) := by
  refine Prog.Sat.modify ?_
  rintro _ rfl
  exact ⟨⟨rfl, rfl, fun _ => ⟨rfl, rfl, rfl⟩⟩, rfl, id⟩

/-- Changing what is no address of a descriptor. -/
theorem fetches_setBg {f : BGroup → BGroup} (hf : ∀ bg, (f bg).blockBitmap = bg.blockBitmap ∧
      (f bg).inodeBitmap = bg.inodeBitmap ∧ (f bg).inodeTable = bg.inodeTable) :
    Fetches fs (Prog.modify fun fs => fs.setBg g f) := by
  refine Prog.Sat.modify ?_
  rintro fs rfl
  refine ⟨⟨rfl, rfl, fun g' => ?_⟩, rfl, id⟩
  by_cases hg : g' = g
  · subst hg
    simpa [Fs.setBg] using hf (fs.bg g')
  · simp [Fs.setBg, hg]

theorem fetches_deviceAccess : Fetches fs deviceAccess := by
  rintro fs rfl
  unfold deviceAccess
  cases hf : fs.faults with
  | nil => exact .refl _
  | cons bad rest =>
    cases bad with
    | false =>
      refine ⟨⟨rfl, rfl, fun _ => ⟨rfl, rfl, rfl⟩⟩, rfl, fun h => ?_⟩
      have h0 := h.1
      rw [hf] at h0
      cases h0
    | true =>
      intro h
      have h0 := h.1
      rw [hf] at h0
      cases h0

theorem fetches_transBlockGet {addr : ℕ} (h : addr < fs.lgBcnt) : Fetches fs (transBlockGet addr) := by
  refine .get_bind ?_
  rw [if_neg (by omega)]
  exact fetches_deviceAccess.bind fun _ _ _ => fetches_pure _

theorem fetches_transBlockGetNoread {addr : ℕ} (h : addr < fs.lgBcnt) :
    Fetches fs (transBlockGetNoread addr) :=
  (fetches_transBlockGet h).bind fun _ _ _ => fetches_pure _

theorem fetches_zeroBlocks (n fblock : ℕ) (h : ∀ k < n, fblock + k < fs.lgBcnt) :
    Fetches fs (zeroBlocks fblock n) := by
  induction n generalizing fblock fs with
  | zero => exact fetches_pure _
  | succ n ih =>
    refine (fetches_transBlockGetNoread (h 0 (by omega))).bind fun _ fs₁ h₁ => ?_
    refine (fetches_setBlk _ _).bind fun _ fs₂ h₂ => ih (fblock + 1) fun k hk => ?_
    have := h (k + 1) (by omega)
    rw [h₂.lgBcnt, h₁.lgBcnt]
    omega

/-- **Fetching a group** of a file system that lies on its device. -/
theorem fetches_fsGetBlockGroupRef (hd : OnDevice fs) (hg : g < fs.sb.blockGroupCnt) :
    Fetches fs (fsGetBlockGroupRef g) := by
  refine .get_bind ((fetches_transBlockGet (hd.descriptor g hg)).bind fun _ fs₁ h₁ => ?_)
  have hd₁ := h₁.toFrame.onDevice hd
  have hg₁ : g < fs₁.sb.blockGroupCnt := by rwa [h₁.sb]
  refine Fetches.bind ?_ fun _ fs₂ h₂ => ?_
  · refine .get_bind ?_
    split_ifs
    · refine Fetches.bind ?_ fun _ _ _ => fetches_setBg fun _ => ⟨rfl, rfl, rfl⟩
      exact .get_bind ((fetches_transBlockGetNoread (hd₁.blockBitmap g hg₁)).bind
        fun _ _ _ => fetches_setBlk _ _)
    · exact fetches_pure _
  · have hd₂ := h₂.toFrame.onDevice hd₁
    have hg₂ : g < fs₂.sb.blockGroupCnt := by rwa [h₂.sb]
    refine .get_bind ?_
    by_cases hu : (fs₂.bg g).inodeUninit = true
    · rw [if_pos hu]
      refine Fetches.bind ?_ fun _ fs₃ h₃ => ?_
      · exact .get_bind ((fetches_transBlockGetNoread (hd₂.inodeBitmap g hg₂)).bind
          fun _ _ _ => fetches_setBlk _ _)
      · refine Fetches.bind (fetches_setBg fun _ => ⟨rfl, rfl, rfl⟩) fun _ fs₄ h₄ => ?_
        have h := h₃.trans h₄
        split_ifs
        · refine Fetches.bind ?_ fun _ _ _ => fetches_setBg fun _ => ⟨rfl, rfl, rfl⟩
          refine .get_bind (fetches_zeroBlocks _ _ fun k hk => ?_)
          exact (h.toFrame.onDevice hd₂).inodeTable g (by rwa [h.sb]) k hk
        · exact fetches_pure _
    · rw [if_neg hu]
      exact fetches_pure _

end Fetch

/-! ## What a call takes from the inode -/

/-- The inode counts `n` blocks less. -/
structure Spent (fs : Fs) (n : ℕ) (fs' : Fs) : Prop extends Frame fs fs' where
  quiet : fs.Quiet → fs'.Quiet
  wf : fs'.inode.Wf fs.sb
  count : inodeGetBlocksCount fs.sb fs'.inode + n * (fs.sb.getBlockSize / 512) =
    inodeGetBlocksCount fs.sb fs.inode

/-- A call that takes `n` blocks from the inode, and fails on device errors
    only. -/
def Spends {α : Type} (fs : Fs) (n : ℕ) (x : FsM α) : Prop :=
  Prog.Sat (· = fs) x (fun _ => Spent fs n) (fun _ _ => ¬ fs.Quiet)

/-- A file system on its device, with an inode that counts `n` blocks at
    least. -/
structure Ready (fs : Fs) (n : ℕ) : Prop where
  grouped : fs.sb.Grouped
  device : OnDevice fs
  wf : fs.inode.Wf fs.sb
  count : n * (fs.sb.getBlockSize / 512) ≤ inodeGetBlocksCount fs.sb fs.inode

section Spend

variable {fs fs' fs'' : Fs} {g m n : ℕ}

theorem Spent.trans (h : Spent fs m fs') (h' : Spent fs' n fs'') : Spent fs (m + n) fs'' where
  toFrame := h.toFrame.trans h'.toFrame
  quiet := fun hq => h'.quiet (h.quiet hq)
  wf := h.sb ▸ h'.wf
  count := by
    have h2 := h'.count
    rw [h.sb] at h2
    have h1 := h.count
    rw [Nat.add_mul]
    omega

theorem Kept.spent (h : Kept fs fs') (hwf : fs.inode.Wf fs.sb) : Spent fs 0 fs' where
  toFrame := h.toFrame
  quiet := h.quiet
  wf := by rw [h.inode]; exact hwf
  count := by rw [h.inode, Nat.zero_mul, Nat.add_zero]

theorem Spent.ready (h : Spent fs m fs') (hr : Ready fs (m + n)) : Ready fs' n where
  grouped := h.sb ▸ hr.grouped
  device := h.toFrame.onDevice hr.device
  wf := h.sb ▸ h.wf
  count := by
    have h1 := h.count
    have h2 := hr.count
    rw [Nat.add_mul] at h2
    rw [h.sb]
    omega

theorem Ready.less (hr : Ready fs n) (h : m ≤ n) : Ready fs m :=
  ⟨hr.grouped, hr.device, hr.wf, (Nat.mul_le_mul_right _ h).trans hr.count⟩

theorem Spends.bind {α β : Type} {x : FsM α} {f : α → FsM β} (hx : Spends fs m x)
    (hf : ∀ a fs', Spent fs m fs' → Spends fs' n (f a)) : Spends fs (m + n) (x >>= f) := by
  refine Prog.Sat.bind hx fun a => Prog.Sat.of_forall fun fs' hs => ?_
  refine (hf a fs' hs).conseq (fun _ => id) (fun _ _ h => hs.trans h) fun _ _ h hno => ?_
  exact h (hs.quiet hno)

theorem Fetches.spends {α : Type} {x : FsM α} (h : Fetches fs x) (hwf : fs.inode.Wf fs.sb) :
    Spends fs 0 x :=
  h.conseq (fun _ => id) (fun _ _ h => h.spent hwf) fun _ _ => id

/-- The counters: the inode loses `n` blocks. -/
theorem Ready.account (hr : Ready fs n) (hn : n ≤ 8 * fs.sb.getBlockSize) (g : ℕ) :
    Spent fs n (accountFree g n fs) := by
  have hsize := hr.grouped.size_le
  have hunit : n * (fs.sb.getBlockSize / 512) < 2 ^ 32 := by
    calc n * (fs.sb.getBlockSize / 512) ≤ 2 ^ 19 * 2 ^ 7 := Nat.mul_le_mul (by omega) (by omega)
      _ < 2 ^ 32 := by decide
  have hle := hr.count
  have hset := inode_get_set (c := inodeGetBlocksCount fs.sb fs.inode - n * (fs.sb.getBlockSize / 512))
    hsize hr.wf (by omega) (by
      rw [show inodeGetBlocksCount fs.sb fs.inode - (inodeGetBlocksCount fs.sb fs.inode -
        n * (fs.sb.getBlockSize / 512)) = n * (fs.sb.getBlockSize / 512) by omega]
      exact Nat.dvd_mul_left _ _)
  have hsub : sub64 (inodeGetBlocksCount fs.sb fs.inode) (u32 (n * (fs.sb.getBlockSize / 512))) =
      inodeGetBlocksCount fs.sb fs.inode - n * (fs.sb.getBlockSize / 512) := by
    rw [u32_of_lt hunit, sub64_of_le hle (inodeGet_lt hsize hr.wf)]
  unfold accountFree
  rw [hsub]
  refine ⟨⟨rfl, rfl, fun g' => ?_⟩, id, hset.2, ?_⟩
  · by_cases hg : g' = g
    · subst hg
      simp [Fs.setBg, BGroup.setFreeBlocksCount]
    · simp [Fs.setBg, hg]
  · show inodeGetBlocksCount fs.sb (inodeSetBlocksCount fs.sb fs.inode _) + _ = _
    rw [hset.1]
    omega

/-- Clearing bits of a group. -/
theorem spends_freeBits (hr : Ready fs n) (hg : g < fs.sb.blockGroupCnt)
    (hn : n ≤ 8 * fs.sb.getBlockSize) (clear : Bmap → Bmap) : Spends fs n (freeBits g clear n) := by
  have hfetch : Fetches fs (do
      fsGetBlockGroupRef g
      let fs ← Prog.get
      let b ← transBlockGet (fs.bg g).blockBitmap
      Prog.modify fun fs' => fs'.setBlk (fs.bg g).blockBitmap (clear b)) := by
    refine (fetches_fsGetBlockGroupRef hr.device hg).bind fun _ fs₁ h₁ => .get_bind ?_
    have hb := (h₁.toFrame.onDevice hr.device).blockBitmap g (by rwa [h₁.sb])
    exact (fetches_transBlockGet hb).bind fun _ _ _ => fetches_setBlk _ _
  have hsplit : freeBits g clear n = (do
      fsGetBlockGroupRef g
      let fs ← Prog.get
      let b ← transBlockGet (fs.bg g).blockBitmap
      Prog.modify fun fs' => fs'.setBlk (fs.bg g).blockBitmap (clear b)) >>= fun _ =>
        Prog.modify (accountFree g n) := by
    funext s
    simp only [freeBits, Prog.bind_run]
    rcases fsGetBlockGroupRef g s with ⟨_ | _, s₁⟩
    · rfl
    · simp only [Prog.get_run]
      rcases transBlockGet (s₁.bg g).blockBitmap s₁ with ⟨_ | _, s₂⟩ <;> rfl
  rw [hsplit, ← Nat.zero_add n]
  refine (hfetch.spends hr.wf).bind fun _ fs' h => Prog.Sat.modify ?_
  rintro fs' rfl
  have hr' := h.ready (by rwa [Nat.zero_add])
  rw [Nat.zero_add]
  exact hr'.account (by rwa [h.sb]) g

theorem fetches_transTryRevokeBlock (lba : ℕ) : Fetches fs (transTryRevokeBlock lba) := by
  rintro fs rfl
  unfold transTryRevokeBlock
  cases hf : fs.revokes with
  | nil => exact .refl _
  | cons bad rest =>
    cases bad with
    | false =>
      refine ⟨⟨rfl, rfl, fun _ => ⟨rfl, rfl, rfl⟩⟩, rfl, fun h => ?_⟩
      have h0 := h.2
      rw [hf] at h0
      cases h0
    | true =>
      intro h
      have h0 := h.2
      rw [hf] at h0
      cases h0

theorem fetches_revokeBlocks (k lba : ℕ) : Fetches fs (revokeBlocks lba k) := by
  induction k generalizing lba fs with
  | zero => exact fetches_pure _
  | succ k ih => exact (fetches_transTryRevokeBlock lba).bind fun _ _ _ => ih _

/-- Where the revoke of a freed block returns, it is one. -/
theorem sat_revokeFreed {Q : Fs → Prop} {E : Stop → Prop} (g : ℕ) (bg : BGroup) (baddr : ℕ)
    (h : Prog.Sat (· = fs) (transTryRevokeBlock baddr) (fun _ => Q) (fun e _ => E e)) :
    Prog.Sat (· = fs) (revokeFreed g bg baddr) (fun _ => Q) (fun e _ => E e) := by
  rintro fs rfl
  have hrun := h fs rfl
  unfold revokeFreed
  rcases hx : transTryRevokeBlock baddr fs with ⟨e | u, fs'⟩ <;> rw [hx] at hrun <;> exact hrun

theorem getBlockSize_pos (s : SBlock) : 1024 ≤ s.getBlockSize := by
  rw [SBlock.getBlockSize, Nat.shiftLeft_eq]
  exact Nat.le_mul_of_pos_right _ (Nat.two_pow_pos _)

/-- One block. -/
theorem spends_ballocFreeBlock (hr : Ready fs 1) {baddr : ℕ} (hb : baddr < fs.sb.blocksCount) :
    Spends fs 1 (ballocFreeBlock baddr) := by
  refine Prog.Sat.get_bind ?_
  rintro fs rfl
  have hg := hr.grouped.bgid_lt hb
  have hsize := getBlockSize_pos fs.sb
  refine Spends.bind (n := 0) (spends_freeBits hr hg (by omega) _) fun _ fs' h => ?_
  exact sat_revokeFreed _ _ _ ((fetches_transTryRevokeBlock baddr).spends (h.sb ▸ h.wf))

end Spend

/-! ## What a call makes of the groups -/

/-- The bit of one of the `n` blocks from `first` on. -/
def Hit (s : SBlock) (first n g i : ℕ) : Prop :=
  ∃ k < n, s.ballocGetBgidOfBlock (first + k) = g ∧ s.fsAddrToIdxBg (first + k) = i

/-- How many of the `n` blocks from `first` on lie in group `g`. -/
def inGroup (s : SBlock) (first n g : ℕ) : ℕ :=
  ∑ k ∈ Finset.range n, if s.ballocGetBgidOfBlock (first + k) = g then 1 else 0

/-- The range of the free count of a group. -/
def countRange (s : SBlock) : ℕ := if 32 < s.getDescSize then 2 ^ 32 else 2 ^ 16

/-- A counter of the given range after `n` has been added, if anything. -/
def counted (range c n : ℕ) : ℕ := if n = 0 then c else (c + n) % range

/-- The bits of the `n` blocks from `first` on are clear, and they are counted
    where they are. -/
structure Cleared (fs fs' : Fs) (first n : ℕ) : Prop extends Frame fs fs' where
  bits : ∀ g < fs.sb.blockGroupCnt, ∀ i, bmapIsBitSet (fs'.bitmap g) i = true ↔
    bmapIsBitSet (fs.bitmap g) i = true ∧ ¬ Hit fs.sb first n g i
  counts : ∀ g < fs.sb.blockGroupCnt,
    fs'.freeCount g = counted (countRange fs.sb) (fs.freeCount g) (inGroup fs.sb first n g)
  free : fs'.freeBlocksCount = counted (2 ^ 64) fs.freeBlocksCount n

/-- What a group's bitmap and count become, and that no others change. -/
structure Rewrote (fs fs' : Fs) (g : ℕ) (b : Bmap) (n : ℕ) : Prop extends Frame fs fs' where
  self : fs'.bitmap g = b
  other : ∀ g' < fs.sb.blockGroupCnt, g' ≠ g → fs'.bitmap g' = fs.bitmap g'
  count : fs'.freeCount g = (fs.freeCount g + n) % countRange fs.sb
  countOther : ∀ g', g' ≠ g → fs'.freeCount g' = fs.freeCount g'
  free : fs'.freeBlocksCount = (fs.freeBlocksCount + n) % 2 ^ 64

section Clear

variable {fs fs' fs'' : Fs} {g first m n : ℕ}

theorem counted_add (range c : ℕ) :
    counted range (counted range c m) n = counted range c (m + n) := by
  unfold counted
  by_cases hm : m = 0
  · rw [if_pos hm, hm, Nat.zero_add]
  by_cases hn : n = 0
  · rw [if_pos hn, hn, Nat.add_zero]
  · rw [if_neg hm, if_neg hn, if_neg (by omega), Nat.mod_add_mod, Nat.add_assoc]

theorem inGroup_add (s : SBlock) (first m n g : ℕ) :
    inGroup s first (m + n) g = inGroup s first m g + inGroup s (first + m) n g := by
  unfold inGroup
  rw [Finset.sum_range_add]
  simp only [Nat.add_assoc]

theorem hit_add (s : SBlock) (first m n g i : ℕ) :
    Hit s first (m + n) g i ↔ Hit s first m g i ∨ Hit s (first + m) n g i := by
  constructor
  · rintro ⟨k, hk, h⟩
    by_cases hkm : k < m
    · exact .inl ⟨k, hkm, h⟩
    · exact .inr ⟨k - m, by omega, by rwa [show first + m + (k - m) = first + k by omega]⟩
  · rintro (⟨k, hk, h⟩ | ⟨k, hk, h⟩)
    · exact ⟨k, by omega, h⟩
    · exact ⟨m + k, by omega, by rwa [← Nat.add_assoc]⟩

theorem Cleared.refl (fs : Fs) (first : ℕ) : Cleared fs fs first 0 := by
  refine ⟨⟨rfl, rfl, fun _ => ⟨rfl, rfl, rfl⟩⟩, fun g _ i => ?_, fun g _ => rfl, rfl⟩
  exact (and_iff_left fun ⟨k, hk, _⟩ => absurd hk (Nat.not_lt_zero k)).symm

theorem Cleared.trans (h : Cleared fs fs' first m) (h' : Cleared fs' fs'' (first + m) n) :
    Cleared fs fs'' first (m + n) where
  toFrame := h.toFrame.trans h'.toFrame
  bits g hg i := by
    rw [h'.bits g (by rwa [h.sb]), h.bits g hg, h.sb, hit_add, and_assoc, not_or]
  counts g hg := by
    rw [h'.counts g (by rwa [h.sb]), h.counts g hg, h.sb, inGroup_add, counted_add]
  free := by rw [h'.free, h.free, counted_add]

theorem Cleared.trans_same (h : Cleared fs fs' first m) (hs : Same fs' fs'') :
    Cleared fs fs'' first m where
  toFrame := h.toFrame.trans hs.toFrame
  bits g hg i := by rw [hs.bitmap g (by rwa [h.sb]), h.bits g hg]
  counts g hg := by rw [hs.freeCount, h.counts g hg]
  free := by rw [hs.free, h.free]

theorem freeCount_set (s : SBlock) (bg : BGroup) (n : ℕ) :
    (bg.setFreeBlocksCount s (u32 (bg.getFreeBlocksCount s + n))).getFreeBlocksCount s =
      (bg.getFreeBlocksCount s + n) % countRange s := by
  generalize bg.getFreeBlocksCount s + n = c
  unfold BGroup.getFreeBlocksCount BGroup.setFreeBlocksCount countRange
  split_ifs
  · simp only [u32]
    omega
  · simp only [u32]
    omega

theorem rewrote_account (hL : fs.Layout) (hg : g < fs.sb.blockGroupCnt)
    (hu : (fs.bg g).blockUninit = false) (b : Bmap) (n : ℕ) :
    Rewrote fs (accountFree g n (fs.setBlk (fs.bg g).blockBitmap b)) g b n := by
  refine ⟨⟨rfl, rfl, fun g' => ?_⟩, ?_, fun g' hlt hne => ?_, ?_, fun g' hne => ?_, ?_⟩
  · by_cases he : g' = g
    · simp [accountFree, Fs.setBg, Fs.setBlk, he, BGroup.setFreeBlocksCount]
    · simp [accountFree, Fs.setBg, Fs.setBlk, he]
  · simp [accountFree, Fs.bitmap, Fs.setBg, Fs.setBlk, BGroup.setFreeBlocksCount, hu]
  · have hblk : (fs.bg g').blockBitmap ≠ (fs.bg g).blockBitmap :=
      fun h => hne (hL.bitmap_inj g' hlt g hg h)
    simp [accountFree, Fs.bitmap, Fs.setBg, Fs.setBlk, hne, hblk]
  · have h := freeCount_set fs.sb (fs.bg g) n
    simpa [accountFree, Fs.freeCount, Fs.setBg, Fs.setBlk] using h
  · simp [accountFree, Fs.freeCount, Fs.setBg, Fs.setBlk, hne]
  · simp [accountFree, Fs.setBg, Fs.setBlk, u64]

/-- Clearing bits of a group, whatever the bits. -/
theorem sat_freeBits_rewrote (hL : fs.Layout) (hg : g < fs.sb.blockGroupCnt) (clear : Bmap → Bmap)
    (n : ℕ) : Prog.Sat (· = fs) (freeBits g clear n)
      (fun _ fs' => Rewrote fs fs' g (clear (fs.bitmap g)) n) (fun _ _ => True) := by
  refine Prog.Sat.bind ((sat_fsGetBlockGroupRef hL hg).conseq (fun _ => id) (fun _ _ => id)
    fun _ _ _ => trivial) fun _ => Prog.Sat.get_bind fun s₁ h₁ => ?_
  obtain ⟨hs₁, hu₁⟩ := h₁
  have hg₁ : g < s₁.sb.blockGroupCnt := by rwa [hs₁.sb]
  refine Prog.Sat.bind ((sat_fetchBitmap hu₁).conseq (fun _ => id)
    (fun _ _ => id) fun _ _ _ => trivial) fun b => Prog.Sat.of_forall fun s₂ h₂ => ?_
  obtain ⟨rfl, hs₂, hu₂⟩ := h₂
  have hs := hs₁.trans hs₂
  have hrew := rewrote_account (hs.toFrame.layout hL) (show g < s₂.sb.blockGroupCnt by rwa [hs.sb]) hu₂
    (clear (s₁.bitmap g)) n
  rw [(hs₂.addr g).1] at hrew
  refine Prog.Sat.modify_bind (M := fun s' =>
    s' = s₂.setBlk (s₁.bg g).blockBitmap (clear (s₁.bitmap g))) (Prog.Sat.modify ?_) ?_
  · rintro _ rfl
    refine ⟨hs.toFrame.trans hrew.toFrame, ?_, fun g' hg' hne => ?_, ?_, fun g' hne => ?_, ?_⟩
    · rw [hrew.self, hs₁.bitmap g hg]
    · rw [hrew.other g' (by rwa [hs.sb]) hne, hs.bitmap g' hg']
    · rw [hrew.count, hs.freeCount, hs.sb]
    · rw [hrew.countOther g' hne, hs.freeCount]
    · rw [hrew.free, hs.free]
  · rintro _ rfl
    rfl

/-- Clearing the bits of blocks that follow one another in a group. -/
theorem Rewrote.cleared {b : Bmap} (hgr : fs.sb.Grouped) (hf : fs.sb.firstDataBlock ≤ first)
    (hb : first + n ≤ fs.sb.blocksCount) (h0 : 0 < n)
    (hin : fs.sb.fsAddrToIdxBg first + n ≤ fs.sb.blocksPerGroup)
    (h : Rewrote fs fs' (fs.sb.ballocGetBgidOfBlock first) b n)
    (hclear : ClearedFrom (fs.bitmap (fs.sb.ballocGetBgidOfBlock first)) b (fs.sb.fsAddrToIdxBg first) n) :
    Cleared fs fs' first n := by
  have hwithin : ∀ k < n, fs.sb.ballocGetBgidOfBlock (first + k) = fs.sb.ballocGetBgidOfBlock first ∧
      fs.sb.fsAddrToIdxBg (first + k) = fs.sb.fsAddrToIdxBg first + k :=
    fun k hk => hgr.within hf (by omega) (by omega)
  have hhit : ∀ g i, Hit fs.sb first n g i ↔ g = fs.sb.ballocGetBgidOfBlock first ∧
      fs.sb.fsAddrToIdxBg first ≤ i ∧ i < fs.sb.fsAddrToIdxBg first + n := by
    intro g i
    constructor
    · rintro ⟨k, hk, rfl, rfl⟩
      obtain ⟨h1, h2⟩ := hwithin k hk
      exact ⟨h1, by omega, by omega⟩
    · rintro ⟨rfl, h1, h2⟩
      obtain ⟨h3, h4⟩ := hwithin (i - fs.sb.fsAddrToIdxBg first) (by omega)
      exact ⟨i - fs.sb.fsAddrToIdxBg first, by omega, h3, by omega⟩
  have hnum : ∀ g, inGroup fs.sb first n g = if g = fs.sb.ballocGetBgidOfBlock first then n else 0 := by
    intro g
    have hsum : inGroup fs.sb first n g = ∑ _k ∈ Finset.range n,
        if g = fs.sb.ballocGetBgidOfBlock first then 1 else 0 := by
      refine Finset.sum_congr rfl fun k hk => ?_
      rw [(hwithin k (Finset.mem_range.1 hk)).1]
      simp only [eq_comm]
    rw [hsum]
    split_ifs <;> simp
  refine ⟨h.toFrame, fun g hg i => ?_, fun g hg => ?_, ?_⟩
  · by_cases he : g = fs.sb.ballocGetBgidOfBlock first
    · rw [hhit, he, h.self, hclear i, Bool.and_eq_true, Bool.not_eq_true', decide_eq_false_iff_not]
      simp only [true_and]
    · rw [hhit, h.other g hg he]
      simp [he]
  · rw [hnum]
    by_cases he : g = fs.sb.ballocGetBgidOfBlock first
    · rw [if_pos he, counted, if_neg (by omega), he, h.count]
    · rw [if_neg he, counted, if_pos rfl, h.countOther g he]
  · rw [counted, if_neg (by omega), h.free]

/-- **One block.** -/
theorem sat_freeBlock_cleared (hgr : fs.sb.Grouped) (hL : fs.Layout) {baddr : ℕ}
    (hf : fs.sb.firstDataBlock ≤ baddr) (hb : baddr < fs.sb.blocksCount) :
    Prog.Sat (· = fs) (ballocFreeBlock baddr) (fun _ fs' => Cleared fs fs' baddr 1) (fun _ _ => True) := by
  refine Prog.Sat.get_bind ?_
  rintro fs rfl
  refine Prog.Sat.bind (sat_freeBits_rewrote hL (hgr.bgid_lt hb) _ 1) fun _ =>
    Prog.Sat.of_forall fun fs₁ h₁ => ?_
  have hc := h₁.cleared hgr hf (by omega) Nat.one_pos (Nat.mod_lt _ hgr.bpg_pos)
    (clearedFrom_bitClr _ _)
  refine sat_revokeFreed (E := fun _ => True) _ _ _ ?_
  exact (sat_transTryRevokeBlock fs₁ baddr).conseq (fun _ => id) (fun _ _ hs => hc.trans_same hs)
    fun _ _ _ => trivial

end Clear

/-! ## Block by block -/

/-- `n` calls of `ext4_balloc_free_block`, from block `first` on. -/
def freeEach (first : ℕ) : ℕ → FsM Unit
  | 0 => pure ()
  | n + 1 => do
    ballocFreeBlock first
    freeEach (first + 1) n

section Each

variable {fs fs' : Fs}

theorem spends_freeEach (n first : ℕ) (hr : Ready fs n) (hb : first + n ≤ fs.sb.blocksCount) :
    Spends fs n (freeEach first n) := by
  induction n generalizing first fs with
  | zero => exact (fetches_pure _).spends hr.wf
  | succ n ih =>
    have hstep : Spends fs (1 + n) (freeEach first (n + 1)) :=
      (spends_ballocFreeBlock (hr.less (by omega)) (by omega)).bind fun _ fs' h =>
        ih (first + 1) (h.ready (by rwa [Nat.add_comm])) (by rw [h.sb]; omega)
    rwa [Nat.add_comm 1 n] at hstep

theorem sat_freeEach (n first : ℕ) (hgr : fs.sb.Grouped) (hL : fs.Layout)
    (hf : fs.sb.firstDataBlock ≤ first) (hb : first + n ≤ fs.sb.blocksCount) :
    Prog.Sat (· = fs) (freeEach first n) (fun _ fs' => Cleared fs fs' first n) (fun _ _ => True) := by
  induction n generalizing first fs with
  | zero =>
    refine Prog.Sat.pure ?_
    rintro fs rfl
    exact .refl fs first
  | succ n ih =>
    refine Prog.Sat.bind (sat_freeBlock_cleared hgr hL hf (by omega)) fun _ =>
      Prog.Sat.of_forall fun fs₁ h₁ => ?_
    refine (ih (first + 1) (h₁.sb ▸ hgr) (h₁.toFrame.layout hL) (by rw [h₁.sb]; omega)
      (by rw [h₁.sb]; omega)).conseq (fun _ => id) ?_ fun _ _ => id
    rintro _ fs₂ h₂
    rw [Nat.add_comm n 1]
    exact h₁.trans h₂

end Each

/-! ## The batched call -/

section Batch

variable {fs fs' : Fs} {g n : ℕ}

/-- The batched call meets the ends of the groups. -/
def BatchFits (s : SBlock) (first count : ℕ) : Prop :=
  s.blocksPerGroup = 8 * s.getBlockSize ∨
    s.ballocGetBgidOfBlock first = s.ballocGetBgidOfBlock (first + count - 1) ∧
      s.fsAddrToIdxBg first + count ≤ 8 * s.getBlockSize

/-- The loop over the groups of a range. -/
theorem sat_freeGroups_fits (k first count : ℕ) (hr : Ready fs count) (hL : fs.Layout) (h0 : 0 < count)
    (hf : fs.sb.firstDataBlock ≤ first) (hb : first + count ≤ fs.sb.blocksCount)
    (hk : k = fs.sb.ballocGetBgidOfBlock (first + count - 1) + 1 - fs.sb.ballocGetBgidOfBlock first)
    (hfits : BatchFits fs.sb first count) :
    Prog.Sat (· = fs) (freeGroups (fs.sb.ballocGetBgidOfBlock first) first count k)
      (fun rest fs' => rest = 0 ∧ Cleared fs fs' first count ∧ Spent fs count fs')
      (fun _ _ => ¬ fs.Quiet) := by
  induction k generalizing first count fs with
  | zero =>
    have := (hr.grouped.range hf h0 hb).1
    omega
  | succ k ih =>
    refine Prog.Sat.get_bind ?_
    rintro fs rfl
    have hgr := hr.grouped
    have hsize := hgr.size_le
    obtain ⟨hle, hrange⟩ := hgr.range hf h0 hb
    have hidx : fs.sb.fsAddrToIdxBg first < fs.sb.blocksPerGroup := Nat.mod_lt _ hgr.bpg_pos
    have hg := hgr.bgid_lt (show first < fs.sb.blocksCount by omega)
    simp only
    have hcap : fs.sb.fsAddrToIdxBg first ≤ fs.sb.getBlockSize * 8 := by
      rcases hfits with h | h <;> omega
    rw [sub32_of_le hcap (by omega)]
    generalize hc : (if fs.sb.getBlockSize * 8 - fs.sb.fsAddrToIdxBg first < count
      then fs.sb.getBlockSize * 8 - fs.sb.fsAddrToIdxBg first else count) = c
    -- the blocks freed in this round belong to the group
    have hcle : 0 < c ∧ c ≤ count ∧ c ≤ 8 * fs.sb.getBlockSize ∧
        fs.sb.fsAddrToIdxBg first + c ≤ fs.sb.blocksPerGroup := by
      rcases hfits with h | ⟨h, h8⟩
      · split_ifs at hc <;> omega
      · have := hrange.2 h
        split_ifs at hc <;> omega
    obtain ⟨hc0, hcc, hc8, hcin⟩ := hcle
    have hstep := (sat_freeBits_rewrote hL hg (bmapBitsFree · (fs.sb.fsAddrToIdxBg first) c) c).and
      (spends_freeBits (hr.less hcc) hg hc8 (bmapBitsFree · (fs.sb.fsAddrToIdxBg first) c))
    refine Prog.Sat.bind (hstep.conseq (fun _ => id) (fun _ _ => id) fun _ _ h => h.2) fun _ =>
      Prog.Sat.of_forall ?_
    rintro fs₁ ⟨hrew, hs₁⟩
    have hc₁ := hrew.cleared hgr hf (by omega) hc0 hcin (isBitSet_bitsFree _ _ _)
    rcases Nat.eq_or_lt_of_le hcc with rfl | hlt
    · have hk0 : k = 0 := by
        have := hrange.1 hcin
        omega
      rw [hk0]
      refine Prog.Sat.pure ?_
      rintro _ rfl
      exact ⟨Nat.sub_self c, hc₁, hs₁⟩
    · have h8 : fs.sb.blocksPerGroup = 8 * fs.sb.getBlockSize := by
        refine hfits.resolve_right fun h => ?_
        split_ifs at hc <;> omega
      have hend : fs.sb.fsAddrToIdxBg first + c = fs.sb.blocksPerGroup := by
        split_ifs at hc <;> omega
      obtain ⟨hnext, -⟩ := hgr.next hf (by omega) hend
      have hlast : first + c + (count - c) - 1 = first + count - 1 := by omega
      have hih := ih (first + c) (count - c) (hs₁.ready (by rwa [Nat.add_sub_cancel' hcc]))
        (hs₁.toFrame.layout hL) (by omega) (by rw [hs₁.sb]; omega) (by rw [hs₁.sb]; omega)
        (by rw [hs₁.sb, hlast, hnext]; omega) (.inl (by rw [hs₁.sb]; exact h8))
      rw [hs₁.sb, hnext] at hih
      refine hih.conseq (fun _ => id) ?_ fun _ _ h hq => h (hs₁.quiet hq)
      rintro rest fs' ⟨hrest, hc₂, hs₂⟩
      have hcl := hc₁.trans hc₂
      have hsp := hs₁.trans hs₂
      rw [Nat.add_sub_cancel' hcc] at hcl hsp
      exact ⟨hrest, hcl, hsp⟩

/-- **The batched call** that meets the ends of the groups. -/
theorem sat_ballocFreeBlocks_fits {first count : ℕ} (hr : Ready fs count) (hL : fs.Layout)
    (h0 : 0 < count) (hf : fs.sb.firstDataBlock ≤ first) (hb : first + count ≤ fs.sb.blocksCount)
    (hfits : BatchFits fs.sb first count) :
    Prog.Sat (· = fs) (ballocFreeBlocks first count)
      (fun _ fs' => Cleared fs fs' first count ∧ Spent fs count fs') (fun _ _ => ¬ fs.Quiet) := by
  refine Prog.Sat.get_bind ?_
  rintro fs rfl
  have hlt := hr.grouped.count_lt
  simp only
  rw [u64_of_lt (by omega), sub64_of_le (by omega) (by omega)]
  refine Prog.Sat.bind (sat_freeGroups_fits _ first count hr hL h0 hf hb rfl hfits) fun rest =>
    Prog.Sat.of_forall ?_
  rintro fs₁ ⟨rfl, hc₁, hs₁⟩
  have hrev := ((@sat_revokeBlocks count first fs₁).and (fetches_revokeBlocks count first))
  refine Prog.Sat.bind (hrev.conseq (fun _ => id) (fun _ _ => id)
    fun _ _ h hq => h.2 (hs₁.quiet hq)) fun _ => Prog.Sat.of_forall ?_
  rintro fs₂ ⟨hsame, hkept⟩
  refine Prog.Sat.pure ?_
  rintro _ rfl
  exact ⟨hc₁.trans_same hsame, hs₁.trans (hkept.spent (hs₁.sb ▸ hs₁.wf))⟩

/-- The loop over later groups leaves the bitmap of an earlier one. -/
theorem sat_freeGroups_before (k bgFirst first count : ℕ) (hL : fs.Layout)
    (hk : bgFirst + k ≤ fs.sb.blockGroupCnt) (hg : g < bgFirst) :
    Prog.Sat (· = fs) (freeGroups bgFirst first count k)
      (fun _ fs' => Frame fs fs' ∧ fs'.bitmap g = fs.bitmap g) (fun _ _ => True) := by
  induction k generalizing bgFirst first count fs with
  | zero =>
    refine Prog.Sat.pure ?_
    rintro fs rfl
    exact ⟨⟨rfl, rfl, fun _ => ⟨rfl, rfl, rfl⟩⟩, rfl⟩
  | succ k ih =>
    refine Prog.Sat.get_bind ?_
    rintro fs rfl
    refine Prog.Sat.bind (sat_freeBits_rewrote hL (by omega) _ _) fun _ => Prog.Sat.of_forall fun s h => ?_
    refine (ih (bgFirst + 1) _ _ (h.toFrame.layout hL) (by rw [h.sb]; omega) (by omega)).conseq
      (fun _ => id) ?_ fun _ _ => id
    rintro _ s' ⟨hfr, h'⟩
    exact ⟨h.toFrame.trans hfr, by rw [h', h.other g (by omega) (by omega)]⟩

/-- A batched call that goes past the end of a group clears a bit behind it,
    where groups have less than `8 * block_size` blocks. -/
theorem sat_ballocFreeBlocks_over (hgr : fs.sb.Grouped) (hL : fs.Layout) {first count : ℕ}
    (h0 : 0 < count) (hf : fs.sb.firstDataBlock ≤ first) (hb : first + count ≤ fs.sb.blocksCount)
    (hlt : fs.sb.blocksPerGroup < 8 * fs.sb.getBlockSize)
    (hover : fs.sb.blocksPerGroup < fs.sb.fsAddrToIdxBg first + count) :
    Prog.Sat (· = fs) (ballocFreeBlocks first count)
      (fun _ fs' => fs'.sb = fs.sb ∧
        bmapIsBitSet (fs'.bitmap (fs.sb.ballocGetBgidOfBlock first)) fs.sb.blocksPerGroup = false)
      (fun _ _ => True) := by
  refine Prog.Sat.get_bind ?_
  rintro fs rfl
  have hcl := hgr.count_lt
  have hsize := hgr.size_le
  have hidx : fs.sb.fsAddrToIdxBg first < fs.sb.blocksPerGroup := Nat.mod_lt _ hgr.bpg_pos
  have hle := (hgr.range hf h0 hb).1
  have hlast := hgr.bgid_lt (show first + count - 1 < fs.sb.blocksCount by omega)
  simp only
  rw [u64_of_lt (by omega), sub64_of_le (by omega) (by omega)]
  obtain ⟨k, hk⟩ : ∃ k, fs.sb.ballocGetBgidOfBlock (first + count - 1) + 1 -
      fs.sb.ballocGetBgidOfBlock first = k + 1 :=
    ⟨fs.sb.ballocGetBgidOfBlock (first + count - 1) - fs.sb.ballocGetBgidOfBlock first, by omega⟩
  rw [hk]
  refine Prog.Sat.bind (Q := fun _ s => s.sb = fs.sb ∧
    bmapIsBitSet (s.bitmap (fs.sb.ballocGetBgidOfBlock first)) fs.sb.blocksPerGroup = false) ?_
    fun rest => Prog.Sat.of_forall fun s hs => ?_
  · refine Prog.Sat.get_bind ?_
    rintro fs rfl
    simp only
    rw [sub32_of_le (by omega) (by omega)]
    generalize hc : (if fs.sb.getBlockSize * 8 - fs.sb.fsAddrToIdxBg first < count
      then fs.sb.getBlockSize * 8 - fs.sb.fsAddrToIdxBg first else count) = c
    refine Prog.Sat.bind (sat_freeBits_rewrote hL (by omega) _ _) fun _ => Prog.Sat.of_forall fun s h => ?_
    refine (sat_freeGroups_before k _ _ _ (h.toFrame.layout hL) (by rw [h.sb]; omega)
      (Nat.lt_succ_self _)).conseq (fun _ => id) ?_ fun _ _ => id
    rintro _ s' ⟨hfr, h'⟩
    have hin : fs.sb.fsAddrToIdxBg first ≤ fs.sb.blocksPerGroup ∧
        fs.sb.blocksPerGroup < fs.sb.fsAddrToIdxBg first + c := by
      split_ifs at hc <;> omega
    refine ⟨hfr.sb.trans h.sb, ?_⟩
    rw [h', h.self, isBitSet_bitsFree, decide_eq_true hin, Bool.not_true, Bool.and_false]
  · refine Prog.Sat.bind ((sat_revokeBlocks count first).conseq (fun _ => id) (fun _ _ => id)
      fun _ _ _ => trivial) fun _ => Prog.Sat.of_forall fun s' hs' => ?_
    have hbit : s'.sb = fs.sb ∧
        bmapIsBitSet (s'.bitmap (fs.sb.ballocGetBgidOfBlock first)) fs.sb.blocksPerGroup = false :=
      ⟨hs'.sb.trans hs.1, by rw [hs'.bitmap _ (by rw [hs.1]; omega), hs.2]⟩
    split_ifs
    · refine Prog.Sat.pure ?_
      rintro _ rfl
      exact hbit
    · exact Prog.Sat.fail fun _ _ => trivial

end Batch

/-! ## Agreement -/

/-- The same bitmaps and the same counts. -/
structure Agree (fs₁ fs₂ : Fs) : Prop where
  bitmap : ∀ g < fs₁.sb.blockGroupCnt, ∀ i < 8 * fs₁.sb.getBlockSize,
    bmapIsBitSet (fs₁.bitmap g) i = bmapIsBitSet (fs₂.bitmap g) i
  groupFree : ∀ g < fs₁.sb.blockGroupCnt, fs₁.freeCount g = fs₂.freeCount g
  free : fs₁.freeBlocksCount = fs₂.freeBlocksCount
  inode : inodeGetBlocksCount fs₁.sb fs₁.inode = inodeGetBlocksCount fs₂.sb fs₂.inode

/-- The state with other device errors to come. -/
def Fs.withErrors (fs : Fs) (l v : List Bool) : Fs := { fs with faults := l, revokes := v }

/-- The blocks have bits in bitmap blocks, both ways to free them return without
    device errors, and wherever both return, also between device errors, they
    leave the same. -/
structure BatchAgrees (fs : Fs) (first count : ℕ) : Prop where
  inside : ∀ k < count, fs.sb.fsAddrToIdxBg (first + k) < 8 * fs.sb.getBlockSize
  batch : ∃ fs₁, ballocFreeBlocks first count (fs.withErrors [] []) = (.ok (), fs₁)
  single : ∃ fs₂, freeEach first count (fs.withErrors [] []) = (.ok (), fs₂)
  agree : ∀ l₁ v₁ l₂ v₂ fs₁ fs₂, ballocFreeBlocks first count (fs.withErrors l₁ v₁) = (.ok (), fs₁) →
    freeEach first count (fs.withErrors l₂ v₂) = (.ok (), fs₂) → Agree fs₁ fs₂

section Agree

variable {fs fs₁ fs₂ : Fs} {first count : ℕ}

/-- Two ways to clear the same range agree. -/
theorem agree_of_cleared {l₁ v₁ l₂ v₂ : List Bool}
    (hc₁ : Cleared (fs.withErrors l₁ v₁) fs₁ first count) (hs₁ : Spent (fs.withErrors l₁ v₁) count fs₁)
    (hc₂ : Cleared (fs.withErrors l₂ v₂) fs₂ first count) (hs₂ : Spent (fs.withErrors l₂ v₂) count fs₂) :
    Agree fs₁ fs₂ := by
  have hsb₁ : fs₁.sb = fs.sb := hs₁.sb
  have hsb₂ : fs₂.sb = fs.sb := hs₂.sb
  refine ⟨fun g hg i _ => ?_, fun g hg => ?_, ?_, ?_⟩
  · rw [hsb₁] at hg
    exact Bool.eq_iff_iff.2 ((hc₁.bits g hg i).trans (hc₂.bits g hg i).symm)
  · rw [hsb₁] at hg
    exact (hc₁.counts g hg).trans (hc₂.counts g hg).symm
  · exact hc₁.free.trans hc₂.free.symm
  · have h1 := hs₁.count
    have h2 := hs₂.count
    rw [hsb₁, hsb₂]
    exact Nat.add_right_cancel (h1.trans h2.symm)

/-- A range whose blocks have bits lies in one group where groups are larger
    than what a bitmap block covers. -/
theorem fits_of_inside (hgr : fs.sb.Grouped) (h0 : 0 < count) (hf : fs.sb.firstDataBlock ≤ first)
    (hb : first + count ≤ fs.sb.blocksCount)
    (hin : ∀ k < count, fs.sb.fsAddrToIdxBg (first + k) < 8 * fs.sb.getBlockSize)
    (hle : 8 * fs.sb.getBlockSize ≤ fs.sb.blocksPerGroup ∨
      fs.sb.fsAddrToIdxBg first + count ≤ fs.sb.blocksPerGroup) : BatchFits fs.sb first count := by
  have hidx : fs.sb.fsAddrToIdxBg first < fs.sb.blocksPerGroup := Nat.mod_lt _ hgr.bpg_pos
  have hrange := (hgr.range hf h0 hb).2
  by_cases hone : fs.sb.fsAddrToIdxBg first + count ≤ fs.sb.blocksPerGroup
  · have hlast := (hgr.within (n := count - 1) hf (by omega) (by omega)).2
    have := hin (count - 1) (by omega)
    exact .inr ⟨hrange.1 hone, by omega⟩
  · have hend := (hgr.within (n := fs.sb.blocksPerGroup - 1 - fs.sb.fsAddrToIdxBg first) hf
      (by omega) (by omega)).2
    have := hin (fs.sb.blocksPerGroup - 1 - fs.sb.fsAddrToIdxBg first) (by omega)
    exact .inl (by omega)

/-- **Freeing a range at once is freeing its blocks one by one** if and only if
    the range stays in one group and its bitmap block, or every group has
    `8 * block_size` blocks. -/
theorem freeBlocks_batch_iff (fs : Fs) (first count : ℕ) (hC : fs.Consistent) (hr : Ready fs count)
    (h0 : 0 < count) (hal : fs.Allocated first count) :
    BatchAgrees fs first count ↔ BatchFits fs.sb first count := by
  obtain ⟨hf, hb, -⟩ := hal
  have hgr := hr.grouped
  have hL : ∀ l v, (fs.withErrors l v).Layout := fun l v =>
    @Frame.layout fs _ ⟨rfl, rfl, fun _ => ⟨rfl, rfl, rfl⟩⟩ hC.layout
  have hrl : ∀ l v, Ready (fs.withErrors l v) count := fun l v =>
    ⟨hgr, @Fs.Frame.onDevice fs _ ⟨rfl, rfl, fun _ => ⟨rfl, rfl, rfl⟩⟩ hr.device, hr.wf, hr.count⟩
  have hsingle := fun l v => spends_freeEach count first (hrl l v) hb
  have heach := fun l v => @sat_freeEach (fs.withErrors l v) count first hgr (hL l v) hf hb
  constructor
  · intro h
    refine fits_of_inside hgr h0 hf hb h.inside ?_
    by_contra hn
    rw [not_or] at hn
    obtain ⟨fs₁, h₁⟩ := h.batch
    obtain ⟨fs₂, h₂⟩ := h.single
    obtain ⟨hsb₁, hover⟩ := (@sat_ballocFreeBlocks_over (fs.withErrors [] []) hgr (hL [] []) _ _ h0
      hf hb (Nat.not_le.1 hn.1) (Nat.not_le.1 hn.2)).ok rfl h₁
    have hg := hgr.bgid_lt (show first < fs.sb.blocksCount by omega)
    have hlt := Nat.not_le.1 hn.1
    -- the bit behind the group belongs to no block, so that only the batch clears it
    have hbit := (h.agree [] [] [] [] fs₁ fs₂ h₁ h₂).bitmap (fs.sb.ballocGetBgidOfBlock first)
      (by rw [hsb₁]; exact hg) fs.sb.blocksPerGroup (by rw [hsb₁]; exact hlt)
    have hpad := hC.padding _ hg fs.sb.blocksPerGroup (Nat.min_le_left _ _) hlt
    have hset := (((heach [] []).ok rfl h₂).bits (fs.sb.ballocGetBgidOfBlock first) hg
      fs.sb.blocksPerGroup).2 ⟨hpad, fun ⟨k, _, _, hk⟩ => absurd hk (Nat.mod_lt _ hgr.bpg_pos).ne⟩
    rw [hset] at hbit
    exact absurd (hover.symm.trans hbit) Bool.false_ne_true
  · intro hfits
    have hbatch := fun l v =>
      @sat_ballocFreeBlocks_fits (fs.withErrors l v) _ _ (hrl l v) (hL l v) h0 hf hb hfits
    refine ⟨fun k hk => ?_, ?_, ?_, ?_⟩
    · have hlt : fs.sb.fsAddrToIdxBg (first + k) < fs.sb.blocksPerGroup := Nat.mod_lt _ hgr.bpg_pos
      rcases hfits with h8 | ⟨hone, h8⟩
      · omega
      · have hin := (hgr.range hf h0 hb).2.2 hone
        rw [(hgr.within hf (by omega) (by omega)).2]
        omega
    · rcases h : ballocFreeBlocks first count (fs.withErrors [] []) with ⟨e | u, fs₁⟩
      · exact absurd ⟨rfl, rfl⟩ ((hbatch [] []).error rfl h)
      · exact ⟨fs₁, rfl⟩
    · rcases h : freeEach first count (fs.withErrors [] []) with ⟨e | u, fs₂⟩
      · exact absurd ⟨rfl, rfl⟩ ((hsingle [] []).error rfl h)
      · exact ⟨fs₂, rfl⟩
    · intro l₁ v₁ l₂ v₂ fs₁ fs₂ h₁ h₂
      obtain ⟨hc₁, hs₁⟩ := (hbatch l₁ v₁).ok rfl h₁
      exact agree_of_cleared hc₁ hs₁ ((heach l₂ v₂).ok rfl h₂) ((hsingle l₂ v₂).ok rfl h₂)

end Agree

/-! ## Groups of 256 blocks -/

theorem fullFs_ready : Ready fullFs 2 := by
  have hcnt : fullFs.sb.blockGroupCnt = 3 := by decide +kernel
  refine ⟨⟨by decide, by decide, by decide, by decide⟩, ⟨?_, ?_, ?_, ?_⟩,
    ⟨by decide, fun h => by cases h⟩, by decide⟩
  · rw [hcnt]
    decide +kernel
  · intro g hg
    rw [hcnt] at hg
    show 2 + g < 768
    omega
  · intro g hg
    rw [hcnt] at hg
    show 5 + g < 768
    omega
  · intro g hg k hk
    rw [hcnt] at hg
    have htable : ∀ g < 3, itableBlocks fullFs.sb g ≤ 16 := by decide +kernel
    have := htable g hg
    show 8 + g + k < 768
    omega

theorem freeBlocks_batch_inside : BatchAgrees fullFs 100 2 :=
  (freeBlocks_batch_iff fullFs 100 2 fullFs_consistent fullFs_ready (by decide)
    ⟨by decide, by decide, fun _ _ _ => fullFs_bit _ _⟩).2
    (.inr ⟨by decide +kernel, by decide +kernel⟩)

/-- Blocks 511 and 512 are the last of group 1 and the first of group 2.  Freed
    at once they are both counted in group 1, freed one by one they are not. -/
theorem freeBlocks_batch_crossing :
    fullFs.Consistent ∧ Ready fullFs 2 ∧ fullFs.Allocated 511 2 ∧
      (ballocFreeBlocks 511 2 fullFs).2.freeCount 1 = 2 ∧ (freeEach 511 2 fullFs).2.freeCount 1 = 1 ∧
      ¬ BatchAgrees fullFs 511 2 := by
  have hbatch : (ballocFreeBlocks 511 2 fullFs).2.freeCount 1 = 2 := by decide +kernel
  have hsingle : (freeEach 511 2 fullFs).2.freeCount 1 = 1 := by decide +kernel
  refine ⟨fullFs_consistent, fullFs_ready, ⟨by decide, by decide, fun _ _ _ => fullFs_bit _ _⟩,
    hbatch, hsingle, fun h => ?_⟩
  obtain ⟨fs₁, h₁⟩ := h.batch
  obtain ⟨fs₂, h₂⟩ := h.single
  have hcount := (h.agree [] [] [] [] fs₁ fs₂ h₁ h₂).groupFree 1
  have hcnt : (ballocFreeBlocks 511 2 fullFs).2.sb.blockGroupCnt = 3 := by decide +kernel
  have hfull : fullFs.withErrors [] [] = fullFs := rfl
  rw [hfull] at h₁ h₂
  rw [h₁] at hbatch hcnt
  rw [h₂] at hsingle
  simp only at hbatch hcnt hsingle
  rw [hbatch, hsingle, hcnt] at hcount
  exact absurd (hcount (by decide)) (by decide)

end Lwext4
