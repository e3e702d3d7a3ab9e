/-
  Where mkfs puts the metadata of a group, and what it counts as free.

  `LayoutOk` says that a new file system is well formed.  The rest reads the
  addresses and counts that mkfs computes with 32 bits as the numbers they
  stand for: `bitmap_addr` for the addresses, `free_add` for the free count,
  `cnt_spec` for the number of groups.
-/
import Lwext4.GroupBitmap
import Lwext4.Mkfs

namespace Lwext4

open Lib

namespace MkfsInfo

variable (info : MkfsInfo)

/-! ## The settings in numbers -/

/-- What the types of the settings promise, a block size of the format, and
    descriptors of 32 bytes. -/
structure Sized : Prop where
  blockSize : ∃ e ≤ 6, info.blockSize = 1024 <<< e
  bpg_pos : 0 < info.blocksPerGroup
  bpg_lt : info.blocksPerGroup < 2 ^ 32
  len_lt : info.len < 2 ^ 64
  dsc : info.dscSize = 32
  reserve : info.bgDescReserveBlocks = 0

/-- The blocks of the device. -/
def blocks : ℕ := info.len / info.blockSize

/-- The first block of the first group. -/
def first : ℕ := if 1024 < info.blockSize then 0 else 1

/-- The blocks that hold the descriptors of `n` groups. -/
def descBlocks (n : ℕ) : ℕ := (n * info.dscSize + (info.blockSize - 1)) / info.blockSize

/-- The blocks that hold the inodes of a group. -/
def tableBlocks : ℕ :=
  (info.inodesPerGroup * info.inodeSize + (info.blockSize - 1)) / info.blockSize

/-- The block of the superblock copy of a group. -/
def superBlocks (g : ℕ) : ℕ := if info.hasSuperblock g then 1 else 0

/-- The first block of group `g`. -/
def base (g : ℕ) : ℕ := info.first + g * info.blocksPerGroup

/-- The metadata of group `g` as first block and number of blocks: the copies
    of the superblock and of the descriptors, the bitmaps, the inode table. -/
def metadata (g : ℕ) : List (ℕ × ℕ) :=
  (if info.hasSuperblock g then [(info.sblockOffset g / info.blockSize, 1)] else []) ++
    [(info.bgroupBlock g 0, info.descBlocks info.createFsAuxInfo.groups),
      ((info.bgroup g).blockBitmap, 1), ((info.bgroup g).inodeBitmap, 1),
      ((info.bgroup g).inodeTable, info.tableBlocks)]

/-- A well-formed file system.  Its groups are those the superblock counts and
    cover it; the metadata of a group lies in the blocks the group has on the
    device, no two pieces overlapping; and the bitmap of a group has a bit for
    each block, marks the bitmaps and the inode table, and leaves as many bits
    clear as the descriptor counts, while the superblock counts their sum. -/
structure LayoutOk (fs : Fs) : Prop where
  groups : info.createFsAuxInfo.groups = fs.sb.blockGroupCnt
  covers : fs.sb.blocksCount ≤ info.base info.createFsAuxInfo.groups
  device : fs.sb.blocksCount ≤ info.blocks
  inGroup : ∀ g < info.createFsAuxInfo.groups, ∀ p ∈ info.metadata g,
    info.base g ≤ p.1 ∧ p.1 + p.2 ≤ info.base g + fs.sb.groupLen g
  disjoint : ∀ g < info.createFsAuxInfo.groups,
    (info.metadata g).Pairwise fun p q => p.1 + p.2 ≤ q.1 ∨ q.1 + q.2 ≤ p.1
  bits : ∀ g < info.createFsAuxInfo.groups, fs.sb.groupLen g ≤ 8 * info.blockSize
  marked : ∀ g < info.createFsAuxInfo.groups, ∀ b, b = (fs.bg g).blockBitmap ∨
    b = (fs.bg g).inodeBitmap ∨ (fs.bg g).inodeTable ≤ b ∧ b < (fs.bg g).inodeTable + info.tableBlocks →
      bmapIsBitSet (fs.bitmap g) (b - info.base g) = true
  free : ∀ g < info.createFsAuxInfo.groups,
    fs.freeCount g = clearBits (fs.bitmap g) (8 * info.blockSize)
  total : fs.freeBlocksCount = ∑ g ∈ Finset.range info.createFsAuxInfo.groups, fs.freeCount g

/-- Where the block bitmap lies in its group. -/
def bitmapIdx (g : ℕ) : ℕ :=
  info.first + info.superBlocks g + info.createFsAuxInfo.bgDescBlocks + 1

/-- What mkfs takes from the blocks of group `g`. -/
def taken (g : ℕ) : ℕ :=
  info.createFsAuxInfo.inodeTableBlocks + 2 +
    (if g = sub32 info.createFsAuxInfo.groups 1 then info.first else 0) +
    (if info.hasSuperblock g then 1 + info.createFsAuxInfo.bgDescBlocks else 0)

/-! ## Block sizes -/

variable {info} {g : ℕ}

theorem Sized.bs_facts (h : info.Sized) : 1024 ≤ info.blockSize ∧ info.blockSize ≤ 2 ^ 16 ∧
    info.blockSize ∣ 2 ^ 32 ∧ info.blockSize = 32 * (info.blockSize / 32) ∧
      info.fillSb.getBlockSize = info.blockSize := by
  obtain ⟨e, he, hbs⟩ := h.blockSize
  have hall : ∀ e ≤ 6, 1024 ≤ 1024 <<< e ∧ 1024 <<< e ≤ 2 ^ 16 ∧ 1024 <<< e ∣ 2 ^ 32 ∧
      1024 <<< e = 32 * (1024 <<< e / 32) ∧ 1024 <<< Nat.log2 (1024 <<< e / 1024) = 1024 <<< e := by
    decide
  rw [SBlock.getBlockSize, fillSb, hbs]
  exact hall e he

theorem Sized.descSize (h : info.Sized) : info.fillSb.getDescSize = 32 := by
  rw [SBlock.getDescSize, fillSb, h.dsc]
  rfl

theorem first_le (info : MkfsInfo) : info.first ≤ 1 := by
  rw [first]
  split_ifs <;> omega

theorem superBlocks_le (info : MkfsInfo) (g : ℕ) : info.superBlocks g ≤ 1 := by
  rw [superBlocks]
  split_ifs <;> omega

theorem divRoundUp32_lt {x y : ℕ} (hy : 1024 ≤ y) : divRoundUp32 x y < 2 ^ 23 := by
  rw [divRoundUp32, Nat.div_lt_iff_lt_mul (by omega)]
  have := u32_lt (x + (y - 1))
  omega

/-- The number of groups before the last one may be dropped. -/
def allGroups (info : MkfsInfo) : ℕ :=
  u32 (divRoundUp64 (sub64 info.blocks info.first) info.blocksPerGroup)

/-- The inode table blocks and descriptor blocks that mkfs computes. -/
def tableBlocks32 (info : MkfsInfo) : ℕ :=
  divRoundUp32 (u32 (info.inodesPerGroup * info.inodeSize)) info.blockSize

def descBlocks32 (info : MkfsInfo) : ℕ :=
  divRoundUp32 (u32 (info.allGroups * info.dscSize)) info.blockSize

/-- The last group is too short for its metadata and is dropped. -/
def Drops (info : MkfsInfo) : Prop :=
  0 < u32 (info.blocks % info.blocksPerGroup) ∧
    u32 (info.blocks % info.blocksPerGroup) <
      if info.hasSuperblock (sub32 info.allGroups 1) then
        u32 (u32 (2 + info.tableBlocks32) + 1 + info.descBlocks32 + info.bgDescReserveBlocks)
      else u32 (2 + info.tableBlocks32)

instance (info : MkfsInfo) : Decidable info.Drops := inferInstanceAs (Decidable (_ ∧ _))

theorem aux_eq (info : MkfsInfo) : info.createFsAuxInfo =
    if info.Drops then
      ⟨info.first, info.blocks - u32 (info.blocks % info.blocksPerGroup), info.tableBlocks32,
        sub32 info.allGroups 1, info.descBlocks32⟩
    else ⟨info.first, info.blocks, info.tableBlocks32, info.allGroups, info.descBlocks32⟩ := rfl

/-- The fields that do not depend on whether the last group is dropped. -/
theorem aux_first (info : MkfsInfo) : info.createFsAuxInfo.firstDataBlock = info.first := by
  rw [aux_eq]
  split_ifs <;> rfl

theorem aux_table (info : MkfsInfo) : info.createFsAuxInfo.inodeTableBlocks = info.tableBlocks32 := by
  rw [aux_eq]
  split_ifs <;> rfl

theorem aux_desc (info : MkfsInfo) : info.createFsAuxInfo.bgDescBlocks = info.descBlocks32 := by
  rw [aux_eq]
  split_ifs <;> rfl

theorem groups_lt (info : MkfsInfo) : info.createFsAuxInfo.groups < 2 ^ 32 := by
  rw [aux_eq]
  split_ifs
  · change sub32 _ _ < _
    unfold sub32
    exact Nat.mod_lt _ (by decide)
  · exact u32_lt _

theorem Sized.aux_lt (h : info.Sized) : info.createFsAuxInfo.inodeTableBlocks < 2 ^ 23 ∧
    info.createFsAuxInfo.bgDescBlocks < 2 ^ 23 := by
  rw [aux_table, aux_desc]
  exact ⟨divRoundUp32_lt h.bs_facts.1, divRoundUp32_lt h.bs_facts.1⟩

/-! ## Addresses -/

theorem bgroupBitmap_eq (h : info.Sized) (g : ℕ) : info.bgroupBitmap g =
    (info.first + info.base g) % 2 ^ 32 + info.superBlocks g +
      info.createFsAuxInfo.bgDescBlocks + 1 := by
  have hlt := h.aux_lt.2
  have hu : u32 (info.createFsAuxInfo.bgDescBlocks + 0) = info.createFsAuxInfo.bgDescBlocks :=
    u32_of_lt (by omega)
  rw [bgroupBitmap, superBlocks, h.reserve, aux_first, hu, base]
  have hstart : u32 (info.first + info.first + u32 (g * info.blocksPerGroup)) =
      (info.first + (info.first + g * info.blocksPerGroup)) % 2 ^ 32 := by
    rw [u32, u32]
    omega
  rw [hstart]
  by_cases hs : info.hasSuperblock g = true
  · rw [if_pos hs, if_pos hs]
  · rw [if_neg hs, if_neg hs]
    omega

theorem bgAddr_eq (h : info.Sized) (blk : ℕ) : bgAddr info.fillSb blk = blk % 2 ^ 32 := by
  rw [bgAddr, h.descSize, if_neg (lt_irrefl _), u32]

/-- **The addresses of the bitmaps and the inode table**, where they fit in 32
    bits. -/
theorem bitmap_addr (h : info.Sized) (hlt : info.base g + info.bitmapIdx g + 2 < 2 ^ 32) :
    info.bgroupBitmap g = info.base g + info.bitmapIdx g ∧
      (info.bgroup g).blockBitmap = info.base g + info.bitmapIdx g ∧
      (info.bgroup g).inodeBitmap = info.base g + info.bitmapIdx g + 1 ∧
      (info.bgroup g).inodeTable = info.base g + info.bitmapIdx g + 2 := by
  have hmap : info.bgroupBitmap g = info.base g + info.bitmapIdx g := by
    rw [bgroupBitmap_eq h, bitmapIdx] at *
    omega
  refine ⟨hmap, ?_, ?_, ?_⟩
  · change bgAddr _ _ = _
    rw [bgAddr_eq h, hmap]
    omega
  · change bgAddr _ _ = _
    rw [bgAddr_eq h, hmap]
    omega
  · change bgAddr _ _ = _
    rw [bgAddr_eq h, hmap]
    omega

/-- An inode table whose address is not below its group has one that fits. -/
theorem addr_of_le (h : info.Sized) (hle : info.base g ≤ (info.bgroup g).inodeTable) :
    info.base g + info.bitmapIdx g + 2 < 2 ^ 32 := by
  have hf := info.first_le
  have hs := info.superBlocks_le g
  have hd := h.aux_lt.2
  change _ ≤ bgAddr _ _ at hle
  rw [bgAddr_eq h, bgroupBitmap_eq h] at hle
  rw [bitmapIdx]
  omega

/-! ## Free blocks -/

/-- **The free count** is what is left of a full group. -/
theorem free_add (h : info.Sized) (g : ℕ) : info.bgroupFree g < 2 ^ 32 ∧
    (info.bgroupFree g + info.taken g) % 2 ^ 32 = info.blocksPerGroup := by
  have hb := h.bpg_lt
  obtain ⟨ht, hd⟩ := h.aux_lt
  have hf := info.first_le
  rw [bgroupFree, taken, aux_first, h.reserve]
  simp only [Nat.zero_add, u32_of_lt (show 1 < 2 ^ 32 by decide)]
  by_cases hl : g = sub32 info.createFsAuxInfo.groups 1
  · simp only [if_pos hl]
    by_cases hs : info.hasSuperblock g = true
    · simp only [if_pos hs]
      unfold sub32
      omega
    · simp only [if_neg hs]
      unfold sub32
      omega
  · simp only [if_neg hl]
    by_cases hs : info.hasSuperblock g = true
    · simp only [if_pos hs]
      unfold sub32
      omega
    · simp only [if_neg hs]
      unfold sub32
      omega

theorem Sized.taken_lt (h : info.Sized) (g : ℕ) : info.taken g < 2 ^ 25 := by
  obtain ⟨ht, hd⟩ := h.aux_lt
  have hf := info.first_le
  rw [taken]
  split_ifs <;> omega

/-- A small free count is what is taken from the group. -/
theorem free_eq (h : info.Sized) (hlt : info.bgroupFree g < 2 ^ 16) :
    info.bgroupFree g + info.taken g = info.blocksPerGroup := by
  have hmod := (free_add h g).2
  have ht := h.taken_lt g
  rwa [Nat.mod_eq_of_lt (by omega)] at hmod

theorem free_of_le (h : info.Sized) (hle : info.taken g ≤ info.blocksPerGroup) :
    info.bgroupFree g = info.blocksPerGroup - info.taken g := by
  obtain ⟨hlt, hmod⟩ := free_add h g
  have ht := h.taken_lt g
  have hb := h.bpg_lt
  omega

/-! ## What write_bgroups leaves -/

section Init

variable (disk : ℕ → Bmap) (bg : ℕ → BGroup) (lgBcnt : ℕ)

theorem writeBgroups_spec (fs : Fs) (n : ℕ) :
    (info.writeBgroups fs n).1.sb = fs.sb ∧
      (∀ g < n, (info.writeBgroups fs n).1.bg g = info.bgroup g) ∧
      (info.writeBgroups fs n).2 = (∑ i ∈ Finset.range n, info.bgroupFree i) % 2 ^ 64 := by
  induction n with
  | zero => exact ⟨rfl, fun g hg => absurd hg (Nat.not_lt_zero g), rfl⟩
  | succ n ih =>
    obtain ⟨hsb, hbg, hsum⟩ := ih
    refine ⟨hsb, fun g hg => ?_, ?_⟩
    · change Function.update _ n _ g = _
      by_cases hgn : g = n
      · rw [hgn, Function.update_self]
      · rw [Function.update_of_ne hgn]
        exact hbg g (by omega)
    · change u64 (_ + _) = _
      rw [hsum, u64, Finset.sum_range_succ, Nat.mod_add_mod]

theorem mkfsInit_sb : (info.mkfsInit disk bg lgBcnt).sb = info.fillSb :=
  (writeBgroups_spec _ _).1

theorem mkfsInit_bg (hg : g < info.createFsAuxInfo.groups) :
    (info.mkfsInit disk bg lgBcnt).bg g = info.bgroup g := (writeBgroups_spec _ _).2.1 g hg

theorem mkfsInit_total (h : info.Sized) : (info.mkfsInit disk bg lgBcnt).freeBlocksCount =
    ∑ i ∈ Finset.range info.createFsAuxInfo.groups, info.bgroupFree i := by
  have hlt : ∑ i ∈ Finset.range info.createFsAuxInfo.groups, info.bgroupFree i < 2 ^ 64 := by
    have hle : ∑ i ∈ Finset.range info.createFsAuxInfo.groups, info.bgroupFree i ≤
        (Finset.range info.createFsAuxInfo.groups).card • 2 ^ 32 :=
      Finset.sum_le_card_nsmul _ _ _ fun i _ => (free_add h i).1.le
    rw [Finset.card_range, smul_eq_mul] at hle
    have := info.groups_lt
    omega
  change (info.writeBgroups _ _).2 = _
  rw [(writeBgroups_spec _ _).2.2, Nat.mod_eq_of_lt hlt]

/-- The count in a descriptor keeps 16 bits. -/
theorem mkfsInit_freeCount (h : info.Sized) (hg : g < info.createFsAuxInfo.groups) :
    (info.mkfsInit disk bg lgBcnt).freeCount g = info.bgroupFree g % 2 ^ 16 := by
  rw [Fs.freeCount, mkfsInit_sb, mkfsInit_bg _ _ _ hg, BGroup.getFreeBlocksCount, h.descSize,
    if_neg (lt_irrefl _)]
  rfl

theorem mkfsInit_bitmap (hg : g < info.createFsAuxInfo.groups) : ∃ buf : Bmap,
    (info.mkfsInit disk bg lgBcnt).bitmap g =
      initialBlockBitmap info.fillSb (info.bgroup g) g buf := by
  refine ⟨(info.mkfsInit disk bg lgBcnt).blk (info.bgroup g).blockBitmap, ?_⟩
  have huninit : (info.bgroup g).blockUninit = true := rfl
  simp only [Fs.bitmap, mkfsInit_sb, mkfsInit_bg _ _ _ hg, huninit, if_true]

end Init

end MkfsInfo

end Lwext4
