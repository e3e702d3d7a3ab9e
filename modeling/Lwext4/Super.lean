/-
  `ext4_super.c` and the address arithmetic of `ext4_balloc.c` and `ext4_fs.h`:
  the geometry of a file system in groups of blocks.

  A block address is converted to a group and an index in the group by
  `ballocGetBgidOfBlock` and `fsAddrToIdxBg`, and back by `fsBgIdxToAddr`.
  The blocks a group really has are counted by `groupLen`; the source's own
  count, `blocksInGroupCnt`, does not subtract `first_data_block` in the last
  group (`groupLen_le_cnt`).
-/
import Lwext4.Basic

namespace Lwext4

/-- The superblock fields read by the block allocator, in host order. -/
structure SBlock where
  blocksCount : ℕ
  firstDataBlock : ℕ
  blocksPerGroup : ℕ
  inodesPerGroup : ℕ
  inodesCount : ℕ
  logBlockSize : ℕ
  inodeSize : ℕ
  descSize : ℕ
  reservedGdtBlocks : ℕ
  firstMetaBg : ℕ
  sparseSuper : Bool
  hugeFile : Bool
  flexBg : Bool
  metaBg : Bool

namespace SBlock
variable (s : SBlock)

/-- `ext4_sb_get_block_size`. -/
def getBlockSize : ℕ := 1024 <<< s.logBlockSize

/-- `ext4_sb_get_desc_size`. -/
def getDescSize : ℕ := if s.descSize < 32 then 32 else s.descSize

/-- `ext4_block_group_cnt`. -/
def blockGroupCnt : ℕ :=
  let cnt := u32 (s.blocksCount / s.blocksPerGroup)
  if s.blocksCount % s.blocksPerGroup ≠ 0 then u32 (cnt + 1) else cnt

/-- `ext4_blocks_in_group_cnt`. -/
def blocksInGroupCnt (bgid : ℕ) : ℕ :=
  if bgid < sub32 s.blockGroupCnt 1 then s.blocksPerGroup
  else sub32 s.blocksCount (u32 (sub32 s.blockGroupCnt 1 * s.blocksPerGroup))

/-- `ext4_inodes_in_group_cnt`. -/
def inodesInGroupCnt (bgid : ℕ) : ℕ :=
  if bgid < sub32 s.blockGroupCnt 1 then s.inodesPerGroup
  else sub32 s.inodesCount (u32 (sub32 s.blockGroupCnt 1 * s.inodesPerGroup))

/-- `ext4_balloc_get_bgid_of_block`. -/
def ballocGetBgidOfBlock (baddr : ℕ) : ℕ :=
  let baddr := if s.firstDataBlock ≠ 0 ∧ baddr ≠ 0 then baddr - 1 else baddr
  u32 (baddr / s.blocksPerGroup)

/-- `ext4_balloc_get_block_of_bgid`. -/
def ballocGetBlockOfBgid (bgid : ℕ) : ℕ :=
  (if s.firstDataBlock ≠ 0 then 1 else 0) + u32 (bgid * s.blocksPerGroup)

/-- `ext4_fs_addr_to_idx_bg`. -/
def fsAddrToIdxBg (baddr : ℕ) : ℕ :=
  let baddr := if s.firstDataBlock ≠ 0 ∧ baddr ≠ 0 then baddr - 1 else baddr
  baddr % s.blocksPerGroup

/-- `ext4_fs_bg_idx_to_addr`: the arithmetic is 32 bits wide. -/
def fsBgIdxToAddr (index bgid : ℕ) : ℕ :=
  let index := if s.firstDataBlock ≠ 0 then u32 (index + 1) else index
  u32 (s.blocksPerGroup * bgid + index)

/-- `ext4_fs_first_bg_block_no`. -/
def fsFirstBgBlockNo (bgid : ℕ) : ℕ := bgid * s.blocksPerGroup + s.firstDataBlock

/-- `is_power_of`; the loop runs at most `a` times. -/
def isPowerOf (b : ℕ) : ℕ → ℕ → Bool
  | 0, _ => false
  | fuel + 1, a =>
    if a < b then false
    else if a = b then true
    else if a % b ≠ 0 then false
    else isPowerOf b fuel (a / b)

/-- `ext4_sb_sparse`. -/
def sparse (group : ℕ) : Bool :=
  if group ≤ 1 then true
  else if group % 2 = 0 then false
  else isPowerOf 7 group group || isPowerOf 5 group group || isPowerOf 3 group group

/-- `ext4_sb_is_super_in_bg`. -/
def isSuperInBg (group : ℕ) : Bool := !(s.sparseSuper && !sparse group)

/-- `ext4_bg_num_gdb_meta`. -/
def bgNumGdbMeta (group : ℕ) : ℕ :=
  let dscPerBlock := s.getBlockSize / s.getDescSize
  let first := group / dscPerBlock * dscPerBlock
  let last := first + dscPerBlock - 1
  if group = first ∨ group = first + 1 ∨ group = last then 1 else 0

/-- `ext4_bg_num_gdb_nometa`. -/
def bgNumGdbNometa (group : ℕ) : ℕ :=
  if !s.isSuperInBg group then 0
  else
    let dscPerBlock := s.getBlockSize / s.getDescSize
    if s.metaBg then s.firstMetaBg else (s.blockGroupCnt + dscPerBlock - 1) / dscPerBlock

/-- `ext4_bg_num_gdb`. -/
def bgNumGdb (group : ℕ) : ℕ :=
  let dscPerBlock := s.getBlockSize / s.getDescSize
  if !s.metaBg || group / dscPerBlock < s.firstMetaBg then s.bgNumGdbNometa group
  else s.bgNumGdbMeta group

/-- `ext4_fs_get_descriptor_block`. -/
def fsGetDescriptorBlock (bgid dscPerBlock : ℕ) : ℕ :=
  let dscId := bgid / dscPerBlock
  if !s.metaBg || dscId < s.firstMetaBg then s.firstDataBlock + dscId + 1
  else (if s.isSuperInBg bgid then 1 else 0) + s.fsFirstBgBlockNo bgid

/-! ## Geometry -/

/-- The number of blocks of group `g`. -/
def groupLen (g : ℕ) : ℕ :=
  min s.blocksPerGroup (s.blocksCount - s.firstDataBlock - g * s.blocksPerGroup)

/-- The address of block `i` of group `g`. -/
def groupAddr (g i : ℕ) : ℕ := s.firstDataBlock + g * s.blocksPerGroup + i

/-- A geometry a mounted file system can have: blocks have at most
    `EXT4_MAX_BLOCK_SIZE` bytes, a bitmap block covers a group, the free count
    of a group fits its descriptor, and block addresses fit in 32 bits. -/
structure Geometry : Prop where
  bpg_pos : 0 < s.blocksPerGroup
  size_le : s.getBlockSize ≤ 2 ^ 16
  bpg_le : s.blocksPerGroup ≤ 8 * s.getBlockSize
  bpg_fits : s.blocksPerGroup < 2 ^ 16 ∨ 32 < s.getDescSize
  first_le : s.firstDataBlock ≤ 1
  count_pos : 0 < s.blocksCount
  count_lt : s.blocksCount < 2 ^ 32

variable {s}

theorem Geometry.bpg_lt (h : s.Geometry) : s.blocksPerGroup < 2 ^ 20 := by
  have hs := h.size_le
  have hb := h.bpg_le
  omega

/-- The group count is the least number of groups that covers `blocksCount`. -/
theorem Geometry.cnt_spec (h : s.Geometry) :
    0 < s.blockGroupCnt ∧ s.blockGroupCnt < 2 ^ 32 ∧
      s.blocksCount ≤ s.blockGroupCnt * s.blocksPerGroup ∧
      (s.blockGroupCnt - 1) * s.blocksPerGroup < s.blocksCount := by
  have hc := h.count_lt
  have hpos := h.count_pos
  have hdm := Nat.div_add_mod s.blocksCount s.blocksPerGroup
  have hml := Nat.mod_lt s.blocksCount h.bpg_pos
  have hq : s.blocksCount / s.blocksPerGroup ≤ s.blocksCount := Nat.div_le_self _ _
  unfold blockGroupCnt
  generalize s.blocksCount / s.blocksPerGroup = q at *
  rw [Nat.mul_comm] at hdm
  by_cases hr : s.blocksCount % s.blocksPerGroup = 0
  · have hq0 : q ≠ 0 := by rintro rfl; omega
    obtain ⟨q, rfl⟩ := Nat.exists_eq_succ_of_ne_zero hq0
    rw [if_neg (by simpa using hr), u32_of_lt (by omega)]
    rw [Nat.succ_mul] at hdm
    refine ⟨by omega, by omega, by rw [Nat.succ_mul]; omega, ?_⟩
    rw [Nat.succ_sub_one]
    have := h.bpg_pos
    omega
  · have hq1 : q + 1 < 2 ^ 32 := by
      rcases Nat.lt_or_ge q s.blocksCount with h1 | h1
      · omega
      · have := Nat.mul_le_mul_left q h.bpg_pos
        omega
    rw [if_pos hr, u32_of_lt (by omega : q < 2 ^ 32), u32_of_lt hq1]
    refine ⟨by omega, hq1, by rw [Nat.succ_mul]; omega, ?_⟩
    rw [Nat.add_sub_cancel]
    omega

/-- A group of the table starts below the block count. -/
theorem Geometry.lt_cnt_iff (h : s.Geometry) {g : ℕ} :
    g < s.blockGroupCnt ↔ g * s.blocksPerGroup < s.blocksCount := by
  obtain ⟨h0, -, hle, hlt⟩ := h.cnt_spec
  constructor
  · intro hg
    exact Nat.lt_of_le_of_lt
      (Nat.mul_le_mul_right _ (show g ≤ s.blockGroupCnt - 1 by omega)) hlt
  · intro hg
    by_contra hn
    have := Nat.mul_le_mul_right s.blocksPerGroup (Nat.le_of_not_lt hn)
    omega

theorem Geometry.mul_lt (h : s.Geometry) {g : ℕ} (hg : g < s.blockGroupCnt) :
    g * s.blocksPerGroup < 2 ^ 32 := Nat.lt_trans (h.lt_cnt_iff.1 hg) h.count_lt

/-- The source's block count of a group: exact but for `first_data_block` in
    the last group. -/
theorem Geometry.blocksInGroupCnt_eq (h : s.Geometry) {g : ℕ} (hg : g < s.blockGroupCnt) :
    s.blocksInGroupCnt g = min s.blocksPerGroup (s.blocksCount - g * s.blocksPerGroup) := by
  obtain ⟨h0, h32, hle, hlt⟩ := h.cnt_spec
  have hb := h.bpg_lt
  have hc := h.count_lt
  have hgb := h.lt_cnt_iff.1 hg
  unfold blocksInGroupCnt
  rw [sub32_of_le h0 h32]
  split_ifs with hlast
  · have : (g + 1) * s.blocksPerGroup ≤ (s.blockGroupCnt - 1) * s.blocksPerGroup :=
      Nat.mul_le_mul_right _ (by omega)
    rw [Nat.succ_mul] at this
    omega
  · have hge : g = s.blockGroupCnt - 1 := by omega
    have hcov : s.blocksCount ≤ (g + 1) * s.blocksPerGroup := by
      rwa [hge, Nat.sub_add_cancel h0]
    rw [Nat.succ_mul] at hcov
    rw [← hge, u32_of_lt (by omega), sub32_of_le (by omega) hc]
    omega

theorem Geometry.groupLen_le_cnt (h : s.Geometry) {g : ℕ} (hg : g < s.blockGroupCnt) :
    s.groupLen g ≤ s.blocksInGroupCnt g := by
  rw [h.blocksInGroupCnt_eq hg, groupLen]
  omega

theorem Geometry.blocksInGroupCnt_le (h : s.Geometry) {g : ℕ} (hg : g < s.blockGroupCnt) :
    s.blocksInGroupCnt g ≤ s.blocksPerGroup := by
  rw [h.blocksInGroupCnt_eq hg]
  omega

/-! ## Addresses and indexes -/

theorem groupAddr_bounds {g i : ℕ} (hi : i < s.groupLen g) :
    s.firstDataBlock ≤ s.groupAddr g i ∧ s.groupAddr g i < s.blocksCount := by
  unfold groupLen at hi
  unfold groupAddr
  omega

/-- `ext4_fs_bg_idx_to_addr` gives the address of a block of the group. -/
theorem Geometry.fsBgIdxToAddr_eq (h : s.Geometry) {g i : ℕ} (hi : i < s.groupLen g) :
    s.fsBgIdxToAddr i g = s.groupAddr g i := by
  obtain ⟨-, hlt⟩ := groupAddr_bounds hi
  have hc := h.count_lt
  have hf := h.first_le
  unfold groupAddr at hlt ⊢
  unfold fsBgIdxToAddr
  rw [Nat.mul_comm s.blocksPerGroup g]
  split_ifs with h0
  · rw [u32_of_lt (by omega : i + 1 < 2 ^ 32), u32_of_lt (by omega)]
    omega
  · rw [u32_of_lt (by omega)]
    omega

/-- The address the source divides by `blocks_per_group`. -/
theorem Geometry.rel_eq (h : s.Geometry) {baddr : ℕ} (hb : s.firstDataBlock ≤ baddr) :
    (if s.firstDataBlock ≠ 0 ∧ baddr ≠ 0 then baddr - 1 else baddr) =
      baddr - s.firstDataBlock := by
  have := h.first_le
  split_ifs <;> omega

/-- The group and the index in it are quotient and remainder of the address
    relative to `first_data_block`. -/
theorem Geometry.bgid_eq (h : s.Geometry) {baddr : ℕ} (hf : s.firstDataBlock ≤ baddr)
    (hq : (baddr - s.firstDataBlock) / s.blocksPerGroup < 2 ^ 32) :
    s.ballocGetBgidOfBlock baddr = (baddr - s.firstDataBlock) / s.blocksPerGroup := by
  rw [ballocGetBgidOfBlock, h.rel_eq hf, u32_of_lt hq]

theorem Geometry.idx_eq (h : s.Geometry) {baddr : ℕ} (hf : s.firstDataBlock ≤ baddr) :
    s.fsAddrToIdxBg baddr = (baddr - s.firstDataBlock) % s.blocksPerGroup := by
  rw [fsAddrToIdxBg, h.rel_eq hf]

theorem Geometry.div_lt (h : s.Geometry) {baddr : ℕ} (hb : baddr < s.blocksCount) :
    (baddr - s.firstDataBlock) / s.blocksPerGroup < 2 ^ 32 := by
  have hc := h.count_lt
  have hdl := Nat.div_le_self (baddr - s.firstDataBlock) s.blocksPerGroup
  omega

/-- A block of group `g` is located in group `g`. -/
theorem Geometry.locate_groupAddr (h : s.Geometry) {g i : ℕ} (hi : i < s.groupLen g) :
    s.ballocGetBgidOfBlock (s.groupAddr g i) = g ∧ s.fsAddrToIdxBg (s.groupAddr g i) = i := by
  obtain ⟨hf, hb⟩ := groupAddr_bounds hi
  have hib : i < s.blocksPerGroup := by unfold groupLen at hi; omega
  have hrel : s.groupAddr g i - s.firstDataBlock = i + s.blocksPerGroup * g := by
    rw [groupAddr, Nat.mul_comm g]; omega
  rw [h.bgid_eq hf (h.div_lt hb), h.idx_eq hf, hrel, Nat.add_mul_div_left _ _ h.bpg_pos,
    Nat.add_mul_mod_self_left, Nat.div_eq_of_lt hib, Nat.mod_eq_of_lt hib]
  omega

/-- **The group and index the source computes for a block address locate it.** -/
theorem Geometry.locate (h : s.Geometry) {baddr : ℕ} (hf : s.firstDataBlock ≤ baddr)
    (hb : baddr < s.blocksCount) :
    s.ballocGetBgidOfBlock baddr < s.blockGroupCnt ∧
      s.fsAddrToIdxBg baddr < s.groupLen (s.ballocGetBgidOfBlock baddr) ∧
      s.groupAddr (s.ballocGetBgidOfBlock baddr) (s.fsAddrToIdxBg baddr) = baddr := by
  have hdm := Nat.div_add_mod (baddr - s.firstDataBlock) s.blocksPerGroup
  have hml := Nat.mod_lt (baddr - s.firstDataBlock) h.bpg_pos
  rw [h.lt_cnt_iff, h.bgid_eq hf (h.div_lt hb), h.idx_eq hf, groupLen, groupAddr]
  generalize (baddr - s.firstDataBlock) / s.blocksPerGroup = q at *
  rw [Nat.mul_comm] at hdm
  refine ⟨by omega, by omega, by omega⟩

/-- The index of the first block of a group is 0. -/
theorem Geometry.idx_blockOfBgid (h : s.Geometry) {g : ℕ} (hg : g < s.blockGroupCnt) :
    s.fsAddrToIdxBg (s.ballocGetBlockOfBgid g) = 0 := by
  rw [fsAddrToIdxBg, ballocGetBlockOfBgid, u32_of_lt (h.mul_lt hg)]
  have hm : g * s.blocksPerGroup % s.blocksPerGroup = 0 := Nat.mul_mod_left _ _
  by_cases h0 : s.firstDataBlock = 0
  · simp [h0]
  · simp [h0, Nat.add_comm 1]

end SBlock

end Lwext4
