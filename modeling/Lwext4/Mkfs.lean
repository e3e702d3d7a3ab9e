/-
  Laying out a file system (`ext4_mkfs.c`).

  `ext4MkfsInfo` fills in the settings that the caller leaves open,
  `createFsAuxInfo` derives the geometry, `fillSb` the superblock, and
  `writeBgroups` writes a descriptor for each group and clears its bitmaps.
  The result is a file system for the allocators of the other modules; its
  bitmaps are initialised lazily.  Reading and writing does not fail.
-/
import Lwext4.BlockGroup

namespace Lwext4

/-- `struct ext4_mkfs_info`, as far as the layout depends on it;
    `sparseSuper` is `EXT4_FRO_COM_SPARSE_SUPER` of `feat_ro_compat`. -/
structure MkfsInfo where
  len : ℕ
  blockSize : ℕ
  blocksPerGroup : ℕ
  inodesPerGroup : ℕ
  inodeSize : ℕ
  inodes : ℕ
  bgDescReserveBlocks : ℕ
  dscSize : ℕ
  sparseSuper : Bool

/-- `struct fs_aux_info`. -/
structure FsAuxInfo where
  firstDataBlock : ℕ
  lenBlocks : ℕ
  inodeTableBlocks : ℕ
  groups : ℕ
  bgDescBlocks : ℕ

/-- `EXT4_DIV_ROUND_UP` of `uint32_t` values. -/
def divRoundUp32 (x y : ℕ) : ℕ := u32 (x + (y - 1)) / y

/-- `EXT4_DIV_ROUND_UP` of `uint64_t` values. -/
def divRoundUp64 (x y : ℕ) : ℕ := u64 (x + (y - 1)) / y

/-- The file system types of `ext4_mkfs`. -/
inductive FsType where
  | ext2 | ext3 | ext4
  deriving DecidableEq, Repr

namespace MkfsInfo

variable (info : MkfsInfo)

/-! ## Settings -/

/-- `compute_inodes`. -/
def computeInodes : ℕ := u32 (divRoundUp64 info.len info.blockSize) / 4

/-- `compute_inodes_per_group`, without its change of `info->inodes`. -/
def computeInodesPerGroup : ℕ :=
  let blocks := u32 (divRoundUp64 info.len info.blockSize)
  let blockGroups := divRoundUp32 blocks info.blocksPerGroup
  let inodes := divRoundUp32 info.inodes blockGroups
  let perBlock := info.blockSize / info.inodeSize
  u32 (perBlock * divRoundUp32 inodes perBlock)

/-- The settings `ext4_mkfs` works with, on a device of `partSize` bytes.
    Every file system type has sparse superblocks; with another value of
    `fs_type` the features stay as they are.  `EXT4_FINCOM_64BIT` is cleared,
    so descriptors are small. -/
def ext4MkfsInfo (partSize : ℕ) (fsType : Option FsType) : MkfsInfo :=
  let len := if info.len = 0 then partSize else info.len
  let blockSize := if info.blockSize = 0 then 4096 else info.blockSize
  -- block sizes are powers of 2
  let len := len / blockSize * blockSize
  let blocksPerGroup := if info.blocksPerGroup = 0 then u32 (blockSize * 8) else info.blocksPerGroup
  let info := { info with len := len, blockSize := blockSize, blocksPerGroup := blocksPerGroup }
  let inodes := if info.inodes = 0 then info.computeInodes else info.inodes
  let inodeSize := if info.inodeSize = 0 then 256 else info.inodeSize
  let info := { info with inodes := inodes, inodeSize := inodeSize }
  { info with
    inodesPerGroup := info.computeInodesPerGroup
    sparseSuper := fsType.isSome || info.sparseSuper
    dscSize := if info.dscSize = 0 then 32 else info.dscSize
    bgDescReserveBlocks := 0 }

/-- `has_superblock`. -/
def hasSuperblock (bgid : ℕ) : Bool := !info.sparseSuper || SBlock.sparse bgid

/-! ## Geometry -/

/-- `create_fs_aux_info`. -/
def createFsAuxInfo : FsAuxInfo :=
  let firstDataBlock := if 1024 < info.blockSize then 0 else 1
  let lenBlocks := info.len / info.blockSize
  let inodeTableBlocks := divRoundUp32 (u32 (info.inodesPerGroup * info.inodeSize)) info.blockSize
  let groups := u32 (divRoundUp64 (sub64 lenBlocks firstDataBlock) info.blocksPerGroup)
  let bgDescBlocks := divRoundUp32 (u32 (groups * info.dscSize)) info.blockSize
  let lastGroupSize := u32 (lenBlocks % info.blocksPerGroup)
  let lastHeaderSize := u32 (2 + inodeTableBlocks)
  let lastHeaderSize :=
    if info.hasSuperblock (sub32 groups 1) then
      u32 (lastHeaderSize + 1 + bgDescBlocks + info.bgDescReserveBlocks) else lastHeaderSize
  if 0 < lastGroupSize ∧ lastGroupSize < lastHeaderSize then
    ⟨firstDataBlock, lenBlocks - lastGroupSize, inodeTableBlocks, sub32 groups 1, bgDescBlocks⟩
  else ⟨firstDataBlock, lenBlocks, inodeTableBlocks, groups, bgDescBlocks⟩

/-- `fill_sb`. -/
def fillSb : SBlock where
  blocksCount := info.createFsAuxInfo.lenBlocks
  firstDataBlock := info.createFsAuxInfo.firstDataBlock
  blocksPerGroup := info.blocksPerGroup
  inodesPerGroup := info.inodesPerGroup
  inodesCount := u32 (info.inodesPerGroup * info.createFsAuxInfo.groups)
  logBlockSize := Nat.log2 (info.blockSize / 1024)
  inodeSize := info.inodeSize
  descSize := info.dscSize
  reservedGdtBlocks := info.bgDescReserveBlocks % 2 ^ 16
  firstMetaBg := 0
  sparseSuper := info.sparseSuper
  hugeFile := false
  flexBg := false
  metaBg := false

/-! ## Groups -/

/-- An address in a descriptor: without the high half it has 32 bits. -/
def bgAddr (s : SBlock) (blk : ℕ) : ℕ := if 32 < s.getDescSize then blk else u32 blk

/-- Where `write_bgroups` puts the block bitmap of group `i`; the inode bitmap
    and the inode table follow. -/
def bgroupBitmap (i : ℕ) : ℕ :=
  let aux := info.createFsAuxInfo
  let bgStartBlock :=
    u32 (aux.firstDataBlock + aux.firstDataBlock + u32 (i * info.blocksPerGroup))
  if info.hasSuperblock i then
    bgStartBlock + 1 + u32 (aux.bgDescBlocks + info.bgDescReserveBlocks) + 1
  else bgStartBlock + aux.bgDescBlocks + 1

/-- The free block count that `write_bgroups` computes for group `i`. -/
def bgroupFree (i : ℕ) : ℕ :=
  let aux := info.createFsAuxInfo
  let bgFreeBlk := sub32 (sub32 info.blocksPerGroup aux.inodeTableBlocks) 2
  let bgFreeBlk := if i = sub32 aux.groups 1 then sub32 bgFreeBlk aux.firstDataBlock else bgFreeBlk
  if info.hasSuperblock i then
    sub32 (sub32 bgFreeBlk (u32 (info.bgDescReserveBlocks + 1))) aux.bgDescBlocks
  else bgFreeBlk

/-- The descriptor that `write_bgroups` writes for group `i`. -/
def bgroup (i : ℕ) : BGroup :=
  BGroup.setFreeBlocksCount
    { blockBitmap := bgAddr info.fillSb (info.bgroupBitmap i)
      inodeBitmap := bgAddr info.fillSb (info.bgroupBitmap i + 1)
      inodeTable := bgAddr info.fillSb (info.bgroupBitmap i + 2)
      freeBlocksCountLo := 0
      freeBlocksCountHi := 0
      blockUninit := true
      inodeUninit := true
      itableZeroed := false } info.fillSb (info.bgroupFree i)

/-- `write_bgroups` after `n` groups: the file system and `sb_free_blk`. -/
def writeBgroups (fs : Fs) : ℕ → Fs × ℕ
  | 0 => (fs, 0)
  | i + 1 =>
    let (fs, sbFreeBlk) := writeBgroups fs i
    let addr := info.bgroupBitmap i
    let fs := fs.setBg i fun _ => info.bgroup i
    let fs := fs.setBlk addr (memset (fs.blk addr) 0 0#8 info.blockSize)
    let fs := fs.setBlk (addr + 1) (memset (fs.blk (addr + 1)) 0 0#8 info.blockSize)
    (fs, u64 (sbFreeBlk + info.bgroupFree i))

/-- `mkfs_init` on a device with blocks `disk`; `bg` is what the descriptor
    blocks held before. -/
def mkfsInit (disk : ℕ → Bmap) (bg : ℕ → BGroup) (lgBcnt : ℕ) : Fs :=
  let fs : Fs :=
    { sb := info.fillSb, freeBlocksCount := info.createFsAuxInfo.lenBlocks, bg := bg, blk := disk,
      inode := ⟨0, 0, false⟩, lgBcnt := lgBcnt, faults := [] }
  let (fs, sbFreeBlk) := info.writeBgroups fs info.createFsAuxInfo.groups
  { fs with freeBlocksCount := sbFreeBlk }

/-- The block to which `write_bgroup_block` writes block `blk` of the
    descriptors in group `j`. -/
def bgroupBlock (j blk : ℕ) : ℕ :=
  let bgStartBlock :=
    u32 (info.createFsAuxInfo.firstDataBlock + u32 (j * info.blocksPerGroup))
  (if info.hasSuperblock j then bgStartBlock + 1 else bgStartBlock) + blk

/-- The byte offset at which `write_sblocks` puts the superblock of group
    `i`: the primary one has a fixed place. -/
def sblockOffset (i : ℕ) : ℕ :=
  if i = 0 then 1024
  else
    u32 (info.blockSize * u32 (info.createFsAuxInfo.firstDataBlock + u32 (i * info.blocksPerGroup)))

end MkfsInfo

/-- `ext4_sb_check`, for a superblock of `fillSb`: magic number, first inode
    and checksum are right. -/
def SBlock.sbCheck (s : SBlock) : Bool :=
  s.inodesCount ≠ 0 && s.blocksCount ≠ 0 && s.blocksPerGroup ≠ 0 && s.inodesPerGroup ≠ 0 &&
    128 ≤ s.inodeSize && 32 ≤ s.getDescSize && s.getDescSize ≤ 64

end Lwext4
