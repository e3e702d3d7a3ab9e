/-
  Block group descriptors and the lazy initialisation of bitmaps
  (`ext4_block_group.h` and the group part of `ext4_fs.c`), and the inode block
  counter of `ext4_inode.c`.

  The file system is seen through the buffer cache: `blk` is the content of
  each block and `bg` the descriptors found in the descriptor table, also past
  its end, where they are whatever bytes lie there.  Reading a block and revoking
  one may fail: `faults` and `revokes` tell for the next reads and the next
  revokes whether they do.  Checksums are computed
  and compared by the source but a mismatch is only logged, so they are left
  out.
-/
import Lwext4.Bitmap
import Lwext4.Super
import Lwext4.Lib.Prog

namespace Lwext4

open Lib

/-- A group descriptor. -/
structure BGroup where
  blockBitmap : ℕ
  inodeBitmap : ℕ
  inodeTable : ℕ
  freeBlocksCountLo : ℕ
  freeBlocksCountHi : ℕ
  blockUninit : Bool
  inodeUninit : Bool
  itableZeroed : Bool

/-- `ext4_bg_get_free_blocks_count`. -/
def BGroup.getFreeBlocksCount (bg : BGroup) (s : SBlock) : ℕ :=
  if 32 < s.getDescSize then bg.freeBlocksCountLo + bg.freeBlocksCountHi * 2 ^ 16
  else bg.freeBlocksCountLo

/-- `ext4_bg_set_free_blocks_count`. -/
def BGroup.setFreeBlocksCount (bg : BGroup) (s : SBlock) (cnt : ℕ) : BGroup :=
  { bg with
    freeBlocksCountLo := cnt % 2 ^ 16
    freeBlocksCountHi := if 32 < s.getDescSize then cnt / 2 ^ 16 % 2 ^ 16 else bg.freeBlocksCountHi }

/-- The block counter of an inode, in units of 512 bytes, and its
    `EXT4_INODE_FLAG_HUGE_FILE`. -/
structure InodeBlocks where
  blocksCountLo : ℕ
  blocksHigh : ℕ
  hugeFile : Bool

/-- `ext4_inode_block_bits_count`; block sizes have at most 16 bits. -/
def inodeBlockBitsCount (blockSize : ℕ) : ℕ :=
  go 16 8 blockSize
where
  /-- The loop, run at least once. -/
  go : ℕ → ℕ → ℕ → ℕ
    | 0, bits, _ => bits
    | fuel + 1, bits, size => if size >>> 1 > 256 then go fuel (bits + 1) (size >>> 1) else bits + 1

/-- `ext4_inode_get_blocks_count`. -/
def inodeGetBlocksCount (s : SBlock) (inode : InodeBlocks) : ℕ :=
  if s.hugeFile then
    let cnt := inode.blocksCountLo + inode.blocksHigh * 2 ^ 32
    if inode.hugeFile then cnt <<< (inodeBlockBitsCount s.getBlockSize - 9) else cnt
  else inode.blocksCountLo

/-- `ext4_inode_set_blocks_count`; a count that does not fit leaves the inode
    as it is (the callers ignore the error). -/
def inodeSetBlocksCount (s : SBlock) (inode : InodeBlocks) (count : ℕ) : InodeBlocks :=
  if count < 2 ^ 32 then ⟨count, 0, false⟩
  else if !s.hugeFile then inode
  else if count < 2 ^ 48 then ⟨count % 2 ^ 32, count / 2 ^ 32, false⟩
  else
    let count := count >>> (inodeBlockBitsCount s.getBlockSize - 9)
    ⟨count % 2 ^ 32, count / 2 ^ 32 % 2 ^ 16, true⟩

/-- The state the allocator works on, with the inode it allocates for. -/
structure Fs where
  sb : SBlock
  freeBlocksCount : ℕ
  bg : ℕ → BGroup
  blk : ℕ → Bmap
  inode : InodeBlocks
  lgBcnt : ℕ
  faults : List Bool
  revokes : List Bool := []

/-- Calls on a file system. -/
abbrev FsM := Prog Stop Fs

namespace Fs

/-- Change descriptor `g`. -/
def setBg (fs : Fs) (g : ℕ) (f : BGroup → BGroup) : Fs :=
  { fs with bg := Function.update fs.bg g (f (fs.bg g)) }

/-- Replace the content of block `addr`. -/
def setBlk (fs : Fs) (addr : ℕ) (b : Bmap) : Fs :=
  { fs with blk := Function.update fs.blk addr b }

end Fs

/-- Consume one entry of `faults`. -/
def deviceAccess : FsM Unit := fun fs =>
  match fs.faults with
  | [] => (.ok (), fs)
  | bad :: rest => (if bad then .error (.rc Errno.EIO) else .ok (), { fs with faults := rest })

/-- `ext4_trans_block_get`. -/
def transBlockGet (addr : ℕ) : FsM Bmap := do
  let fs ← Prog.get
  if fs.lgBcnt ≤ addr then Prog.fail (.rc Errno.ENXIO)
  else
    deviceAccess
    pure (fs.blk addr)

/-- `ext4_trans_block_get_noread`. -/
def transBlockGetNoread (addr : ℕ) : FsM Unit := do
  let _ ← transBlockGet addr

/-- `ext4_trans_try_revoke_block`: without a running transaction the block is
    flushed, which may fail. -/
def transTryRevokeBlock (_lba : ℕ) : FsM Unit := fun fs =>
  match fs.revokes with
  | [] => (.ok (), fs)
  | bad :: rest => (if bad then .error (.rc Errno.EIO) else .ok (), { fs with revokes := rest })

/-! ## Lazy initialisation -/

/-- `memset` of `n` bytes from byte `from_` on. -/
def memset (bmap : Bmap) (from_ : ℕ) (v : BitVec 8) (n : ℕ) : Bmap :=
  fun j => if from_ ≤ j ∧ j < from_ + n then v else bmap j

/-- Set `n` bits from bit `i` on. -/
def setBits (bmap : Bmap) (i : ℕ) : ℕ → Bmap
  | 0 => bmap
  | n + 1 => setBits (bmapBitSet bmap i) (i + 1) n

/-- `ext4_fs_mark_bitmap_end`. -/
def fsMarkBitmapEnd (startBit endBit : ℕ) (bitmap : Bmap) : Bmap :=
  if endBit ≤ startBit then bitmap
  else
    let i := (startBit + 7) / 8 * 8
    let bitmap := setBits bitmap startBit (i - startBit)
    if i < endBit then memset bitmap (i >>> 3) 0xFF#8 ((endBit - i) >>> 3) else bitmap

/-- `ext4_block_in_group`. -/
def blockInGroup (s : SBlock) (baddr bgid : ℕ) : Bool := s.ballocGetBgidOfBlock baddr = bgid

/-- The loop of `ext4_fs_init_block_bitmap` over the inode table. -/
def markInodeTable (s : SBlock) (bgid firstBg : ℕ) (bitmap : Bmap) (i : ℕ) : ℕ → Bmap
  | 0 => bitmap
  | n + 1 =>
    let bitmap :=
      if !s.flexBg || blockInGroup s i bgid then bmapBitSet bitmap (sub32 i (u32 firstBg)) else bitmap
    markInodeTable s bgid firstBg bitmap (i + 1) n

/-- The bitmap `ext4_fs_init_block_bitmap` builds for group `bgid`, in a buffer
    with content `buf`. -/
def initialBlockBitmap (s : SBlock) (bg : BGroup) (bgid : ℕ) (buf : Bmap) : Bmap :=
  let blockSize := s.getBlockSize
  let firstBg := s.ballocGetBlockOfBgid bgid
  let dscPerBlock := blockSize / s.getDescSize
  let inodeTableBcnt := u32 (s.inodesPerGroup * s.inodeSize) / blockSize
  let bitmap := memset buf 0 0#8 blockSize
  let bitMax := if s.isSuperInBg bgid then 1 else 0
  let count := u32 (s.firstMetaBg * dscPerBlock)
  let bitMax :=
    if !s.metaBg || bgid < count then
      if bitMax ≠ 0 then bitMax + s.bgNumGdb bgid + s.reservedGdtBlocks else bitMax
    else bitMax + s.bgNumGdb bgid
  let bitmap := setBits bitmap 0 bitMax
  let groupBlocks :=
    if bgid = sub32 s.blockGroupCnt 1 then
      sub32 (sub32 s.blocksCount s.firstDataBlock)
        (u32 (s.blocksPerGroup * sub32 s.blockGroupCnt 1))
    else s.blocksPerGroup
  let bitmap :=
    if !s.flexBg || blockInGroup s bg.blockBitmap bgid then
      bmapBitSet bitmap (sub32 bg.blockBitmap (u32 firstBg)) else bitmap
  let bitmap :=
    if !s.flexBg || blockInGroup s bg.inodeBitmap bgid then
      bmapBitSet bitmap (sub32 bg.inodeBitmap (u32 firstBg)) else bitmap
  let bitmap := markInodeTable s bgid firstBg bitmap bg.inodeTable inodeTableBcnt
  fsMarkBitmapEnd groupBlocks (blockSize * 8) bitmap

/-- `ext4_fs_init_block_bitmap`. -/
def fsInitBlockBitmap (bgid : ℕ) : FsM Unit := do
  let fs ← Prog.get
  let bg := fs.bg bgid
  transBlockGetNoread bg.blockBitmap
  Prog.modify fun fs =>
    fs.setBlk bg.blockBitmap (initialBlockBitmap fs.sb bg bgid (fs.blk bg.blockBitmap))

/-- The bitmap `ext4_fs_init_inode_bitmap` builds in a buffer with content
    `buf`. -/
def initialInodeBitmap (s : SBlock) (buf : Bmap) : Bmap :=
  let startBit := s.inodesPerGroup
  let endBit := s.getBlockSize * 8
  let bitmap := memset buf 0 0#8 ((s.inodesPerGroup + 7) / 8)
  let i := (startBit + 7) / 8 * 8
  let bitmap := setBits bitmap startBit (i - startBit)
  if i < endBit then memset bitmap (i >>> 3) 0xFF#8 ((endBit - i) >>> 3) else bitmap

/-- `ext4_fs_init_inode_bitmap`. -/
def fsInitInodeBitmap (bgid : ℕ) : FsM Unit := do
  let fs ← Prog.get
  let addr := (fs.bg bgid).inodeBitmap
  transBlockGetNoread addr
  Prog.modify fun fs => fs.setBlk addr (initialInodeBitmap fs.sb (fs.blk addr))

/-- The loop of `ext4_fs_init_inode_table`: zero `n` blocks from `fblock` on. -/
def zeroBlocks (fblock : ℕ) : ℕ → FsM Unit
  | 0 => pure ()
  | n + 1 => do
    transBlockGetNoread fblock
    Prog.modify fun fs => fs.setBlk fblock (memset (fs.blk fblock) 0 0#8 fs.sb.getBlockSize)
    zeroBlocks (fblock + 1) n

/-- The number of inode table blocks of a group. -/
def itableBlocks (s : SBlock) (bgid : ℕ) : ℕ :=
  let inodesPerBlock := s.getBlockSize / s.inodeSize
  let inodesInGroup := s.inodesInGroupCnt bgid
  inodesInGroup / inodesPerBlock + if inodesInGroup % inodesPerBlock ≠ 0 then 1 else 0

/-- `ext4_fs_init_inode_table`. -/
def fsInitInodeTable (bgid : ℕ) : FsM Unit := do
  let fs ← Prog.get
  zeroBlocks (fs.bg bgid).inodeTable (itableBlocks fs.sb bgid)

/-- The inode half of `ext4_fs_get_block_group_ref`. -/
def fsGetGroupInodes (bgid : ℕ) : FsM Unit := do
  let fs ← Prog.get
  if (fs.bg bgid).inodeUninit then
    fsInitInodeBitmap bgid
    Prog.modify fun fs => fs.setBg bgid fun bg => { bg with inodeUninit := false }
    if !(fs.bg bgid).itableZeroed then
      fsInitInodeTable bgid
      Prog.modify fun fs => fs.setBg bgid fun bg => { bg with itableZeroed := true }

/-- The block half of `ext4_fs_get_block_group_ref`. -/
def fsGetGroupBlocks (bgid : ℕ) : FsM Unit := do
  let fs ← Prog.get
  if (fs.bg bgid).blockUninit then
    fsInitBlockBitmap bgid
    Prog.modify fun fs => fs.setBg bgid fun bg => { bg with blockUninit := false }

/-- `ext4_fs_get_block_group_ref`: the reference is the index of the
    descriptor. -/
def fsGetBlockGroupRef (bgid : ℕ) : FsM Unit := do
  let fs ← Prog.get
  let dscCnt := fs.sb.getBlockSize / fs.sb.getDescSize
  let _ ← transBlockGet (fs.sb.fsGetDescriptorBlock bgid dscCnt)
  fsGetGroupBlocks bgid
  fsGetGroupInodes bgid

end Lwext4
