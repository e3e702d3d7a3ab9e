/-
  `ext4_balloc.c`: allocating and freeing blocks.

  `ext4_block_set` and `ext4_fs_put_block_group_ref` only release buffers here
  (a write-back error is not reported to the caller), so the calls fail where
  a block is fetched or revoked.
-/
import Lwext4.BlockGroup

namespace Lwext4

open Lib

/-- The counters of the superblock, the inode and group `bgid`, updated at
    label `success` of `ext4_balloc_alloc_block` and in
    `ext4_balloc_try_alloc_block`. -/
def accountAlloc (bgid : ℕ) (fs : Fs) : Fs :=
  let inoBlocks := u64 (inodeGetBlocksCount fs.sb fs.inode + fs.sb.getBlockSize / 512)
  let fs := { fs with
    freeBlocksCount := sub64 fs.freeBlocksCount 1
    inode := inodeSetBlocksCount fs.sb fs.inode inoBlocks }
  fs.setBg bgid fun bg =>
    bg.setFreeBlocksCount fs.sb (sub32 (bg.getFreeBlocksCount fs.sb) 1)

/-- The counters updated when `cnt` blocks of group `bgid` are freed. -/
def accountFree (bgid cnt : ℕ) (fs : Fs) : Fs :=
  let inoBlocks := sub64 (inodeGetBlocksCount fs.sb fs.inode)
    (u32 (cnt * (fs.sb.getBlockSize / 512)))
  let fs := { fs with
    freeBlocksCount := u64 (fs.freeBlocksCount + cnt)
    inode := inodeSetBlocksCount fs.sb fs.inode inoBlocks }
  fs.setBg bgid fun bg =>
    bg.setFreeBlocksCount fs.sb (u32 (bg.getFreeBlocksCount fs.sb + cnt))

/-- Set bit `idx` of the bitmap of group `bgid` and update the counters: how
    every search of `ext4_balloc_alloc_block` that finds a block ends. -/
def allocBit (bgid idx : ℕ) : FsM ℕ := do
  let fs ← Prog.get
  let addr := (fs.bg bgid).blockBitmap
  Prog.modify fun fs => fs.setBlk addr (bmapBitSet (fs.blk addr) idx)
  Prog.modify (accountAlloc bgid)
  pure (fs.sb.fsBgIdxToAddr idx bgid)

/-- The bit the goal group offers: the goal itself, a bit of the 64-bit word
    after it, or any bit from the goal on. -/
def goalBit (s : SBlock) (b : Bmap) (bgid idxInBg : ℕ) : Option ℕ :=
  if bmapIsBitClr b idxInBg then some idxInBg
  else
    let blkInBg := s.blocksInGroupCnt bgid
    let endIdx := u32 (idxInBg + 63) / 64 * 64
    let endIdx := if blkInBg < endIdx then blkInBg else endIdx
    match findClrBits b (idxInBg + 1) (endIdx - (idxInBg + 1)) with
    | some tmpIdx => some tmpIdx
    | none => bmapBitFindClr b idxInBg blkInBg

/-- The search in the group of the goal; `none` goes on with the other
    groups. -/
def allocInGoalGroup (bgId idxInBg : ℕ) : FsM (Option ℕ) := do
  fsGetBlockGroupRef bgId
  let fs ← Prog.get
  let bg := fs.bg bgId
  if bg.getFreeBlocksCount fs.sb = 0 then pure none
  else
    let firstInBg := fs.sb.ballocGetBlockOfBgid bgId
    let firstInBgIndex := fs.sb.fsAddrToIdxBg firstInBg
    let idxInBg := if idxInBg < firstInBgIndex then firstInBgIndex else idxInBg
    let b ← transBlockGet bg.blockBitmap
    match goalBit fs.sb b bgId idxInBg with
    | some idx => some <$> allocBit bgId idx
    | none => pure none

/-- The search in one of the other groups. -/
def allocInGroup (bgid : ℕ) : FsM (Option ℕ) := do
  fsGetBlockGroupRef bgid
  let fs ← Prog.get
  let bg := fs.bg bgid
  if bg.getFreeBlocksCount fs.sb = 0 then pure none
  else
    let b ← transBlockGet bg.blockBitmap
    let firstInBg := fs.sb.ballocGetBlockOfBgid bgid
    let idxInBg := fs.sb.fsAddrToIdxBg firstInBg
    match bmapBitFindClr b idxInBg (fs.sb.blocksInGroupCnt bgid) with
    | some relBlkIdx => some <$> allocBit bgid relBlkIdx
    | none => pure none

/-- The loop of `ext4_balloc_alloc_block` over `count` groups from `bgid` on. -/
def allocOtherGroups (blockGroupCount bgid : ℕ) : ℕ → FsM ℕ
  | 0 => Prog.fail (.rc .ENOSPC)
  | count + 1 => do
    match ← allocInGroup bgid with
    | some alloc => pure alloc
    | none => allocOtherGroups blockGroupCount (u32 (bgid + 1) % blockGroupCount) count

/-- `ext4_balloc_alloc_block`. -/
def ballocAllocBlock (goal : ℕ) : FsM ℕ := do
  let fs ← Prog.get
  let bgId := fs.sb.ballocGetBgidOfBlock goal
  match ← allocInGoalGroup bgId (fs.sb.fsAddrToIdxBg goal) with
  | some alloc => pure alloc
  | none =>
    let blockGroupCount := fs.sb.blockGroupCnt
    allocOtherGroups blockGroupCount (u32 (bgId + 1) % blockGroupCount) blockGroupCount

/-- `ext4_balloc_try_alloc_block`: whether the block was free, and is now
    allocated. -/
def ballocTryAllocBlock (baddr : ℕ) : FsM Bool := do
  let fs ← Prog.get
  let blockGroup := fs.sb.ballocGetBgidOfBlock baddr
  let indexInGroup := fs.sb.fsAddrToIdxBg baddr
  fsGetBlockGroupRef blockGroup
  let fs ← Prog.get
  let b ← transBlockGet (fs.bg blockGroup).blockBitmap
  if bmapIsBitClr b indexInGroup then
    let _ ← allocBit blockGroup indexInGroup
    pure true
  else pure false

/-- Clear `cnt` bits of group `bgid` with `clear` and update the counters: the
    steps `ext4_balloc_free_block` and `ext4_balloc_free_blocks` share. -/
def freeBits (bgid : ℕ) (clear : Bmap → Bmap) (cnt : ℕ) : FsM Unit := do
  fsGetBlockGroupRef bgid
  let fs ← Prog.get
  let addr := (fs.bg bgid).blockBitmap
  let b ← transBlockGet addr
  Prog.modify fun fs => fs.setBlk addr (clear b)
  Prog.modify (accountFree bgid cnt)

/-- The revoke of `ext4_balloc_free_block`.  If it fails, the reference to group
    `bgId` is put back as one that is not dirty, so that the descriptor stays
    what it was before the call, `bg`. -/
def revokeFreed (bgId : ℕ) (bg : BGroup) (baddr : ℕ) : FsM Unit := fun fs =>
  match transTryRevokeBlock baddr fs with
  | (.ok (), fs) => (.ok (), fs)
  | (.error e, fs) => (.error e, fs.setBg bgId fun _ => bg)

/-- `ext4_balloc_free_block`. -/
def ballocFreeBlock (baddr : ℕ) : FsM Unit := do
  let fs ← Prog.get
  let bgId := fs.sb.ballocGetBgidOfBlock baddr
  let indexInGroup := fs.sb.fsAddrToIdxBg baddr
  freeBits bgId (bmapBitClr · indexInGroup) 1
  revokeFreed bgId (fs.bg bgId) baddr

/-- The loop of `ext4_balloc_free_blocks` over `n` groups from `bgFirst` on;
    returns the blocks it has not freed.  A group is taken to hold
    `8 * block_size` blocks. -/
def freeGroups (bgFirst first count : ℕ) : ℕ → FsM ℕ
  | 0 => pure count
  | n + 1 => do
    let fs ← Prog.get
    let idxInBgFirst := fs.sb.fsAddrToIdxBg first
    let freeCnt := sub32 (fs.sb.getBlockSize * 8) idxInBgFirst
    let freeCnt := if freeCnt < count then freeCnt else count
    freeBits bgFirst (bmapBitsFree · idxInBgFirst freeCnt) freeCnt
    freeGroups (bgFirst + 1) (first + freeCnt) (count - freeCnt) n

/-- The loop that revokes `n` blocks from `lba` on. -/
def revokeBlocks (lba : ℕ) : ℕ → FsM Unit
  | 0 => pure ()
  | n + 1 => do
    transTryRevokeBlock lba
    revokeBlocks (lba + 1) n

/-- `ext4_balloc_free_blocks`. -/
def ballocFreeBlocks (first count : ℕ) : FsM Unit := do
  let fs ← Prog.get
  let bgFirst := fs.sb.ballocGetBgidOfBlock first
  let bgLast := fs.sb.ballocGetBgidOfBlock (sub64 (u64 (first + count)) 1)
  let rest ← freeGroups bgFirst first count (bgLast + 1 - bgFirst)
  revokeBlocks first count
  if rest = 0 then pure () else Prog.fail .assert

/-! ## Goals of the extent code -/

/-- `ext4_ext_find_goal` with a path: from the extent `(first_block, pblk)` at
    the end of the path if there is one, from the block `leaf` of the deepest
    node if it has a block of its own (0 otherwise), else the goal
    `inodeGoal` of `ext4_fs_inode_to_goal_block`. -/
def extFindGoal (extent : Option (ℕ × ℕ)) (leaf inodeGoal block : ℕ) : ℕ :=
  match extent with
  | some (extBlock, extPblk) =>
    if extBlock < block then u64 (extPblk + (block - extBlock))
    else sub64 extPblk (extBlock - block)
  | none => if leaf ≠ 0 then leaf else inodeGoal

end Lwext4
