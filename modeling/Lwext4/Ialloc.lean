/-
  `ext4_ialloc.c`: allocating and freeing inodes.

  The inode counters of the group descriptors are kept beside the rest of
  them.  Each is stored in two halves of 16 bits, the upper one only in
  descriptors of more than 32 bytes.
-/
import Lwext4.BlockGroup

namespace Lwext4

open Lib

/-- A counter of a group descriptor. -/
structure SplitCount where
  lo : BitVec 16
  hi : BitVec 16
  deriving DecidableEq

namespace SplitCount

/-- The value that is read. -/
@[irreducible] def get (c : SplitCount) (s : SBlock) : ℕ :=
  if 32 < s.getDescSize then c.lo.toNat + c.hi.toNat * 2 ^ 16 else c.lo.toNat

/-- The counter after `cnt` has been stored. -/
@[irreducible] def set (c : SplitCount) (s : SBlock) (cnt : ℕ) : SplitCount where
  lo := BitVec.ofNat 16 cnt
  hi := if 32 < s.getDescSize then BitVec.ofNat 16 (cnt / 2 ^ 16) else c.hi

end SplitCount

/-- A count can be stored. -/
def SBlock.Fits (s : SBlock) (cnt : ℕ) : Prop := cnt < 2 ^ 16 ∨ 32 < s.getDescSize ∧ cnt < 2 ^ 32

/-- The inode counters of a group descriptor. -/
structure IGroup where
  freeInodesCount : SplitCount
  usedDirsCount : SplitCount
  itableUnused : SplitCount

namespace IGroup

/-- `ext4_bg_get_free_inodes_count`. -/
def getFreeInodesCount (bg : IGroup) (s : SBlock) : ℕ := bg.freeInodesCount.get s

/-- `ext4_bg_set_free_inodes_count`. -/
def setFreeInodesCount (bg : IGroup) (s : SBlock) (cnt : ℕ) : IGroup :=
  { bg with freeInodesCount := bg.freeInodesCount.set s cnt }

/-- `ext4_bg_get_used_dirs_count`. -/
def getUsedDirsCount (bg : IGroup) (s : SBlock) : ℕ := bg.usedDirsCount.get s

/-- `ext4_bg_set_used_dirs_count`. -/
def setUsedDirsCount (bg : IGroup) (s : SBlock) (cnt : ℕ) : IGroup :=
  { bg with usedDirsCount := bg.usedDirsCount.set s cnt }

/-- `ext4_bg_get_itable_unused`. -/
def getItableUnused (bg : IGroup) (s : SBlock) : ℕ := bg.itableUnused.get s

/-- `ext4_bg_set_itable_unused`. -/
def setItableUnused (bg : IGroup) (s : SBlock) (cnt : ℕ) : IGroup :=
  { bg with itableUnused := bg.itableUnused.set s cnt }

end IGroup

namespace SBlock
variable (s : SBlock)

/-- `ext4_ialloc_inode_to_bgidx`. -/
def iallocInodeToBgidx (inode : ℕ) : ℕ := sub32 inode 1 % s.inodesPerGroup

/-- `ext4_ialloc_bgidx_to_inode`. -/
def iallocBgidxToInode (index bgid : ℕ) : ℕ := u32 (bgid * s.inodesPerGroup + (index + 1))

/-- `ext4_ialloc_get_bgid_of_inode`. -/
def iallocGetBgidOfInode (inode : ℕ) : ℕ := sub32 inode 1 / s.inodesPerGroup

end SBlock

/-- The state the inode allocator works on. -/
structure IFs extends Fs where
  ibg : ℕ → IGroup
  freeInodesCount : ℕ
  lastInodeBgId : ℕ

/-- Calls on a file system with its inode counters. -/
abbrev IFsM := Prog Stop IFs

/-- A call that does not touch the inode counters. -/
def onFs {α : Type} (x : FsM α) : IFsM α := fun fs => ((x fs.toFs).1, { fs with toFs := (x fs.toFs).2 })

namespace IFs

/-- Replace the content of a block. -/
def setBlock (fs : IFs) (addr : ℕ) (b : Bmap) : IFs := { fs with toFs := fs.toFs.setBlk addr b }

/-- Change the inode counters of group `g`. -/
def setIbg (fs : IFs) (g : ℕ) (f : IGroup → IGroup) : IFs :=
  { fs with ibg := Function.update fs.ibg g (f (fs.ibg g)) }

end IFs

/-! ## `ext4_ialloc_free_inode` -/

/-- The counters of a group that loses an inode. -/
def releaseInode (s : SBlock) (isDir : Bool) (bg : IGroup) : IGroup :=
  let bg := if isDir then bg.setUsedDirsCount s (sub32 (bg.getUsedDirsCount s) 1) else bg
  bg.setFreeInodesCount s (u32 (bg.getFreeInodesCount s + 1))

/-- `ext4_ialloc_free_inode`. -/
def iallocFreeInode (index : ℕ) (isDir : Bool) : IFsM Unit := do
  let fs ← Prog.get
  let blockGroup := fs.sb.iallocGetBgidOfInode index
  onFs (fsGetBlockGroupRef blockGroup)
  let fs ← Prog.get
  let addr := (fs.bg blockGroup).inodeBitmap
  let b ← onFs (transBlockGet addr)
  let indexInGroup := fs.sb.iallocInodeToBgidx index
  Prog.modify fun fs => fs.setBlock addr (bmapBitClr b indexInGroup)
  Prog.modify fun fs => fs.setIbg blockGroup (releaseInode fs.sb isDir)
  Prog.modify fun fs => { fs with freeInodesCount := u32 (fs.freeInodesCount + 1) }

/-! ## `ext4_ialloc_alloc_inode` -/

/-- The counters of a group that gets the inode with index `idx`. -/
def takeInode (s : SBlock) (inodesInBg idx : ℕ) (isDir : Bool) (bg : IGroup) : IGroup :=
  let usedDirs := bg.getUsedDirsCount s
  let bg := bg.setFreeInodesCount s (sub32 (bg.getFreeInodesCount s) 1)
  let bg := if isDir then bg.setUsedDirsCount s (u32 (usedDirs + 1)) else bg
  let unused := bg.getItableUnused s
  let free := sub32 inodesInBg unused
  if free ≤ idx then bg.setItableUnused s (sub32 inodesInBg (u32 (idx + 1))) else bg

/-- What the loop makes of one group. -/
inductive Tried where
  | found (ino : ℕ)
  | again
  | next

/-- The body of the loop.  A group that counts free inodes but has none is
    tried again (`continue` without `++bgid`). -/
def allocInodeInGroup (sbFreeInodes bgid : ℕ) (isDir : Bool) : IFsM Tried := do
  onFs (fsGetBlockGroupRef bgid)
  let fs ← Prog.get
  if (fs.ibg bgid).getFreeInodesCount fs.sb = 0 then pure .next
  else
    let addr := (fs.bg bgid).inodeBitmap
    let b ← onFs (transBlockGet addr)
    let inodesInBg := fs.sb.inodesInGroupCnt bgid
    match bmapBitFindClr b 0 inodesInBg with
    | none => pure .again
    | some idxInBg =>
      Prog.modify fun fs => fs.setBlock addr (bmapBitSet b idxInBg)
      Prog.modify fun fs => fs.setIbg bgid (takeInode fs.sb inodesInBg idxInBg isDir)
      Prog.modify fun fs =>
        { fs with freeInodesCount := sub32 sbFreeInodes 1, lastInodeBgId := bgid }
      pure (.found (fs.sb.iallocBgidxToInode idxInBg bgid))

/-- The loop of `ext4_ialloc_alloc_inode`; `Stop.assert` if it does not end. -/
def allocInodeLoop (lastBgId sbFreeInodes : ℕ) (isDir : Bool) :
    (fuel bgid bgCount : ℕ) → (rewind : Bool) → IFsM ℕ
  | 0, _, _, _ => Prog.fail .assert
  | fuel + 1, bgid, bgCount, rewind =>
    if bgCount < bgid then Prog.fail (.rc .ENOSPC)
    else if bgid = bgCount then
      if rewind then Prog.fail (.rc .ENOSPC)
      else allocInodeLoop lastBgId sbFreeInodes isDir fuel 0 lastBgId true
    else do
      match ← allocInodeInGroup sbFreeInodes bgid isDir with
      | .found ino => pure ino
      | .again => allocInodeLoop lastBgId sbFreeInodes isDir fuel bgid bgCount rewind
      | .next => allocInodeLoop lastBgId sbFreeInodes isDir fuel (bgid + 1) bgCount rewind

/-- `ext4_ialloc_alloc_inode`. -/
def iallocAllocInode (isDir : Bool) : IFsM ℕ := do
  let fs ← Prog.get
  let bgCount := fs.sb.blockGroupCnt
  allocInodeLoop fs.lastInodeBgId fs.freeInodesCount isDir (bgCount + 2) fs.lastInodeBgId bgCount false

end Lwext4
