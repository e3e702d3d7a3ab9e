/-
  `ext4_fwrite` (`ext4.c`) and `ext4_fs_append_inode_dblk` (`ext4_fs.c`).

  The bytes on the device are remembered by their place in the caller's buffer,
  so that "written" means: the block the file maps at that place holds this very
  byte.  The data go to the device past the block cache, but a block of an
  unwritten extent is zeroed in the cache when it is fetched, and in write-back
  mode the zeros wait there.  So the device is taken as it is once the dirty
  buffers of the cache have been written out: zeroing changes it at once, bytes
  written past a dirty buffer do not, and `ext4_block_cache_write_back` changes
  nothing.

  Errors of the operations below are logged in the state; what the call makes of
  them is `fwrite_truthful_iff` of `Lwext4.FwriteExact`.

  Device offsets and the counters of blocks do not wrap below the sizes the
  filesystem has; where the source multiplies in 32 bits, so does the model.
-/
import Lwext4.Basic

namespace Lwext4

/-- What the filesystem below `ext4_fwrite` does during one call, by logical
    block or, for writes, by the first byte of the buffer that is written:
    `ext4_trans_start`, `ext4_fs_get_inode_ref`, `ext4_fs_init_inode_dblk_idx`,
    the steps of `ext4_fs_append_inode_dblk`, the device writes,
    `ext4_block_cache_write_back` on and off, and `ext4_trans_stop`.  An inode
    can only be fetched from an open device.

    `zeroed k` is the block that `ext4_ext_zero_unwritten_range` zeroes when
    logical block `k` is fetched and its extent is unwritten: the one that the
    fetch returns, if it succeeds.  `dirty j` says that the cache holds a dirty
    buffer of the block that byte `j` of the buffer goes to, at the time it is
    written: one with zeros, in write-back mode or in a transaction, or one that
    has been there before. -/
structure FwEnv where
  start : Except Errno Unit
  getRef : Except Errno Unit
  init : ℕ → Except Errno ℕ
  goal : ℕ → Except Errno ℕ
  alloc : ℕ → ℕ → Except Errno ℕ
  setIndex : ℕ → ℕ → Except Errno Unit
  extent : ℕ → Except Errno ℕ
  write : ℕ → Except Errno Unit
  writeBackOn : Except Errno Unit
  writeBackOff : Except Errno Unit
  stop : Except Errno Unit
  isOpen : Bool
  zeroed : ℕ → Option ℕ
  dirty : ℕ → Bool
  getRef_open : getRef = .ok () → isOpen = true
  zeroed_init : ∀ k b b', init k = .ok b → zeroed k = some b' → b' = b
  zeroed_extent : ∀ k b b', extent k = .ok b → zeroed k = some b' → b' = b

/-- The file, its inode and the device during a call.  `map` holds the blocks
    the file maps as far as they have been asked for, and `dev i = some j` says
    that byte `i` of the device, with the cache written out, has been written
    last with byte `j` of the buffer. -/
structure FwState where
  fpos : ℕ
  fsize : ℕ
  inodeSize : ℕ
  map : ℕ → ℕ
  dev : ℕ → Option ℕ
  wcnt : Option ℕ
  failures : List Errno

namespace FwState

/-- An operation below has failed. -/
def fail (st : FwState) (e : Errno) : FwState := { st with failures := st.failures ++ [e] }

/-- An operation whose result is not looked at. -/
def ignore (st : FwState) : Except Errno Unit → FwState
  | .error e => st.fail e
  | .ok _ => st

def setMap (st : FwState) (k b : ℕ) : FwState := { st with map := Function.update st.map k b }

/-- `fpos += n` and `*wcnt += n`. -/
def advance (st : FwState) (n : ℕ) : FwState :=
  { st with fpos := st.fpos + n, wcnt := st.wcnt.map (· + n) }

/-- Bytes `pos, pos + 1, …` of the buffer are on the device from `off` on, but
    for those that a dirty buffer hides. -/
def writeAt (st : FwState) (dirty : ℕ → Bool) (off n pos : ℕ) : FwState :=
  { st with
    dev := fun i => if off ≤ i ∧ i < off + n ∧ dirty (pos + (i - off)) = false then
      some (pos + (i - off)) else st.dev i }

/-- `ext4_ext_zero_unwritten_range` of one block, if any. -/
def zero (st : FwState) (blockSize : ℕ) (block : Option ℕ) : FwState :=
  { st with dev := fun i => if block = some (i / blockSize) then none else st.dev i }

/-- `file->fpos > file->fsize`: the file grows to its position. -/
def grow (st : FwState) : FwState :=
  if st.fpos > st.fsize then { st with fsize := st.fpos, inodeSize := st.fpos } else st

end FwState

section Write

variable (env : FwEnv) (extents : Bool) (blockSize : ℕ)

/-- `ext4_fs_init_inode_dblk_idx`. -/
def ext4FsInitInodeDblkIdx (k : ℕ) (st : FwState) : Except Errno ℕ × FwState :=
  let st := st.zero blockSize (env.zeroed k)
  match env.init k with
  | .error e => (.error e, st.fail e)
  | .ok b => (.ok b, st.setMap k b)

/-- `ext4_fs_append_inode_dblk`: the block and its logical number. -/
def ext4FsAppendInodeDblk (st : FwState) : Except Errno (ℕ × ℕ) × FwState :=
  if extents then
    let iblock := u32 ((st.inodeSize + blockSize - 1) / blockSize)
    let st := st.zero blockSize (env.zeroed iblock)
    match env.extent iblock with
    | .error e => (.error e, st.fail e)
    | .ok b => (.ok (b, iblock), { st.setMap iblock b with inodeSize := st.inodeSize + blockSize })
  else
    let inodeSize := if st.inodeSize % blockSize ≠ 0 then
      st.inodeSize + (blockSize - st.inodeSize % blockSize) else st.inodeSize
    let newBlockIdx := u32 (inodeSize / blockSize)
    match env.goal newBlockIdx with
    | .error e => (.error e, st.fail e)
    | .ok goal =>
      match env.alloc newBlockIdx goal with
      | .error e => (.error e, st.fail e)
      | .ok physBlock =>
        match env.setIndex newBlockIdx physBlock with
        | .error e => (.error e, st.fail e)
        | .ok _ => (.ok (physBlock, newBlockIdx),
            { st.setMap newBlockIdx physBlock with inodeSize := inodeSize + blockSize })

/-- `ext4_block_writebytes` and `ext4_blocks_set_direct`. -/
def devWrite (off n pos : ℕ) (st : FwState) : Except Errno Unit × FwState :=
  match env.write pos with
  | .error e => (.error e, st.fail e)
  | .ok _ => (.ok (), st.writeAt env.dirty off n pos)

/-- The variables of the loops: `iblk_idx`, `fblk`, `fblock_start`,
    `fblock_count` and `rr`. -/
structure FwRun where
  iblk : ℕ
  fblk : ℕ
  start : ℕ
  count : ℕ
  rr : Option Errno

/-- Block `b`, logical block `i`, has been fetched. -/
def FwRun.take (r : FwRun) (i b : ℕ) : FwRun :=
  { r with iblk := i + 1, fblk := b, start := if r.start = 0 then b else r.start }

/-- The inner loop: blocks are fetched as long as they follow each other.  It
    ends with an error where the source jumps to `Finish`. -/
def fetchRun (last ifileBlocks : ℕ) : (fuel : ℕ) → FwRun → FwState →
    Option (Except Errno FwRun × FwState)
  | 0, _, _ => none
  | fuel + 1, r, st =>
    if ¬ r.iblk < last then some (.ok r, st)
    else if r.iblk < ifileBlocks then
      match ext4FsInitInodeDblkIdx env blockSize r.iblk st with
      | (.error e, st) => some (.error e, st)
      | (.ok b, st) =>
        let r := r.take r.iblk b
        if r.start + r.count ≠ b then some (.ok r, st)
        else fetchRun last ifileBlocks fuel { r with count := r.count + 1 } st
    else
      match ext4FsAppendInodeDblk env extents blockSize st with
      | (.error e, st) => some (.ok { r with rr := some e }, st)
      | (.ok (b, i), st) =>
        let r := r.take i b
        if r.start + r.count ≠ b then some (.ok r, st)
        else fetchRun last ifileBlocks fuel { r with count := r.count + 1 } st

/-- Where the outer loop leads: a jump, a failed write, or the code behind it. -/
inductive FwNext where
  | finish
  | outFsize
  | broken
  | tail (size pos iblk : ℕ)

/-- The outer loop: runs of blocks are written. -/
def writeLoop (last ifileBlocks : ℕ) : (fuel size pos : ℕ) → FwRun → FwState →
    Option (FwNext × FwState)
  | 0, _, _, _, _ => none
  | fuel + 1, size, pos, r, st =>
    if size < blockSize then some (.tail size pos r.iblk, st)
    else match fetchRun env extents blockSize last ifileBlocks (last + 1) r st with
      | none => none
      | some (.error _, st) => some (.finish, st)
      | some (.ok r, st) =>
        match devWrite env (r.start * blockSize) (r.count * blockSize) pos st with
        | (.error _, st) => some (.broken, st)
        | (.ok _, st) =>
          let n := u32 (blockSize * r.count)
          let st := st.advance n
          if r.rr ≠ none then some (.outFsize, st)
          else writeLoop last ifileBlocks fuel (size - n) (pos + n)
            { r with start := r.fblk, count := 1 } st

/-- The part of a write in front of the first whole block: what is left of
    `size`, the place in the buffer and `iblk_idx`, or a jump to `Finish`. -/
def fwHead (size : ℕ) (st : FwState) : Option (ℕ × ℕ × ℕ) × FwState :=
  let iblk := u32 (st.fpos / blockSize)
  let unalg := st.fpos % blockSize
  if unalg = 0 then (some (size, 0, iblk), st)
  else
    let len := if size > blockSize - unalg then blockSize - unalg else size
    match ext4FsInitInodeDblkIdx env blockSize iblk st with
    | (.error _, st) => (none, st)
    | (.ok fblk, st) =>
      match devWrite env (fblk * blockSize + unalg) len 0 st with
      | (.error _, st) => (none, st)
      | (.ok _, st) => (some (size - len, len, iblk + 1), st.advance len)

/-- The part behind the last whole block, and `out_fsize`. -/
def fwTail (ifileBlocks size pos iblk : ℕ) (st : FwState) : FwState :=
  if size = 0 then st.grow
  else
    let put (fblk : ℕ) (st : FwState) : FwState :=
      match devWrite env (fblk * blockSize) size pos st with
      | (.error _, st) => st
      | (.ok _, st) => (st.advance size).grow
    if iblk < ifileBlocks then
      match ext4FsInitInodeDblkIdx env blockSize iblk st with
      | (.error _, st) => st
      | (.ok fblk, st) => put fblk st
    else
      match ext4FsAppendInodeDblk env extents blockSize st with
      | (.error _, st) => st.grow
      | (.ok (fblk, _), st) => put fblk st

/-- `ext4_fs_put_inode_ref`. -/
def ext4FsPutInodeRef : Except Errno Unit := if env.isOpen then .ok () else .error Errno.EIO

/-- `Finish`: the result is that of `ext4_fs_put_inode_ref`. -/
def fwFinish (st : FwState) : Except Errno Unit × FwState :=
  match ext4FsPutInodeRef env with
  | .error e => (.error e, st.fail e)
  | .ok _ => (.ok (), st.ignore env.stop)

/-- `ext4_fwrite`, `none` if it does not return. -/
def ext4Fwrite (readOnly : Bool) (size : ℕ) (st : FwState) :
    Option (Except Errno Unit × FwState) :=
  if readOnly then some (.error Errno.EROFS, st)
  else if size = 0 then some (.ok (), st)
  else
    let st := st.ignore env.start
    let st := { st with wcnt := st.wcnt.map fun _ => 0 }
    match env.getRef with
    | .error e => some (.error e, st.fail e)
    | .ok _ =>
      let st := { st with fsize := st.inodeSize }.grow
      let last := u32 ((st.fpos + size) / blockSize)
      let ifileBlocks := u32 ((st.fsize + blockSize - 1) / blockSize)
      match fwHead env blockSize size st with
      | (none, st) => some (fwFinish env st)
      | (some (size, pos, iblk), st) =>
        match env.writeBackOn with
        | .error e => some (fwFinish env (st.fail e))
        | .ok _ =>
          match writeLoop env extents blockSize last ifileBlocks (size + 1) size pos
              ⟨iblk, 0, 0, 0, none⟩ st with
          | none => none
          | some (.finish, st) => some (fwFinish env st)
          | some (.outFsize, st) => some (fwFinish env st.grow)
          | some (.broken, st) => some (fwFinish env (st.ignore env.writeBackOff))
          | some (.tail size pos iblk, st) =>
            some (fwFinish env
              (fwTail env extents blockSize ifileBlocks size pos iblk (st.ignore env.writeBackOff)))

end Write

end Lwext4
