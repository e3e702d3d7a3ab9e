/-
  Reading a directory (`ext4_dir.c` and `ext4.c`): the iterator that walks from
  entry to entry, and the call that returns one entry after the other.

  A directory is read through the map from its blocks to blocks of the device
  and through the blocks themselves; every block can be read.  The iterator
  keeps the block it stands in and is made anew for each call, from the offset
  that the handle keeps.
-/
import Lwext4.Dir

namespace Lwext4

open Lib

/-- What the iterator reads of a directory: the size of its inode, the map of
    its blocks (`ext4_fs_get_inode_dblk_idx`), and the blocks of the device. -/
structure DirFile where
  sb : DirSb
  size : ℕ
  fblock : ℕ → ℕ
  disk : ℕ → Mem

/-- `struct ext4_dir_iter`: `lbId` is the block held, 0 for none. -/
structure DirIter where
  /-- Where the entry lies in the block held. -/
  curr : Option ℕ
  currOff : ℕ
  lbId : ℕ

/-- `ext4_direntry`. -/
structure Direntry where
  inode : ℕ
  entryLength : ℕ
  nameLength : ℕ
  inodeType : ℕ
  name : List Byte

/-- `ext4_dir`. -/
structure ExtDir where
  nextOff : ℕ

/-- `EXT4_DIR_ENTRY_OFFSET_TERM`. -/
def dirEntryOffsetTerm : ℕ := 2 ^ 64 - 1

/-- The size of the name in `ext4_direntry`. -/
def direntryNameSize : ℕ := 255

namespace DirFile

variable (d : DirFile)

/-- `ext4_dir_iterator_set`. -/
def iteratorSet (it : DirIter) : Except Stop Unit × DirIter :=
  let offInBlock := it.currOff % d.sb.blockSize
  let it := { it with curr := none }
  if offInBlock % 4 ≠ 0 then (.error (.rc Errno.EIO), it)
  else if d.sb.blockSize - 8 < offInBlock then (.error (.rc Errno.EIO), it)
  else
    let length := dirEnGetEntryLen (d.disk it.lbId) offInBlock
    if d.sb.blockSize < offInBlock + length then (.error (.rc Errno.EIO), it)
    -- `length - 8` is an `int`, and may be negative
    else if length < dirEnGetNameLen d.sb (d.disk it.lbId) offInBlock + 8 then
      (.error (.rc Errno.EIO), it)
    else (.ok (), { it with curr := some offInBlock })

/-- `ext4_dir_iterator_seek`. -/
def iteratorSeek (it : DirIter) (pos : ℕ) : Except Stop Unit × DirIter :=
  if d.size ≤ pos then (.ok (), { curr := none, currOff := pos, lbId := 0 })
  else
    let currentBlkIdx := it.currOff / d.sb.blockSize
    let nextBlkIdx := u32 (pos / d.sb.blockSize)
    let lbId := if it.lbId = 0 ∨ currentBlkIdx ≠ nextBlkIdx then d.fblock nextBlkIdx else it.lbId
    d.iteratorSet { curr := none, currOff := pos, lbId := lbId }

/-- `ext4_dir_iterator_init`. -/
def iteratorInit (pos : ℕ) : Except Stop Unit × DirIter :=
  d.iteratorSeek { curr := none, currOff := 0, lbId := 0 } pos

/-- `ext4_dir_iterator_next`; it reads through `curr`, which must not be
    `NULL`.  `none` says that the loop is still running. -/
def iteratorNext : (fuel : ℕ) → DirIter → Option (Except Stop Unit × DirIter)
  | 0, _ => none
  | fuel + 1, it =>
    match it.curr with
    | none => some (.error .assert, it)
    | some en =>
      let skip := dirEnGetEntryLen (d.disk it.lbId) en
      let (r, it) := d.iteratorSeek it (u64 (it.currOff + skip))
      match it.curr with
      | none => some (r, it)
      | some en =>
        if dirEnGetInode (d.disk it.lbId) en ≠ 0 then some (r, it)
        else
          match r with
          | .error e => some (.error e, it)
          | .ok () => iteratorNext fuel it

/-- `ext4_dir_entry_next`: the entry returned, `none` for `NULL`, and the
    handle behind the call. -/
def entryNext (dir : ExtDir) : Option (Except Stop (Option Direntry × ExtDir)) :=
  if dir.nextOff = dirEntryOffsetTerm then some (.ok (none, dir))
  else
    match d.iteratorInit dir.nextOff with
    | (.error _, _) => some (.ok (none, dir))
    | (.ok (), it) =>
      match it.curr with
      -- the entry is read through the `NULL` pointer
      | none => some (.error .assert)
      | some en =>
        let b := d.disk it.lbId
        let nameLength := dirEnGetNameLen d.sb b en
        -- the name is copied over the end of the buffer
        if direntryNameSize < nameLength then some (.error .assert)
        else
          let de := { inode := dirEnGetInode b en, entryLength := dirEnGetEntryLen b en,
                      nameLength := nameLength, inodeType := dirEnGetInodeType d.sb b en,
                      name := dirEnName b en nameLength }
          match d.iteratorNext (d.size + 1) it with
          | none => none
          | some (_, it) =>
            some (.ok (some de, ⟨if it.curr.isSome then it.currOff else dirEntryOffsetTerm⟩))

end DirFile

/-- The handle of `ext4_dir_open`. -/
def ExtDir.opened : ExtDir := ⟨0⟩

/-- `ext4_dir_entry_rewind`. -/
def ExtDir.rewind (_ : ExtDir) : ExtDir := ⟨0⟩

end Lwext4
