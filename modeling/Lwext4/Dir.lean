/-
  Directory blocks (`ext4_dir.c`): the fields of an entry, writing an entry,
  and the three operations on one block.

  A block is a memory, an entry is named by its offset in it.  The loops walk
  from entry to entry by their record lengths and do not end on a record
  length of 0; they run on fuel, and `none` says that they are still running
  when it is spent.
-/
import Lwext4.Basic
import Lwext4.Lib.Bytes

namespace Lwext4

open Lib

/-- What the directory code reads of the superblock. -/
structure DirSb where
  blockSize : ℕ
  /-- `rev_level == 0` and `minor_rev_level < 5`: names have 16-bit lengths
      and entries no type. -/
  oldRev : Bool
  /-- `EXT4_FRO_COM_METADATA_CSUM`. -/
  metadataCsum : Bool

/-- An inode an entry is made for: its number and the type bits of its mode. -/
structure Child where
  index : ℕ
  mode : ℕ

/-- The value stored in a `uint16_t`. -/
def u16 (n : ℕ) : ℕ := n % 2 ^ 16

/-- `EXT4_DIRENTRY_DIR_CSUM`. -/
def ext4DirentryDirCsum : ℕ := 0xde

/-- `sizeof(struct ext4_fake_dir_entry)`. -/
def fakeDirEntrySize : ℕ := 8

/-- `sizeof(struct ext4_dir_entry_tail)`. -/
def dirEntryTailSize : ℕ := 12

/-! ## Fields of an entry -/

def dirEnGetInode (b : Mem) (en : ℕ) : ℕ := getLE b en 4

def dirEnSetInode (b : Mem) (en inode : ℕ) : Mem := putLE b en 4 inode

def dirEnGetEntryLen (b : Mem) (en : ℕ) : ℕ := getLE b (en + 4) 2

def dirEnSetEntryLen (b : Mem) (en len : ℕ) : Mem := putLE b (en + 4) 2 len

def dirEnGetNameLen (sb : DirSb) (b : Mem) (en : ℕ) : ℕ :=
  if sb.oldRev then getLE b (en + 6) 1 + getLE b (en + 7) 1 * 2 ^ 8 else getLE b (en + 6) 1

def dirEnSetNameLen (sb : DirSb) (b : Mem) (en len : ℕ) : Mem :=
  let b := putLE b (en + 6) 1 len
  if sb.oldRev then putLE b (en + 7) 1 (len / 2 ^ 8) else b

def dirEnGetInodeType (sb : DirSb) (b : Mem) (en : ℕ) : ℕ :=
  if sb.oldRev then 0 else getLE b (en + 7) 1

def dirEnSetInodeType (sb : DirSb) (b : Mem) (en type : ℕ) : Mem :=
  if sb.oldRev then b else putLE b (en + 7) 1 type

/-- The `len` bytes of the name. -/
def dirEnName (b : Mem) (en len : ℕ) : List Byte := b.read (en + 8) len

/-- The type of an entry for an inode of the given mode. -/
def dirEnTypeOf (mode : ℕ) : ℕ :=
  if mode = 0x4000 then 2 else if mode = 0x8000 then 1 else if mode = 0xa000 then 7
  else if mode = 0x2000 then 3 else if mode = 0x6000 then 4 else if mode = 0x1000 then 5
  else if mode = 0xc000 then 6 else 0

/-- The stores of `ext4_dir_write_entry`. -/
def dirEnWrite (sb : DirSb) (b : Mem) (en entryLen : ℕ) (child : Child) (name : List Byte) : Mem :=
  let b := dirEnSetInodeType sb b en (dirEnTypeOf child.mode)
  let b := dirEnSetInode b en child.index
  let b := dirEnSetEntryLen b en entryLen
  let b := dirEnSetNameLen sb b en (u16 name.length)
  b.write (en + 8) name

/-- `ext4_dir_write_entry`. -/
def ext4DirWriteEntry (sb : DirSb) (b : Mem) (en entryLen : ℕ) (child : Child) (name : List Byte) :
    Except Stop Mem :=
  if sb.blockSize < entryLen then .error .assert else .ok (dirEnWrite sb b en entryLen child name)

/-! ## The checksum tail -/

/-- `ext4_dir_get_tail` finds a tail. -/
def ext4DirGetTail (sb : DirSb) (b : Mem) : Bool :=
  let t := sb.blockSize - dirEntryTailSize
  getLE b t 4 == 0 && getLE b (t + 6) 1 == 0 && getLE b (t + 4) 2 == dirEntryTailSize &&
    getLE b (t + 7) 1 == ext4DirentryDirCsum

/-- `ext4_dir_set_csum`, where `csum` is `ext4_dir_csum`. -/
def ext4DirSetCsum (sb : DirSb) (csum : Mem → ℕ) (b : Mem) : Mem :=
  if sb.metadataCsum && ext4DirGetTail sb b then putLE b (sb.blockSize - 4) 4 (csum b) else b

/-! ## Operations on a block -/

/-- The length of an entry for a name, in steps of 4 bytes. -/
def dirRequiredLen (nameLen : ℕ) : ℕ :=
  let requiredLen := u16 (fakeDirEntrySize + nameLen)
  if requiredLen % 4 ≠ 0 then u16 (requiredLen + (4 - requiredLen % 4)) else requiredLen

/-- What an entry with a name of length `usedLen` needs of its record. -/
def dirUsedSize (usedLen : ℕ) : ℕ :=
  let sz := u16 (fakeDirEntrySize + usedLen)
  if usedLen % 4 ≠ 0 then u16 (sz + (4 - usedLen % 4)) else sz

section Ops

variable (sb : DirSb) (csum : Mem → ℕ)

/-- The loop of `ext4_dir_try_insert_entry` from the entry at `start` on. -/
def dirTryInsertLoop (b : Mem) (child : Child) (name : List Byte) :
    (fuel start : ℕ) → Option (Except Stop Mem)
  | 0, _ => none
  | fuel + 1, start =>
    if sb.blockSize ≤ start then some (.error (.rc Errno.ENOSPC))
    else
      let inode := dirEnGetInode b start
      let recLen := dirEnGetEntryLen b start
      let itype := dirEnGetInodeType sb b start
      let requiredLen := dirRequiredLen name.length
      if inode = 0 ∧ itype ≠ ext4DirentryDirCsum ∧ requiredLen ≤ recLen then
        some ((ext4DirWriteEntry sb b start recLen child name).map (ext4DirSetCsum sb csum))
      else
        let sz := dirUsedSize (dirEnGetNameLen sb b start)
        let freeSpace := u16 (recLen + (2 ^ 16 - sz))
        if inode ≠ 0 ∧ requiredLen ≤ freeSpace then
          some ((ext4DirWriteEntry sb (dirEnSetEntryLen b start sz) (start + sz) freeSpace child
            name).map (ext4DirSetCsum sb csum))
        else dirTryInsertLoop b child name fuel (start + recLen)

/-- `ext4_dir_try_insert_entry`. -/
def ext4DirTryInsertEntry (b : Mem) (child : Child) (name : List Byte) : Option (Except Stop Mem) :=
  dirTryInsertLoop sb csum b child name (sb.blockSize + 1) 0

/-- The loop of `ext4_dir_find_in_block` from the entry at `de` on. -/
def dirFindLoop (b : Mem) (name : List Byte) : (fuel de : ℕ) → Option (Except Stop ℕ)
  | 0, _ => none
  | fuel + 1, de =>
    if sb.blockSize ≤ de then some (.error (.rc Errno.ENOENT))
    else if sb.blockSize < de + name.length then some (.error (.rc Errno.ENOENT))
    else if dirEnGetInode b de ≠ 0 ∧ dirEnGetNameLen sb b de = name.length ∧
        dirEnName b de name.length = name then some (.ok de)
    else if dirEnGetEntryLen b de = 0 then some (.error (.rc Errno.EINVAL))
    else dirFindLoop b name fuel (de + dirEnGetEntryLen b de)

/-- `ext4_dir_find_in_block`: the offset of the entry. -/
def ext4DirFindInBlock (b : Mem) (name : List Byte) : Option (Except Stop ℕ) :=
  dirFindLoop sb b name (sb.blockSize + 1) 0

/-- The search for the direct predecessor of the entry at `pos`. -/
def dirPredLoop (b : Mem) (pos : ℕ) : (fuel offset : ℕ) → Option ℕ
  | 0, _ => none
  | fuel + 1, offset =>
    if offset + dirEnGetEntryLen b offset < pos then
      dirPredLoop b pos fuel (offset + dirEnGetEntryLen b offset)
    else some offset

/-- The part of `ext4_dir_remove_entry` behind the search: the entry at `pos`
    is cleared and merged with its predecessor. -/
def dirRemoveAt (b : Mem) (pos : ℕ) : Option (Except Stop Mem) :=
  let b := dirEnSetInode b pos 0
  if pos ≠ 0 then
    match dirPredLoop b pos (pos + 1) 0 with
    | none => none
    | some offset =>
      let deLen := dirEnGetEntryLen b offset
      if deLen + offset ≠ pos then some (.error .assert)
      else
        some (.ok (ext4DirSetCsum sb csum
          (dirEnSetEntryLen b offset (deLen + dirEnGetEntryLen b pos))))
  else some (.ok (ext4DirSetCsum sb csum b))

/-- `ext4_dir_remove_entry` on the block that holds the entry. -/
def ext4DirRemoveEntry (b : Mem) (name : List Byte) : Option (Except Stop Mem) :=
  match ext4DirFindInBlock sb b name with
  | none => none
  | some (.error e) => some (.error e)
  | some (.ok pos) => dirRemoveAt sb csum b pos

end Ops

end Lwext4
