/-
  Extended attributes (`ext4_xattr.c`): an area with attributes, the two areas
  of an inode, and the four operations.

  An area is a table of entries from its start on, one behind the other, and
  the values at its end.  The table is a list here, an entry in it is found by
  its place in the list, and the values are bytes addressed from the base of
  the area.  An operation is `none` where the source reads a variable that is
  not initialised, or a block that it has released.
-/
import Lwext4.Basic
import Lwext4.Lib.Bytes

namespace Lwext4

open Lib

namespace Xattr

/-- A name index and a name.  No index is 0: an entry without one would end
    the table. -/
structure Key where
  nameIndex : ℕ
  name : List Byte
  index_pos : 0 < nameIndex
  deriving DecidableEq

/-- `struct ext4_xattr_entry` and the name behind it. -/
structure Entry where
  key : Key
  valueOffs : ℕ
  valueSize : ℕ
  deriving DecidableEq

/-- An area of attributes.  `header` says that the magic number is right, and
    in a block also the number of blocks. -/
structure Area where
  header : Bool
  entries : List Entry
  mem : Mem

/-- Where the first entry of an area is, and where the area ends, from the base
    of the offsets; the checks count from `slack` bytes before it. -/
structure Layout where
  first : ℕ
  size : ℕ
  slack : ℕ

/-- `EXT4_XATTR_LEN`. -/
def xattrLen (nameLen : ℕ) : ℕ := (nameLen + 3 + 16) / 4 * 4

/-- `EXT4_XATTR_SIZE`. -/
def xattrSize (size : ℕ) : ℕ := (size + 3) / 4 * 4

/-! ## An area -/

/-- The offset behind a table that starts at `offs`. -/
def tableEnd (offs : ℕ) (es : List Entry) : ℕ := offs + (es.map fun e => xattrLen e.key.name.length).sum

/-- The lowest offset of a value that is not empty. -/
def minOffs (start : ℕ) (es : List Entry) : ℕ :=
  es.foldl (fun offs e => if e.valueSize ≠ 0 ∧ e.valueOffs < offs then e.valueOffs else offs) start

/-- The loop of `ext4_xattr_is_block_valid` and `ext4_xattr_is_ibody_valid`. -/
def entriesValid (L : Layout) : (offs : ℕ) → List Entry → Bool
  | _, [] => true
  | offs, e :: es =>
    if e.valueSize = 0 ∧ e.valueOffs ≠ 0 then false
    else if L.size + L.slack < e.valueOffs + e.valueSize then false
    else if L.size < offs + xattrLen e.key.name.length + 4 then false
    else entriesValid L (offs + xattrLen e.key.name.length) es

/-- `ext4_xattr_is_block_valid`, and `ext4_xattr_is_ibody_valid`, which takes
    the offsets from the header on and not from behind it. -/
def isValid (L : Layout) (a : Area) : Bool :=
  a.header && entriesValid L L.first a.entries &&
    decide (tableEnd L.first a.entries + 4 + L.slack ≤ minOffs (L.size + L.slack) a.entries)

/-- The search context: the entry that has been found, with those before and
    behind it. -/
abbrev Search := Option (List Entry × Entry × List Entry)

/-- `ext4_xattr_find_entry`. -/
def findEntry (key : Key) : List Entry → Search
  | [] => none
  | e :: es =>
    if e.key = key then some ([], e, es)
    else (findEntry key es).map fun (pre, here, post) => (e :: pre, here, post)

/-- The entry is shifted with the values below `valueOffs`. -/
def Entry.shift (valueOffs valueSize : ℕ) (e : Entry) : Entry :=
  if e.valueOffs < valueOffs then { e with valueOffs := e.valueOffs + valueSize } else e

/-- The values below that of the entry `here` are moved over it. -/
def dropValue (mem : Mem) (minOffs : ℕ) (here : Entry) : Mem :=
  if here.valueOffs ≠ 0 then
    (mem.move (minOffs + xattrSize here.valueSize) minOffs (here.valueOffs - minOffs)).fill minOffs
      (xattrSize here.valueSize) 0
  else mem

/-- Where a value goes. -/
def newOffs (minOffs valueLen : ℕ) : ℕ := if valueLen ≠ 0 then minOffs - xattrSize valueLen else 0

/-- A value is stored, and padded. -/
def putValue (mem : Mem) (valueOffs : ℕ) (value : List Byte) : Mem :=
  if valueOffs ≠ 0 then
    (mem.write valueOffs value).fill (valueOffs + value.length) (xattrSize value.length - value.length) 0
  else mem

/-- The key as an entry stores it: the length of the name is a `uint8_t`. -/
def Key.stored (key : Key) : Key := { key with name := key.name.take (key.name.length % 2 ^ 8) }

/-- The `free` of `ext4_xattr_set_entry`: the room between the table and the
    values, with that of the entry that is replaced. -/
def freeSpace (L : Layout) (a : Area) : Search → ℕ
  | none => minOffs L.size a.entries - tableEnd L.first a.entries - 4
  | some (_, here, _) => minOffs L.size a.entries - tableEnd L.first a.entries - 4 +
      xattrSize here.valueSize + xattrLen here.key.name.length

/-- `ext4_xattr_set_entry`, which removes the entry if there is no value. -/
def setEntry (L : Layout) (a : Area) (key : Key) : (value : Option (List Byte)) → Search → Except Errno Area
  | none, none => .ok a
  | some value, none =>
    let offs := minOffs L.size a.entries
    if freeSpace L a none < xattrSize value.length + xattrLen key.name.length then .error .ENOSPC
    else
      let valueOffs := newOffs offs value.length
      .ok { a with
        entries := a.entries ++ [⟨key.stored, valueOffs, value.length⟩]
        mem := putValue a.mem valueOffs value }
  | some value, some (pre, here, post) =>
    let offs := minOffs L.size a.entries
    let size := xattrSize here.valueSize
    if freeSpace L a (some (pre, here, post)) <
        xattrSize value.length + xattrLen key.name.length then .error .ENOSPC
    else
      let shift := Entry.shift here.valueOffs size
      let valueOffs := newOffs (if here.valueOffs ≠ 0 then offs + size else offs) value.length
      .ok { a with
        entries := pre.map shift ++
          { here with valueOffs := valueOffs, valueSize := value.length } :: post.map shift
        mem := putValue (dropValue a.mem offs here) valueOffs value }
  | none, some (pre, here, post) =>
    let shift := Entry.shift here.valueOffs (xattrSize here.valueSize)
    .ok { a with
      entries := pre.map shift ++ post.map shift
      mem := dropValue a.mem (minOffs L.size a.entries) here }

/-! ## The areas of an inode -/

/-- A block of attributes, which several inodes may share. -/
structure Block where
  area : Area
  refcount : ℕ

/-- What the functions read and write of an inode and the superblock.  There
    is no block where `file_acl` is 0. -/
structure Inode where
  blockSize : ℕ
  inodeSize : ℕ
  extraIsize : ℕ
  ibody : Area
  block : Option Block

namespace Inode

/-- The area in the inode, behind the header of 4 bytes. -/
def ibodyLayout (s : Inode) : Layout := ⟨0, s.inodeSize - 128 - s.extraIsize - 4, 4⟩

/-- The block, which begins with a header of 32 bytes. -/
def blockLayout (s : Inode) : Layout := ⟨32, s.blockSize, 0⟩

def ibodyValid (s : Inode) : Bool := isValid s.ibodyLayout s.ibody

/-- `ext4_xattr_ibody_initialize`. -/
def ibodyInitialize (s : Inode) : Inode :=
  if s.extraIsize = 0 then s else { s with ibody := ⟨true, [], fun _ => 0⟩ }

/-- `ext4_xattr_ibody_find_entry`. -/
def ibodyFindEntry (s : Inode) (key : Key) : Except Errno Search :=
  if s.extraIsize = 0 then .ok none
  else if s.ibodyValid then .ok (findEntry key s.ibody.entries)
  else .error Errno.EIO

/-- `ext4_xattr_block_find_entry`. -/
def blockFindEntry (s : Inode) (key : Key) (a : Area) : Except Errno Search :=
  if isValid s.blockLayout a then .ok (findEntry key a.entries) else .error Errno.EIO

/-- `ext4_xattr_block_initialize`. -/
def newBlock : Block := ⟨⟨true, [], fun _ => 0⟩, 1⟩

/-- `ext4_xattr_list` without the sizes: the keys of the entries. -/
def listKeys (s : Inode) : Except Errno (List Key) :=
  let ibody := if s.extraIsize ≠ 0 ∧ s.ibodyValid then s.ibody.entries.map Entry.key else []
  match s.block with
  | none => .ok ibody
  | some b =>
    if isValid s.blockLayout b.area then .ok (ibody ++ b.area.entries.map Entry.key) else .error Errno.EIO

/-- `sizeof(struct ext4_xattr_list_entry)` with pointers of 8 bytes. -/
def listEntrySize : ℕ := 32

/-- `ext4_xattr_list`: the keys and `list_len`. -/
def list (s : Inode) : Except Errno (List Key × ℕ) :=
  s.listKeys.map fun keys => (keys, (keys.map fun key => listEntrySize + key.name.length + 1).sum)

/-- What `ext4_xattr_get` returns of an entry: the bytes that fit into the
    buffer, and `data_len`. -/
def copyOut (a : Area) (here : Entry) (bufLen : ℕ) : List Byte × ℕ :=
  (a.mem.read here.valueOffs (min bufLen here.valueSize), here.valueSize)

/-- `ext4_xattr_get`. -/
def get (s : Inode) (key : Key) (bufLen : ℕ) : Except Errno (List Byte × ℕ) :=
  match s.ibodyFindEntry key with
  | .error e => .error e
  | .ok (some (_, here, _)) => .ok (copyOut s.ibody here bufLen)
  | .ok none =>
    match s.block with
    | none => .error .ENODATA
    | some b =>
      match s.blockFindEntry key b.area with
      | .error e => .error e
      | .ok none => .error .ENODATA
      | .ok (some (_, here, _)) => .ok (copyOut b.area here bufLen)

/-! ## Changes -/

/-- `ext4_xattr_copy_new_block`; `alloc` is the error of the block allocator,
    if it fails.  The result says whether there is a new block. -/
def copyNewBlock (b : Block) (alloc : Option Errno) : Except Errno (Block × Bool) :=
  if 1 < b.refcount then
    match alloc with
    | some e => .error e
    | none => .ok ({ b with refcount := 1 }, true)
  else .ok (b, false)

/-- `ext4_xattr_block_set` with a block of the inode.  With a new block, the
    old one is released and then read. -/
def blockUpdate (s : Inode) (b : Block) (key : Key) (value : List Byte) (noInsert : Bool)
    (alloc : Option Errno) : Option (Except Errno Unit × Inode) :=
  let change : Option (Except Errno Unit × Inode) :=
    match copyNewBlock b alloc with
    | .error e => some (.error e, s)
    | .ok (_, true) => none
    | .ok (b, false) =>
      match s.blockFindEntry key b.area with
      | .error e => some (.error e, s)
      | .ok found =>
        match setEntry s.blockLayout b.area key (some value) found with
        | .error e => some (.error e, s)
        | .ok area => some (.ok (), { s with block := some { b with area := area } })
  if 1 < b.refcount ∧ noInsert then
    match s.blockFindEntry key b.area with
    | .error e => some (.error e, s)
    | .ok none => some (.error .ENODATA, s)
    | .ok (some _) => change
  else change

/-- `ext4_xattr_block_set`. -/
def blockSet (s : Inode) (key : Key) (value : List Byte) (noInsert : Bool) (alloc : Option Errno) :
    Option (Except Errno Unit × Inode) :=
  match s.block with
  | some b => s.blockUpdate b key value noInsert alloc
  | none =>
    if noInsert then some (.error .ENODATA, s)
    else
      match alloc with
      | some e => some (.error e, s)
      | none =>
        match setEntry s.blockLayout newBlock.area key (some value) none with
        | .error e => some (.error e, s)
        | .ok area => some (.ok (), { s with block := some { newBlock with area := area } })

/-- `ext4_xattr_block_remove`.  The name to look for is not initialised, so the
    first comparison with an entry is undefined. -/
def blockRemove (s : Inode) (alloc : Option Errno) : Option (Except Errno Unit × Inode) :=
  match s.block with
  | none => none
  | some b =>
    match copyNewBlock b alloc with
    | .error e => some (.error e, s)
    | .ok (b, _) => if b.area.entries = [] then some (.ok (), { s with block := some b }) else none

/-- `try_insert` in `ext4_xattr_set`: the area in the inode, and then the block. -/
def tryInsert (s : Inode) (found : Search) (key : Key) (value : List Byte) (alloc : Option Errno)
    (blockFound : Bool) : Option (Except Errno Unit × Inode) :=
  match (if s.extraIsize ≠ 0 then setEntry s.ibodyLayout s.ibody key (some value) found
    else .error .ENOSPC) with
  | .ok area =>
    let s := { s with ibody := area }
    if blockFound then s.blockRemove alloc else some (.ok (), s)
  | .error _ =>
    if blockFound then some (.error .ENOSPC, s)
    else
      match s.blockSet key value false alloc with
      | none => none
      | some (ret, s) =>
        -- the entry is removed from the inode even if the block does not take it
        match setEntry s.ibodyLayout s.ibody key none found with
        | .error _ => some (ret, s)
        | .ok area => some (ret, { s with ibody := area })

/-- `ext4_xattr_set` once the area in the inode has been searched. -/
def setFound (s : Inode) (found : Search) (key : Key) (value : List Byte) (alloc : Option Errno) :
    Option (Except Errno Unit × Inode) :=
  match found, s.block with
  | none, some _ =>
    match s.blockSet key value true alloc with
    | some (.error .ENOSPC, s) => s.tryInsert none key value alloc true
    | some (.error .ENODATA, s) => s.tryInsert none key value alloc true
    | r => r
  | _, _ => s.tryInsert found key value alloc false

/-- `ext4_xattr_set`. -/
def set (s : Inode) (key : Key) (value : List Byte) (alloc : Option Errno) :
    Option (Except Errno Unit × Inode) :=
  let s := match s.ibodyFindEntry key with
    | .ok _ => s
    | .error _ => s.ibodyInitialize
  match s.ibodyFindEntry key with
  | .error _ => none
  | .ok found => s.setFound found key value alloc

/-- `ext4_xattr_remove`.  Where the entry is not in the block, the search
    context of the block is used all the same. -/
def remove (s : Inode) (key : Key) (alloc : Option Errno) : Option (Except Errno Unit × Inode) :=
  match s.ibodyFindEntry key, s.block with
  | .error e, _ => some (.error e, s)
  | .ok none, some b =>
    match s.blockFindEntry key b.area with
    | .error e => some (.error e, s)
    | .ok none => some (.error .ENODATA, s)
    | .ok (some _) =>
      match copyNewBlock b alloc with
      | .error e => some (.error e, s)
      | .ok (b, _) =>
        match s.blockFindEntry key b.area with
        | .error e => some (.error e, { s with block := some b })
        | .ok found =>
          match setEntry s.blockLayout b.area key none found with
          | .error e => some (.error e, { s with block := some b })
          | .ok area =>
            if area.entries = [] then some (.ok (), { s with block := none })
            else some (.ok (), { s with block := some { b with area := area } })
  | .ok _, _ => none

end Inode

end Xattr

end Lwext4
