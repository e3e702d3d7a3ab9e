/-
  The directory index (`ext4_dir_idx.c`): the blocks of the index, and the
  search of a name.

  Blocks are memories; an index entry is named by its place among the entries
  of its block.  A block handle, `struct ext4_block`, holds a number and a
  buffer.  The state counts the references to the buffers, so that a handle
  released twice or left behind shows, and the calls into the rest of the
  library that may fail, which fail as the environment says.
-/
import Lwext4.Dir
import Lwext4.Hash
import Lwext4.Lib.Prog
import Lwext4.Lib.Search

namespace Lwext4.DirIdx

open Lib

/-! ## Index blocks -/

/-- `ext4_dir_dx_climit_get_limit`; the count and the limit lie over the hash of
    the first entry. -/
def dxGetLimit (m : Mem) (en : ℕ) : ℕ := getLE m en 2

def dxSetLimit (m : Mem) (en limit : ℕ) : Mem := putLE m en 2 limit

def dxGetCount (m : Mem) (en : ℕ) : ℕ := getLE m (en + 2) 2

def dxSetCount (m : Mem) (en count : ℕ) : Mem := putLE m (en + 2) 2 count

/-- `ext4_dir_dx_entry_get_hash` of the `i`-th entry. -/
def dxEntryGetHash (m : Mem) (en i : ℕ) : ℕ := getLE m (en + 8 * i) 4

def dxEntrySetHash (m : Mem) (en i hash : ℕ) : Mem := putLE m (en + 8 * i) 4 hash

def dxEntryGetBlock (m : Mem) (en i : ℕ) : ℕ := getLE m (en + 8 * i + 4) 4

def dxEntrySetBlock (m : Mem) (en i block : ℕ) : Mem := putLE m (en + 8 * i + 4) 4 block

/-- `root->info.hash_version`. -/
def rinfoGetHashVersion (m : Mem) : ℕ := getLE m 28 1

def rinfoGetInfoLength (m : Mem) : ℕ := getLE m 29 1

def rinfoGetIndirectLevels (m : Mem) : ℕ := getLE m 30 1

def rinfoSetIndirectLevels (m : Mem) (levels : ℕ) : Mem := putLE m 30 1 levels

/-- Where the entries of the root begin: `root->en`. -/
def rootEn : ℕ := 32

/-- Where the entries of a node begin: `node->entries`. -/
def nodeEn : ℕ := 8

/-! ## Handles and the state -/

/-- `struct ext4_block`; a buffer is named by the number of its block, and
    `none` stands for a pointer that is not set. -/
structure ExtBlock where
  lbId : ℕ
  buf : Option ℕ
  deriving DecidableEq

/-- A handle on the stack that was not written yet. -/
def ExtBlock.uninit : ExtBlock := ⟨0, none⟩

/-- `struct ext4_dir_idx_block`: the entries by their offset, the position by
    its place among them. -/
structure DxBlock where
  b : ExtBlock
  entries : ℕ
  position : ℕ
  deriving DecidableEq

/-- How far a call of `ext4_block_get` comes: it looks at the number, finds a
    buffer, reads the block. -/
inductive FaultStage where
  | range | alloc | read
  deriving DecidableEq

/-- A failure of a call into the rest of the library. -/
structure Fault where
  stage : FaultStage
  err : Errno
  ne : err ≠ Errno.ENOENT

/-- An entry as `ext4_dir_dx_split_data` sorts them. -/
structure DxSortEntry where
  hash : ℕ
  recLen : ℕ
  dentry : List Byte

/-- `qsort` by hash: it may put entries with the same hash in any order. -/
structure Qsort where
  sort : List DxSortEntry → List DxSortEntry
  perm : ∀ es, (sort es).Perm es
  sorted : ∀ es, (sort es).Pairwise fun e e' => e.hash ≤ e'.hash

instance : Inhabited Qsort where
  default :=
    { sort := List.insertionSort fun e e' => e.hash ≤ e'.hash
      perm := List.perm_insertionSort _
      sorted := fun es => by
        have htotal : Std.Total fun e e' : DxSortEntry => e.hash ≤ e'.hash :=
          ⟨fun e e' => Nat.le_total e.hash e'.hash⟩
        have htrans : IsTrans DxSortEntry fun e e' => e.hash ≤ e'.hash :=
          ⟨fun _ _ _ => Nat.le_trans⟩
        exact List.pairwise_insertionSort _ es }

/-- What the index code reads of the file system, and what happens in a call. -/
structure DxEnv where
  sb : DirSb
  hashSeed : HashState
  /-- `EXT4_SUPERBLOCK_FLAGS_UNSIGNED_HASH`. -/
  unsignedHash : Bool
  /-- `ext4_dir_csum`. -/
  csum : Mem → ℕ
  /-- The checksum of an index block, given the offset of its entries, their
      count and the offset of its tail. -/
  dxCsum : Mem → ℕ → ℕ → ℕ → ℕ
  qsort : Qsort
  /-- Which calls fail. -/
  fault : ℕ → Option Fault

/-- The state of a call. -/
structure DxSt where
  /-- The blocks, by their numbers on the device. -/
  data : ℕ → Mem
  /-- The references held, by the number of the block. -/
  refs : ℕ → ℕ
  /-- The map of the directory's blocks, and how many it has. -/
  fblock : ℕ → ℕ
  blocks : ℕ
  /-- The blocks the allocator hands out. -/
  free : List ℕ
  /-- How many calls were made that may fail. -/
  ops : ℕ

/-- How a call stops that does not return: in a failed assertion or in the use
    of a variable that was not set, or in a loop that is still running. -/
inductive DxStop where
  | assert | running
  deriving DecidableEq

/-- Programs over the state. -/
abbrev Dx := Prog DxStop DxSt

/-- The block behind a handle. -/
def DxSt.blockData (st : DxSt) (b : ExtBlock) : Mem := st.data (b.buf.getD 0)

/-- The block behind a handle is overwritten. -/
def DxSt.setData (st : DxSt) (b : ExtBlock) (m : Mem) : DxSt :=
  { st with data := Function.update st.data (b.buf.getD 0) m }

/-- A reference more. -/
def DxSt.incRef (st : DxSt) (n : ℕ) : DxSt :=
  { st with refs := Function.update st.refs n (st.refs n + 1) }

/-- A reference less. -/
def DxSt.decRef (st : DxSt) (n : ℕ) : DxSt :=
  { st with refs := Function.update st.refs n (st.refs n - 1) }

/-! ## Calls into the rest of the library -/

section Calls

variable (env : DxEnv)

/-- Whether the next call fails. -/
def nextFault : Dx (Option Fault) := fun st =>
  (.ok (env.fault st.ops), { st with ops := st.ops + 1 })

/-- `ext4_fs_get_inode_dblk_idx`. -/
def getInodeDblkIdx (iblock : ℕ) : Dx (Except Errno ℕ) := do
  match ← nextFault env with
  | some f => pure (.error f.err)
  | none => fun st => (.ok (.ok (st.fblock iblock)), st)

/-- `ext4_fs_append_inode_dblk`: the new block on the device and in the
    directory. -/
def appendInodeDblk : Dx (Except Errno (ℕ × ℕ)) := do
  match ← nextFault env with
  | some f => pure (.error f.err)
  | none => fun st =>
    match st.free with
    | [] => (.ok (.error Errno.ENOSPC), st)
    | fblk :: free =>
      (.ok (.ok (fblk, st.blocks)),
        { st with fblock := Function.update st.fblock st.blocks fblk
                  blocks := st.blocks + 1
                  free := free })

/-- `ext4_trans_block_get` into the handle `b`: the return code, and what the
    handle holds afterwards. -/
def transBlockGet (b : ExtBlock) (lba : ℕ) : Dx (Option Errno × ExtBlock) := do
  match ← nextFault env with
  | none => fun st => (.ok (none, ⟨lba, some lba⟩), st.incRef lba)
  | some f =>
    match f.stage with
    | .range => pure (some f.err, b)
    | .alloc => pure (some f.err, { b with lbId := lba })
    -- the buffer is released again, which asserts that the number is not 0
    | .read => if lba = 0 then Prog.fail .assert else pure (some f.err, ⟨0, some lba⟩)

/-- `ext4_trans_block_get_noread`. -/
def transBlockGetNoread (b : ExtBlock) (lba : ℕ) : Dx (Option Errno × ExtBlock) := do
  match ← nextFault env with
  | none => fun st => (.ok (none, ⟨lba, some lba⟩), st.incRef lba)
  | some f =>
    match f.stage with
    | .range => pure (some f.err, b)
    | _ => pure (some f.err, { b with lbId := lba })

/-- `ext4_block_set`, and the handle afterwards.  It returns an error only if the
    device is closed, and then no block could be got. -/
def blockSet (b : ExtBlock) : Dx ExtBlock := fun st =>
  match b.buf with
  | none => (.error .assert, st)
  | some n =>
    if b.lbId = 0 then (.error .assert, st)
    else if st.refs n = 0 then (.error .assert, st)
    else (.ok { b with lbId := 0 }, st.decRef n)

/-- The block behind a handle. -/
def dxData (b : ExtBlock) : Dx Mem := fun st => (.ok (st.blockData b), st)

end Calls

/-! ## Checksums and limits -/

section Idx

variable (env : DxEnv)

/-- `ext4_dir_dx_get_climit`: the offset of the count and the limit. -/
def dxGetClimit (m : Mem) : Option ℕ :=
  let entryLen := dirEnGetEntryLen m 0
  if entryLen = 12 then
    if dirEnGetEntryLen m 12 ≠ env.sb.blockSize - 12 then none
    else if getLE m 24 4 ≠ 0 then none
    else if rinfoGetInfoLength m ≠ 8 then none
    else some 32
  else if entryLen = env.sb.blockSize then some 8
  else none

/-- `ext4_dir_dx_checksum`, where `t` is the offset of the tail; the checksum
    itself counts as 0. -/
def dxChecksum (m : Mem) (coff count t : ℕ) : ℕ := u32 (env.dxCsum (putLE m (t + 4) 4 0) coff count t)

/-- `ext4_dir_dx_csum_verify`. -/
def dxCsumVerify (m : Mem) : Bool :=
  if env.sb.metadataCsum then
    match dxGetClimit env m with
    | none => true
    | some coff =>
      let t := coff + 8 * dxGetLimit m coff
      if env.sb.blockSize - 8 < t then true
      else getLE m (t + 4) 4 = dxChecksum env m coff (dxGetCount m coff) t
  else true

/-- `ext4_dir_set_dx_csum`. -/
def setDxCsum (m : Mem) : Mem :=
  if env.sb.metadataCsum then
    match dxGetClimit env m with
    | none => m
    | some coff =>
      let t := coff + 8 * dxGetLimit m coff
      if env.sb.blockSize - 8 < t then m
      else putLE m (t + 4) 4 (dxChecksum env m coff (dxGetCount m coff) t)
  else m

/-- What the entries of the root have room for, in entries. -/
def rootEntrySpace : ℕ :=
  (env.sb.blockSize - 2 * 12 - 8 - if env.sb.metadataCsum then 8 else 0) / 8

/-- What the entries of a node have room for, in entries. -/
def nodeEntrySpace : ℕ := (env.sb.blockSize - 8 - if env.sb.metadataCsum then 8 else 0) / 8

/-! ## The search of a name -/

/-- `ext4_dir_hinfo_init`: the version of the hash function, and the hash of the
    name. -/
def dirHinfoInit (m : Mem) (name : List Byte) : Except Errno (ℕ × ℕ) :=
  let version := rinfoGetHashVersion m
  if 2 < version then .error Errno.BAD_DX_DIR
  else if getLE m 31 1 ≠ 0 then .error Errno.BAD_DX_DIR
  else if 1 < rinfoGetIndirectLevels m then .error Errno.BAD_DX_DIR
  else if dxGetLimit m rootEn ≠ rootEntrySpace env then .error Errno.BAD_DX_DIR
  else
    let version := if env.unsignedHash then version + 3 else version
    match ext2HtreeHash env.hashSeed version name with
    | .error e => .error e
    | .ok hash => .ok (version, hash)

/-- The binary search of `ext4_dir_dx_get_leaf` in one block. -/
def dxSearch (m : Mem) (entries cnt hash : ℕ) : ℕ :=
  upperBound (dxEntryGetHash m entries) hash cnt 1 (cnt - 1) - 1

/-- The position in a block, if its count is good. -/
def dxPlace (m : Mem) (entries limit hash : ℕ) : Option ℕ :=
  let cnt := dxGetCount m entries
  if cnt = 0 ∨ limit < cnt then none else some (dxSearch m entries cnt hash)

/-- What `ext4_dir_dx_get_leaf` leaves: the return code with the path, and the
    `root_block` of the caller, which serves as the handle of all blocks. -/
structure GotLeaf where
  rc : Except Errno (List DxBlock)
  rootBlock : ExtBlock

/-- The part of the loop of `ext4_dir_dx_get_leaf` that looks at the limit of a
    node. -/
def dxCheckNode (next : Dx GotLeaf) (tmpBlk : ExtBlock) : Dx GotLeaf := do
  let m ← dxData tmpBlk
  if dxGetLimit m nodeEn ≠ nodeEntrySpace env then do
    let tmpBlk ← blockSet tmpBlk
    pure ⟨.error Errno.BAD_DX_DIR, tmpBlk⟩
  -- a wrong checksum is only reported
  else next

/-- The loop of `ext4_dir_dx_get_leaf`. -/
def dxGetLeafLoop (hash : ℕ) :
    (indLevel limit entries : ℕ) → (tmpBlk : ExtBlock) → (path : List DxBlock) → Dx GotLeaf
  | 0, limit, entries, tmpBlk, path => do
    let m ← dxData tmpBlk
    match dxPlace m entries limit hash with
    | none => pure ⟨.error Errno.BAD_DX_DIR, tmpBlk⟩
    | some pos => pure ⟨.ok (path ++ [⟨tmpBlk, entries, pos⟩]), tmpBlk⟩
  | indLevel + 1, limit, entries, tmpBlk, path => do
    let m ← dxData tmpBlk
    match dxPlace m entries limit hash with
    | none => pure ⟨.error Errno.BAD_DX_DIR, tmpBlk⟩
    | some pos => do
      match ← getInodeDblkIdx env (dxEntryGetBlock m entries pos) with
      | .error e => pure ⟨.error e, tmpBlk⟩
      | .ok fblk => do
        let (r, child) ← transBlockGet env tmpBlk fblk
        match r with
        | some e => pure ⟨.error e, child⟩
        | none =>
          dxCheckNode env (dxGetLeafLoop hash indLevel (nodeEntrySpace env) nodeEn child
            (path ++ [⟨tmpBlk, entries, pos⟩])) child

/-- `ext4_dir_dx_get_leaf`. -/
def dirDxGetLeaf (hash : ℕ) (rootBlock : ExtBlock) : Dx GotLeaf := do
  let m ← dxData rootBlock
  dxGetLeafLoop env hash (rinfoGetIndirectLevels m) (dxGetLimit m rootEn) rootEn rootBlock []

/-- Where the climb of `ext4_dir_dx_next_block` ends: behind the root, or at a
    block with another entry; `above` is in reverse. -/
inductive Climbed where
  | root (path : List DxBlock)
  | at (above : List DxBlock) (p : DxBlock) (below : List DxBlock)

/-- The first loop of `ext4_dir_dx_next_block`, on the path in reverse. -/
def dxClimb (count : DxBlock → ℕ) : (rev below : List DxBlock) → Climbed
  | [], below => .root below
  | p :: above, below =>
    let p := { p with position := p.position + 1 }
    if p.position < count p then .at above p below else dxClimb count above (p :: below)

/-- The second loop of `ext4_dir_dx_next_block`: the blocks `below` are replaced
    by those that `p` leads to. -/
def dxFillPath (p : DxBlock) : (below : List DxBlock) → Dx (Option Errno × List DxBlock)
  | [] => pure (none, [])
  | d :: below => do
    let m ← dxData p.b
    match ← getInodeDblkIdx env (dxEntryGetBlock m p.entries p.position) with
    | .error e => pure (some e, d :: below)
    | .ok blkAdr => do
      let (r, b) ← transBlockGet env .uninit blkAdr
      match r with
      | some e => pure (some e, d :: below)
      | none => do
        let _ ← blockSet d.b
        let (r, rest) ← dxFillPath ⟨b, nodeEn, 0⟩ below
        pure (r, ⟨b, nodeEn, 0⟩ :: rest)

/-- The part of `ext4_dir_dx_next_block` behind the climb: the hash of the next
    entry is compared without its continuation bit. -/
def dxContinue (hash : ℕ) (st : DxSt) : Climbed → Dx (Option Errno × List DxBlock)
  | .root path => pure (none, path)
  | .at above p below =>
    let currentHash := dxEntryGetHash (st.blockData p.b) p.entries p.position
    if hash % 2 = 0 ∧ currentHash - currentHash % 2 ≠ hash then
      pure (none, above.reverse ++ p :: below)
    else do
      let (r, below) ← dxFillPath env p below
      pure (some (r.getD Errno.ENOENT), above.reverse ++ p :: below)

/-- `ext4_dir_dx_next_block`. -/
def dirDxNextBlock (hash : ℕ) (path : List DxBlock) : Dx (Option Errno × List DxBlock) := do
  let st ← Prog.get
  dxContinue env hash st
    (dxClimb (fun p => dxGetCount (st.blockData p.b) p.entries) path.reverse [])

/-- The blocks of a path are released. -/
def releasePath : List DxBlock → Dx Unit
  | [] => pure ()
  | p :: path => do
    let _ ← blockSet p.b
    releasePath path

/-- The entry that the last block of a path stands at. -/
def leafBlockIdx (st : DxSt) (path : List DxBlock) : ℕ :=
  match path.getLast? with
  | none => 0
  | some p => dxEntryGetBlock (st.blockData p.b) p.entries p.position

/-- What `ext4_dir_dx_find_entry` does with the result of the search in a leaf:
    return it, or go on with the next block. -/
inductive LeafFound where
  | done (rc : Except Errno (ExtBlock × ℕ))
  | next

/-- One round of the loop of `ext4_dir_dx_find_entry` up to the next block. -/
def dxSearchLeaf (name : List Byte) (path : List DxBlock) : Dx LeafFound := do
  let st ← Prog.get
  match ← getInodeDblkIdx env (leafBlockIdx st path) with
  | .error e => pure (.done (.error e))
  | .ok leafBlockAddr => do
    let (r, b) ← transBlockGet env .uninit leafBlockAddr
    match r with
    | some e => pure (.done (.error e))
    | none => do
      let m ← dxData b
      match ext4DirFindInBlock env.sb m name with
      | none => Prog.fail .running
      | some (.ok de) => pure (.done (.ok (b, de)))
      | some (.error .assert) => Prog.fail .assert
      | some (.error (.rc e)) => do
        let _ ← blockSet b
        pure (if e = Errno.ENOENT then .next else .done (.error e))

/-- The loop of `ext4_dir_dx_find_entry`: the return code and the path. -/
def dxFindLoop (hash : ℕ) (name : List Byte) :
    (fuel : ℕ) → List DxBlock → Dx (Except Errno (ExtBlock × ℕ) × List DxBlock)
  | 0, _ => Prog.fail .running
  | fuel + 1, path => do
    match ← dxSearchLeaf env name path with
    | .done rc => pure (rc, path)
    | .next => do
      let (rc, path) ← dirDxNextBlock env hash path
      -- error codes are positive, so that `rc < 0` never holds
      if rc = some Errno.ENOENT then dxFindLoop hash name fuel path
      else pure (.error Errno.ENOENT, path)

/-- `ext4_dir_dx_find_entry` behind the root. -/
def dxFindFrom (fuel hash : ℕ) (name : List Byte) (rootBlock : ExtBlock) :
    Dx (Except Errno (ExtBlock × ℕ)) := do
  let got ← dirDxGetLeaf env hash rootBlock
  match got.rc with
  | .error _ => do
    let _ ← blockSet got.rootBlock
    pure (.error Errno.BAD_DX_DIR)
  | .ok path => do
    let (rc, path) ← dxFindLoop env hash name fuel path
    releasePath path
    pure rc

/-- `ext4_dir_dx_find_entry`: the block and the offset of the entry. -/
def dirDxFindEntry (fuel : ℕ) (name : List Byte) : Dx (Except Errno (ExtBlock × ℕ)) := do
  match ← getInodeDblkIdx env 0 with
  | .error e => pure (.error e)
  | .ok rootBlockAddr => do
    let (r, rootBlock) ← transBlockGet env .uninit rootBlockAddr
    match r with
    | some e => pure (.error e)
    | none => do
      let m ← dxData rootBlock
      match dirHinfoInit env m name with
      | .error _ => do
        let _ ← blockSet rootBlock
        pure (.error Errno.BAD_DX_DIR)
      | .ok (_, hash) => dxFindFrom env fuel hash name rootBlock

end Idx

end Lwext4.DirIdx
