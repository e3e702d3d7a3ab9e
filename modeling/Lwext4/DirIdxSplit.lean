/-
  Splitting the blocks of a directory index (`ext4_dir_idx.c`): a full leaf is
  split by the hashes of its entries, a full index block in the middle or into a
  new level.
-/
import Lwext4.DirIdx

namespace Lwext4.DirIdx

open Lib

/-- The block behind a handle is changed. -/
def dxUpd (b : ExtBlock) (f : Mem → Mem) : Dx Unit :=
  Prog.modify fun st => st.setData b (f (st.blockData b))

/-- `ext4_dir_init_entry_tail` at the end of a block. -/
def dirInitEntryTail (sb : DirSb) (m : Mem) : Mem :=
  let t := sb.blockSize - dirEntryTailSize
  putLE (putLE (m.fill t dirEntryTailSize 0) (t + 4) 2 dirEntryTailSize) (t + 7) 1
    ext4DirentryDirCsum

section

variable (env : DxEnv)

/-! ## A new entry in an index block -/

/-- What `ext4_dir_dx_insert_entry` does to the entries. -/
def dxInsertMem (m : Mem) (en pos hash iblock : ℕ) : Mem :=
  let count := dxGetCount m en
  let m := m.move (en + 8 * (pos + 2)) (en + 8 * (pos + 1)) (8 * (count - (pos + 1)))
  let m := dxEntrySetBlock m en (pos + 1) iblock
  let m := dxEntrySetHash m en (pos + 1) hash
  dxSetCount m en (count + 1)

/-- `ext4_dir_dx_insert_entry`. -/
def dirDxInsertEntry (indexBlock : DxBlock) (hash iblock : ℕ) : Dx Unit :=
  dxUpd indexBlock.b fun m =>
    setDxCsum env (dxInsertMem m indexBlock.entries indexBlock.position hash iblock)

/-! ## Splitting an index block -/

/-- `node_limit` of `ext4_dir_dx_split_index`, which does not leave room for the
    checksum. -/
def splitNodeLimit : ℕ := (env.sb.blockSize - 8) / 8

/-- The new block of `ext4_dir_dx_split_index` with its fake entry: its handle
    and its place in the directory. -/
def dxNewNode : Dx (Except Errno (ExtBlock × ℕ)) := do
  match ← appendInodeDblk env with
  | .error e => pure (.error e)
  | .ok (newFblk, newIblk) => do
    let (r, b) ← transBlockGetNoread env .uninit newFblk
    match r with
    | some e => pure (.error e)
    | none => do
      dxUpd b fun m => dirEnSetEntryLen (m.fill 0 8 0) 0 env.sb.blockSize
      pure (.ok (b, newIblk))

/-- The entries of the root go to a new node. -/
def dxGrowRoot (root : DxBlock) (b : ExtBlock) (newIblk : ℕ) : Dx (List DxBlock) := do
  let m ← dxData root.b
  dxUpd b fun nm => dxSetLimit (nm.write nodeEn (m.read rootEn (8 * dxGetCount m rootEn))) nodeEn
    (splitNodeLimit env)
  dxUpd root.b fun m => dxSetCount m rootEn 1
  dxUpd root.b fun m => dxEntrySetBlock m rootEn 0 newIblk
  dxUpd root.b fun m => rinfoSetIndirectLevels m 1
  dxUpd root.b (setDxCsum env)
  dxUpd b (setDxCsum env)
  pure [root, ⟨b, nodeEn, root.position⟩]

/-- The part of `ext4_dir_dx_split_index` behind the choice of the block for the
    new entry: `b` is the handle of the other one. -/
def dxSplitFinish (root dxb : DxBlock) (b : ExtBlock) (hashRight newIblk : ℕ) :
    Dx (List DxBlock) := do
  dirDxInsertEntry env root hashRight newIblk
  dxUpd root.b (setDxCsum env)
  dxUpd dxb.b (setDxCsum env)
  dxUpd b (setDxCsum env)
  let _ ← blockSet b
  pure [root, dxb]

/-- The upper half of a node goes to a new node. -/
def dxSplitNode (root dxb : DxBlock) (b : ExtBlock) (newIblk : ℕ) : Dx (List DxBlock) := do
  let m ← dxData dxb.b
  let leafCount := dxGetCount m nodeEn
  let countLeft := leafCount / 2
  let countRight := leafCount - countLeft
  let hashRight := dxEntryGetHash m nodeEn countLeft
  dxUpd b fun nm => nm.write nodeEn (m.read (nodeEn + 8 * countLeft) (8 * countRight))
  dxUpd dxb.b fun m => dxSetCount m nodeEn countLeft
  dxUpd b fun nm => dxSetLimit (dxSetCount nm nodeEn countRight) nodeEn (splitNodeLimit env)
  if countLeft ≤ dxb.position then do
    dxUpd dxb.b (setDxCsum env)
    dxSplitFinish env root ⟨b, nodeEn, dxb.position - countLeft⟩ dxb.b hashRight newIblk
  else dxSplitFinish env root dxb b hashRight newIblk

/-- A full block of the index is split: the root alone, or the node under it. -/
def dxSplitFull (path : List DxBlock) (b : ExtBlock) (newIblk : ℕ) : Dx (List DxBlock) :=
  match path with
  | [root] => dxGrowRoot env root b newIblk
  | [root, dxb] => dxSplitNode env root dxb b newIblk
  | _ => pure path

/-- Whether the last block of the path is full, and if it is not the root
    whether the root is full, too. -/
def dxFull (st : DxSt) : List DxBlock → Bool × Bool
  | [root] =>
    (dxGetLimit (st.blockData root.b) rootEn = dxGetCount (st.blockData root.b) rootEn, false)
  | [root, dxb] =>
    (dxGetLimit (st.blockData dxb.b) nodeEn = dxGetCount (st.blockData dxb.b) nodeEn,
      dxGetLimit (st.blockData root.b) rootEn = dxGetCount (st.blockData root.b) rootEn)
  | _ => (false, false)

/-- `ext4_dir_dx_split_index`: the return code, and the path. -/
def dirDxSplitIndex (path : List DxBlock) : Dx (Option Errno × List DxBlock) := do
  let st ← Prog.get
  match dxFull st path with
  | (false, _) => pure (none, path)
  | (true, true) => pure (some Errno.ENOSPC, path)
  | (true, false) => do
    match ← dxNewNode env with
    | .error e => pure (some e, path)
    | .ok (b, newIblk) => do
      let path ← dxSplitFull env path b newIblk
      pure (none, path)

/-! ## Splitting a leaf -/

/-- The length that an entry is copied with. -/
def dxRecLen (len : ℕ) : ℕ := if (8 + len) % 4 ≠ 0 then 8 + len + (4 - (8 + len) % 4) else 8 + len

/-- The entries in use from `off` on, with their hashes.  They are copied to a
    buffer of a block's size, and at most `max_ecnt` are sorted; `size` and
    `idx` say what was used of both. -/
def dxCollectLoop (version : ℕ) (m : Mem) :
    (fuel off size idx : ℕ) → Except DxStop (Except Errno (List DxSortEntry))
  | 0, _, _, _ => .error .running
  | fuel + 1, off, size, idx =>
    if env.sb.blockSize ≤ off then .ok (.ok [])
    else if dirEnGetInode m off ≠ 0 ∧ getLE m (off + 6) 1 ≠ 0 then
      let len := dirEnGetNameLen env.sb m off
      match ext2HtreeHash env.hashSeed version (dirEnName m off len) with
      | .error e => .ok (.error e)
      | .ok hash =>
        let recLen := dxRecLen len
        if env.sb.blockSize < size + recLen ∨ env.sb.blockSize / 12 ≤ idx then .error .assert
        else
          match dxCollectLoop version m fuel (off + dirEnGetEntryLen m off) (size + recLen)
              (idx + 1) with
          | .ok (.ok es) => .ok (.ok (⟨hash, recLen, m.read off recLen⟩ :: es))
          | r => r
    else dxCollectLoop version m fuel (off + dirEnGetEntryLen m off) size idx

/-- The place of the entry with which more than half a block is full, and its
    hash, or 0 and 0. -/
def dxMidLoop (half : ℕ) : List DxSortEntry → (i currentSize : ℕ) → ℕ × ℕ
  | [], _, _ => (0, 0)
  | e :: es, i, currentSize =>
    if half < currentSize + e.recLen then (i, e.hash)
    else dxMidLoop half es (i + 1) (currentSize + e.recLen)

/-- Entries are copied to a block from `off` on, the last one with a record up to
    `size`. -/
def dxCopyLoop (size : ℕ) : List DxSortEntry → (off : ℕ) → Mem → Mem
  | [], _, m => m
  | [e], off, m => dirEnSetEntryLen (m.write off e.dentry) off (size - off)
  | e :: es, off, m =>
    dxCopyLoop size es (off + e.recLen) (dirEnSetEntryLen (m.write off e.dentry) off e.recLen)

/-- The hash of the entry before the middle.  With the middle at 0 it is read in
    front of the array, and `stray` stands for what is there. -/
def dxHashBefore (stray : ℕ) (sort : List DxSortEntry) (mid : ℕ) : ℕ :=
  if mid = 0 then stray else (sort[mid - 1]?.map DxSortEntry.hash).getD stray

/-- The last steps on a leaf. -/
def dxFinishLeaf (m : Mem) : Mem :=
  ext4DirSetCsum env.sb env.csum
    (if env.sb.metadataCsum then dirInitEntryTail env.sb m else m)

/-- The entries go to both blocks. -/
def dxDistribute (stray : ℕ) (sort : List DxSortEntry) (old new : ExtBlock) (indexBlock : DxBlock)
    (newIblock : ℕ) : Dx Unit := do
  let (mid, newHash) := dxMidLoop (env.sb.blockSize / 2) sort 0 0
  let continued := if newHash = dxHashBefore stray sort mid then 1 else 0
  let size := if env.sb.metadataCsum then env.sb.blockSize - dirEntryTailSize else env.sb.blockSize
  dxUpd old (dxCopyLoop size (sort.take mid) 0)
  dxUpd new (dxCopyLoop size (sort.drop mid) 0)
  dxUpd old (dxFinishLeaf env)
  dxUpd new (dxFinishLeaf env)
  dirDxInsertEntry env indexBlock (newHash + continued) newIblock

/-- The part of `ext4_dir_dx_split_data` behind the collection. -/
def dxSplitSorted (stray : ℕ) (sort : List DxSortEntry) (old : ExtBlock) (indexBlock : DxBlock) :
    Dx (Except Errno ExtBlock) := do
  match ← appendInodeDblk env with
  | .error e => pure (.error e)
  | .ok (newFblock, newIblock) => do
    let (r, new) ← transBlockGetNoread env .uninit newFblock
    match r with
    | some e => pure (.error e)
    | none => do
      dxDistribute env stray sort old new indexBlock newIblock
      pure (.ok new)

/-- `ext4_dir_dx_split_data`: the new block. -/
def dirDxSplitData (stray version : ℕ) (old : ExtBlock) (indexBlock : DxBlock) :
    Dx (Except Errno ExtBlock) := do
  match ← nextFault env with
  | some _ => pure (.error Errno.ENOMEM)
  | none => do
    match ← nextFault env with
    | some _ => pure (.error Errno.ENOMEM)
    | none => do
      let m ← dxData old
      match dxCollectLoop env version m (env.sb.blockSize + 1) 0 0 0 with
      | .error stop => Prog.fail stop
      | .ok (.error e) => pure (.error e)
      | .ok (.ok es) => dxSplitSorted env stray (env.qsort.sort es) old indexBlock

end

end Lwext4.DirIdx
