/-
  The block cache (`ext4_bcache.c`) and the block device functions on top of it
  (`ext4_blockdev.c`).

  Buffers live in a heap of numbered cells; a number that is not in the heap is
  a freed buffer.  The two trees and the dirty list are lists of numbers.  A
  function that takes a buffer works on a copy of it and hands it back.  `none`
  is a failed assertion or undefined behaviour: using a freed buffer, or
  unlinking one from the LRU tree that is not in it.
-/
import Lwext4.Basic

namespace Lwext4

/-- `struct ext4_buf`. -/
structure Buf (α : Type) where
  lba : ℕ
  data : α
  uptodate : Bool
  dirty : Bool
  flush : Bool
  tmp : Bool
  lruId : ℕ
  refctr : ℕ
  readRefctr : ℕ
  onDirtyList : Bool

/-- `struct ext4_bcache` with its device.  The device transfers whole blocks;
    `faults` says of each transfer to come whether it fails, and none does
    where the list has ended. -/
structure Bcache (α : Type) where
  cnt : ℕ
  lruCtr : ℕ
  refBlocks : ℕ
  dontShake : Bool
  heap : ℕ → Option (Buf α)
  next : ℕ
  lbaRoot : List ℕ
  lruRoot : List ℕ
  dirtyList : List ℕ
  disk : ℕ → α
  lgBcnt : ℕ
  cacheWriteBack : ℕ
  faults : List Bool

namespace Bcache

variable {α : Type}

/-- `ext4_bcache_init_dynamic` on a device. -/
def init (cnt lgBcnt : ℕ) (disk : ℕ → α) (faults : List Bool) : Bcache α where
  cnt := cnt
  lruCtr := 0
  refBlocks := 0
  dontShake := false
  heap := fun _ => none
  next := 0
  lbaRoot := []
  lruRoot := []
  dirtyList := []
  disk := disk
  lgBcnt := lgBcnt
  cacheWriteBack := 0
  faults := faults

/-- Store a buffer back. -/
def setBuf (s : Bcache α) (id : ℕ) (b : Buf α) : Bcache α :=
  { s with heap := Function.update s.heap id (some b) }

/-! ## The device -/

/-- `ext4_blocks_set_direct` of one block. -/
def bwrite (s : Bcache α) (lba : ℕ) (data : α) : Bool × Bcache α :=
  match s.faults with
  | true :: faults => (false, { s with faults := faults })
  | false :: faults => (true, { s with faults := faults, disk := Function.update s.disk lba data })
  | [] => (true, { s with disk := Function.update s.disk lba data })

/-- `ext4_blocks_get_direct` of one block. -/
def bread (s : Bcache α) (lba : ℕ) : Option α × Bcache α :=
  match s.faults with
  | true :: faults => (none, { s with faults := faults })
  | false :: faults => (some (s.disk lba), { s with faults := faults })
  | [] => (some (s.disk lba), s)

/-! ## Links -/

/-- `ext4_bcache_insert_dirty_node`. -/
def insertDirtyNode (s : Bcache α) (id : ℕ) (b : Buf α) : Bcache α × Buf α :=
  if b.onDirtyList then (s, b)
  else ({ s with dirtyList := id :: s.dirtyList }, { b with onDirtyList := true })

/-- `ext4_bcache_remove_dirty_node`. -/
def removeDirtyNode (s : Bcache α) (id : ℕ) (b : Buf α) : Bcache α × Buf α :=
  if b.onDirtyList then
    ({ s with dirtyList := s.dirtyList.erase id }, { b with onDirtyList := false })
  else (s, b)

/-- `RB_INSERT` into the LRU tree, which leaves the buffer out when one with the
    same LRU id is in the tree. -/
def lruInsert (s : Bcache α) (id : ℕ) (b : Buf α) : Bcache α :=
  if s.lruRoot.any fun i => (s.heap i).any fun b' => b'.lruId == b.lruId then s
  else { s with lruRoot := id :: s.lruRoot }

/-- `RB_REMOVE` from the LRU tree. -/
def lruRemove (s : Bcache α) (id : ℕ) : Option (Bcache α) :=
  if id ∈ s.lruRoot then some { s with lruRoot := s.lruRoot.erase id } else none

/-- `ext4_buf_lookup`. -/
def lookup (s : Bcache α) (lba : ℕ) : Option (ℕ × Buf α) :=
  s.lbaRoot.findSome? fun id => (s.heap id).bind fun b => if b.lba = lba then some (id, b) else none

/-- `ext4_buf_lowest_lru`. -/
def lowestLru (s : Bcache α) : Option ℕ :=
  s.lruRoot.argmin fun id => ((s.heap id).map Buf.lruId).getD 0

/-! ## Buffers -/

/-- `ext4_block_flush_buf`. -/
def flushBuf (s : Bcache α) (id : ℕ) (b : Buf α) : Option Errno × Bcache α × Buf α :=
  if b.dirty && b.uptodate then
    match s.bwrite b.lba b.data with
    | (false, s) => (some Errno.EIO, s, b)
    | (true, s) =>
      let (s, b) := s.removeDirtyNode id b
      (none, s, { b with dirty := false })
  else (none, s, b)

/-- `ext4_bcache_drop_buf`. -/
def dropBuf (s : Bcache α) (id : ℕ) (b : Buf α) : Option (Bcache α) :=
  (if b.refctr = 0 then s.lruRemove id else some s).map fun s =>
    let s := if b.dirty then (s.removeDirtyNode id b).1 else s
    { s with
      lbaRoot := s.lbaRoot.erase id
      heap := Function.update s.heap id none
      refBlocks := sub32 s.refBlocks 1 }

/-- What `ext4_bcache_free` does with a buffer that is ready to be flushed. -/
def ready (s : Bcache α) (id : ℕ) (b : Buf α) : Bcache α × Buf α :=
  if b.dirty && b.uptodate then
    if s.cacheWriteBack ≠ 0 ∧ b.flush = false ∧ b.tmp = false then s.insertDirtyNode id b
    else
      let (_, s, b) := s.flushBuf id b
      (s, { b with flush := false })
  else (s, b)

/-- `ext4_bcache_free`, which is `ext4_block_set`: block 0 and buffers without
    references fail its assertions. -/
def free (s : Bcache α) (id : ℕ) : Option (Bcache α) :=
  match s.heap id with
  | none => none
  | some b =>
    if b.lba = 0 ∨ b.refctr = 0 then none
    else
      let b := { b with refctr := b.refctr - 1 }
      if b.refctr = 0 then
        let s := s.lruInsert id b
        let (s, b) := s.ready id b
        if b.uptodate && !b.tmp then some (s.setBuf id b) else s.dropBuf id b
      else
        let (s, b) := if b.refctr = b.readRefctr then s.ready id b else (s, b)
        some (s.setBuf id b)

/-- `ext4_bcache_find_get`: the buffer found, with one reference more. -/
def findGet (s : Bcache α) (lba : ℕ) : Option (Bcache α × Option ℕ) :=
  match s.lookup lba with
  | none => some (s, none)
  | some (id, b) =>
    if b.refctr = 0 then
      let lruId := u32 (s.lruCtr + 1)
      (s.lruRemove id).map fun s =>
        let (s, b) := if b.dirty then s.removeDirtyNode id b else (s, b)
        ({ s with lruCtr := lruId }.setBuf id { b with lruId := lruId, refctr := 1 }, some id)
    else some (s.setBuf id { b with refctr := u32 (b.refctr + 1) }, some id)

/-- A new buffer of `ext4_bcache_alloc`; its memory holds `stale`. -/
def newBuf (s : Bcache α) (lba : ℕ) (stale : α) : Bcache α :=
  let lruId := u32 (s.lruCtr + 1)
  { s with
    lbaRoot := s.next :: s.lbaRoot
    refBlocks := u32 (s.refBlocks + 1)
    lruCtr := lruId
    next := s.next + 1
    heap := Function.update s.heap s.next
      (some ⟨lba, stale, false, false, false, false, lruId, 1, 0, false⟩) }

/-- `ext4_bcache_alloc`, where `oom` says that there is no memory: the buffer,
    or nothing (`ENOMEM`). -/
def alloc (s : Bcache α) (lba : ℕ) (oom : Bool) (stale : α) : Option (Bcache α × Option ℕ) :=
  match s.findGet lba with
  | none => none
  | some (s, some id) => some (s, some id)
  | some (s, none) => if oom then some (s, none) else some (s.newBuf lba stale, some s.next)

/-- `ext4_bcache_invalidate_buf`. -/
def invalidateBuf (s : Bcache α) (id : ℕ) : Bcache α :=
  match s.heap id with
  | none => s
  | some b =>
    let (s, b) := if b.dirty then s.removeDirtyNode id b else (s, b)
    s.setBuf id { b with dirty := false, uptodate := false }

/-- `ext4_bcache_invalidate_lba`: the walk starts at the buffer of the first
    block, and there is none when that block is not cached. -/
def invalidateLba (s : Bcache α) (from' cnt : ℕ) : Bcache α :=
  let end' := sub64 (u64 (from' + cnt)) 1
  match s.lookup from' with
  | none => s
  | some _ =>
    (s.lbaRoot.filter fun id => (s.heap id).any fun b => from' ≤ b.lba ∧ b.lba ≤ end').foldl
      invalidateBuf s

/-! ## Device functions -/

/-- The loop of `ext4_block_cache_shake`. -/
def shakeLoop : (fuel : ℕ) → Bcache α → Option (Option Errno × Bcache α)
  | 0, _ => none
  | fuel + 1, s =>
    match s.lowestLru with
    | none => some (none, s)
    | some id =>
      if s.refBlocks < s.cnt then some (none, s)
      else match s.heap id with
        | none => none
        | some b =>
          let (r, s, b) := if b.dirty then s.flushBuf id b else (none, s, b)
          match r with
          | some e => some (some e, s.setBuf id b)
          | none => (s.dropBuf id b).bind (shakeLoop fuel)

/-- `ext4_block_cache_shake`. -/
def cacheShake (s : Bcache α) : Option (Option Errno × Bcache α) :=
  if s.dontShake then some (none, s)
  else (shakeLoop (s.lruRoot.length + 1) { s with dontShake := true }).map fun (r, s) =>
    (r, { s with dontShake := false })

/-- The loop of `ext4_block_cache_flush`. -/
def flushLoop : (fuel : ℕ) → Bcache α → Option (Option Errno × Bcache α)
  | 0, _ => none
  | fuel + 1, s =>
    match s.dirtyList with
    | [] => some (none, s)
    | id :: _ =>
      match s.heap id with
      | none => none
      | some b =>
        match s.flushBuf id b with
        | (some e, s, b) => some (some e, s.setBuf id b)
        | (none, s, b) => flushLoop fuel (s.setBuf id b)

/-- `ext4_block_cache_flush`, which ends if it ends within a round for each
    buffer of the list. -/
def cacheFlush (s : Bcache α) : Option (Option Errno × Bcache α) :=
  flushLoop (s.dirtyList.length + 1) s

/-- `ext4_block_cache_write_back`. -/
def cacheSetWriteBack (s : Bcache α) (on : Bool) : Option (Option Errno × Bcache α) :=
  let s :=
    if on then { s with cacheWriteBack := u32 (s.cacheWriteBack + 1) }
    else { s with cacheWriteBack := s.cacheWriteBack - 1 }
  if s.cacheWriteBack ≠ 0 then some (none, s) else s.cacheFlush

/-- `ext4_block_flush_lba`. -/
def flushLba (s : Bcache α) (lba : ℕ) : Option (Option Errno × Bcache α) :=
  match s.findGet lba with
  | none => none
  | some (s, none) => some (none, s)
  | some (s, some id) =>
    match s.heap id with
    | none => none
    | some b =>
      let (r, s, b) := s.flushBuf id b
      ((s.setBuf id b).free id).map fun s => (r, s)

/-- `ext4_block_get_noread`. -/
def blockGetNoread (s : Bcache α) (lba : ℕ) (oom : Bool) (stale : α) :
    Option (Except Errno ℕ × Bcache α) :=
  if s.lgBcnt ≤ lba then some (.error Errno.ENXIO, s)
  else match s.cacheShake with
    | none => none
    | some (some e, s) => some (.error e, s)
    | some (none, s) =>
      match s.alloc lba oom stale with
      | none => none
      | some (s, none) => some (.error Errno.ENOMEM, s)
      | some (s, some id) => some (.ok id, s)

/-- `ext4_block_get`. -/
def blockGet (s : Bcache α) (lba : ℕ) (oom : Bool) (stale : α) :
    Option (Except Errno ℕ × Bcache α) :=
  match s.blockGetNoread lba oom stale with
  | none => none
  | some (.error e, s) => some (.error e, s)
  | some (.ok id, s) =>
    match s.heap id with
    | none => none
    | some b =>
      if b.uptodate then some (.ok id, s)
      else match s.bread lba with
        | (none, s) => (s.free id).map fun s => (.error Errno.EIO, s)
        | (some data, s) => some (.ok id, s.setBuf id { b with data := data, uptodate := true })

end Bcache

end Lwext4
