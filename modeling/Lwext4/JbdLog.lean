/-
  The log of the journal (`ext4_journal.c`): its ring of blocks, the
  transactions on the checkpoint queue, and the journal superblock in memory
  and on disk.

  A commit is a little machine of its own: `commitTrans` starts it, and each
  `next` takes it to its next write, so that every point between two device
  writes is a state.  Buffers of committed transactions are written in place
  at any time (`endWrite`).  Log blocks are records; a descriptor block says
  how many data blocks follow it.
-/
import Lwext4.Basic

namespace Lwext4

/-- What a log block holds, as `jbd_iterate_log` sees it. -/
inductive LogRec where
  | descriptor (sequence tags : ℕ)
  | revoke (sequence : ℕ)
  | commit (sequence : ℕ)
  | data
  deriving DecidableEq

/-- `struct jbd_trans`. -/
structure Trans where
  transId : ℕ
  startIblock : ℕ
  allocBlocks : ℕ
  dataCnt : ℕ
  writtenCnt : ℕ
  deriving DecidableEq

/-- A header block that the commit has in its hands: a descriptor block with a
    number of tags, or a revoke block. -/
inductive Header where
  | descriptor (tags : ℕ)
  | revoke
  deriving DecidableEq

/-- A transaction that is being committed: the buffers and revokes still to be
    logged, the header block in hand, and whether the commit block is written. -/
structure Commit where
  trans : Trans
  last : ℕ
  revokeCnt : ℕ
  data : ℕ
  revokes : ℕ
  hdr : Option (ℕ × Header)
  committed : Bool
  deriving DecidableEq

/-- The transaction takes a block of the log. -/
def Commit.take (c : Commit) : Commit :=
  { c with trans := { c.trans with allocBlocks := c.trans.allocBlocks + 1 } }

/-- The transaction starts at its first block. -/
def Commit.setStart (c : Commit) (block : ℕ) : Commit :=
  if c.trans.startIblock = 0 then { c with trans := { c.trans with startIblock := block } } else c

/-- `struct jbd_journal` with the journal superblock in memory (`sbStart`,
    `sbSequence`) and on disk, and the log.  A descriptor block takes `tagCap`
    tags, a revoke block `revokeCap` entries. -/
structure Journal where
  first : ℕ
  maxlen : ℕ
  tagCap : ℕ
  revokeCap : ℕ
  start : ℕ
  last : ℕ
  transId : ℕ
  allocTransId : ℕ
  cpQueue : List Trans
  sbStart : ℕ
  sbSequence : ℕ
  dirty : Bool
  diskStart : ℕ
  diskSequence : ℕ
  log : ℕ → LogRec
  cur : Option Commit

namespace Journal

/-- `wrap`. -/
def wrap (s : Journal) (var : ℕ) : ℕ :=
  if s.maxlen ≤ var then sub32 var (sub32 s.maxlen s.first) else var

/-- `jbd_journal_write_sb`: the superblock in memory. -/
def writeSb (s : Journal) : Journal :=
  { s with sbStart := s.start, sbSequence := s.transId, dirty := true }

/-- `jbd_write_sb`: the superblock on disk. -/
def sbWrite (s : Journal) : Journal :=
  if s.dirty then { s with diskStart := s.sbStart, diskSequence := s.sbSequence, dirty := false } else s

/-- `jbd_journal_start` on a log with any contents. -/
def journalStart (first maxlen sequence tagCap revokeCap : ℕ) (log : ℕ → LogRec) : Journal where
  first := first
  maxlen := maxlen
  tagCap := tagCap
  revokeCap := revokeCap
  start := first
  last := first
  transId := u32 (sequence + 1)
  allocTransId := u32 (sequence + 1)
  cpQueue := []
  sbStart := first
  sbSequence := u32 (sequence + 1)
  dirty := false
  diskStart := first
  diskSequence := u32 (sequence + 1)
  log := log
  cur := none

/-! ## Checkpointing -/

/-- The log starts behind the transaction. -/
def pass (s : Journal) (t : Trans) : Journal :=
  { s with start := s.wrap (u32 (t.startIblock + t.allocBlocks)), transId := u32 (t.transId + 1) }

/-- The log starts with the transaction. -/
def startAt (s : Journal) (t : Trans) : Journal :=
  { s with start := s.wrap t.startIblock, transId := t.transId }

/-- `jbd_journal_skip_pure_revoke`. -/
def skipPureRevoke (s : Journal) (t : Trans) : Journal := (s.pass t).writeSb

/-- The loop of `jbd_journal_purge_cp_trans` without flushing. -/
def purgeLoop : List Trans → Journal → Journal
  | [], s => { s with cpQueue := [] }
  | t :: ts, s =>
    if t.dataCnt = 0 then purgeLoop ts (s.skipPureRevoke t)
    else if t.dataCnt = t.writtenCnt then purgeLoop ts (s.pass t).writeSb
    else { s.startAt t with cpQueue := t :: ts }.writeSb

/-- `jbd_trans_end_write` of a buffer of the `i`-th transaction on the
    checkpoint queue.  The callback also ends the older copies of the block in
    other transactions, each a call of its own; `stale` says that the
    transaction became the first one only through these. -/
def endWrite (s : Journal) (i : ℕ) (stale : Bool) : Option Journal :=
  match s.cpQueue[i]? with
  | none => none
  | some t =>
    if t.dataCnt ≤ t.writtenCnt then none
    else
      let t := { t with writtenCnt := t.writtenCnt + 1 }
      if t.writtenCnt = t.dataCnt ∧ i = 0 ∧ stale = false then
        some (purgeLoop s.cpQueue.tail (s.pass t)).writeSb.sbWrite
      else some { s with cpQueue := s.cpQueue.set i t }

/-- `jbd_journal_flush_trans` of the first transaction: `n` of its buffers are
    written. -/
def flushTrans : (n : ℕ) → Journal → Journal
  | 0, s => s
  | n + 1, s => flushTrans n ((s.endWrite 0 false).getD s)

/-- `jbd_journal_purge_cp_trans` with flushing, once.  `skipped` buffers of the
    transaction are left alone: they are in the cache, up to date and clean, and
    no later transaction has a copy, so that `ext4_block_flush_buf` does nothing. -/
def purgeOnce (s : Journal) (skipped : ℕ) : Journal :=
  match s.cpQueue with
  | [] => s
  | t :: ts =>
    if t.dataCnt = 0 then { s with cpQueue := ts }.skipPureRevoke t
    else if t.dataCnt = t.writtenCnt then ({ s with cpQueue := ts }.pass t).writeSb
    else s.flushTrans (t.dataCnt - t.writtenCnt - skipped)

/-- `jbd_journal_alloc_block`; `none` is the failed assertion. -/
def allocBlock (s : Journal) (skipped : ℕ) : Option (ℕ × Journal) :=
  let s' := { s with last := s.wrap (u32 (s.last + 1)) }
  if s'.last = s'.start then
    let s' := s'.purgeOnce skipped
    if s'.last = s'.start then none else some (s.last, s')
  else some (s.last, s')

/-! ## Committing -/

/-- `__jbd_journal_commit_trans` begins with a transaction of `data` modified
    buffers and `revokes` revoke entries. -/
def commitTrans (s : Journal) (data revokes : ℕ) : Option Journal :=
  match s.cur with
  | some _ => none
  | none => some { s with cur := some ⟨⟨s.allocTransId, 0, 0, data, 0⟩, s.last, revokes, data,
    revokes, none, false⟩ }

/-- A block of the log is written. -/
def write (s : Journal) (block : ℕ) (r : LogRec) : Journal :=
  { s with log := Function.update s.log block r }

/-- The commit fails: its blocks are given back. -/
def rollback (s : Journal) (c : Commit) : Journal := { s with last := c.last, cur := none }

/-- What the commit does with a block of the log, or `rollback` if the block
    cannot be had from the cache. -/
def useBlock (s : Journal) (c : Commit) (fail : Bool) (skipped : ℕ)
    (f : ℕ → Commit → Journal → Journal) : Option Journal :=
  (s.allocBlock skipped).map fun (block, s) => if fail then s.rollback c else f block c.take s

/-- The end of `__jbd_journal_commit_trans`: the transaction joins the
    checkpoint queue. -/
def finish (s : Journal) (t : Trans) : Journal :=
  if s.cpQueue = [] then
    if t.dataCnt ≠ 0 then
      { s.startAt t with cpQueue := [t], cur := none }.writeSb.sbWrite
    else { s.pass t with cur := none }.writeSb
  else { s with cpQueue := s.cpQueue ++ [t], cur := none }

/-- A header block that is full, or the last one, is written. -/
def putHeader (s : Journal) (c : Commit) (block : ℕ) (r : LogRec) : Journal :=
  { s.write block r with cur := some { c with hdr := none } }

/-- The loop of `jbd_journal_prepare` begins a descriptor block. -/
def openDescriptor (block : ℕ) (c : Commit) (s : Journal) : Journal :=
  { s with cur := some { c.setStart block with hdr := some (block, .descriptor 0) } }

/-- `jbd_journal_prepare` writes a buffer behind the descriptor block `hdr`. -/
def logData (hdr tags block : ℕ) (c : Commit) (s : Journal) : Journal :=
  { s.write block .data with
    cur := some { c with hdr := some (hdr, .descriptor (tags + 1)), data := c.data - 1 } }

/-- The loop of `jbd_journal_prepare_revoke` begins a revoke block, and fills it. -/
def openRevoke (block : ℕ) (c : Commit) (s : Journal) : Journal :=
  { s with
    cur := some { c.setStart block with hdr := some (block, .revoke), revokes := c.revokes - s.revokeCap } }

/-- `jbd_trans_write_commit_block`. -/
def writeCommitBlock (block : ℕ) (c : Commit) (s : Journal) : Journal :=
  { s.write block (.commit c.trans.transId) with
    cur := some { c with committed := true }
    allocTransId := u32 (s.allocTransId + 1) }

/-- The next step of the commit. -/
def next (s : Journal) (fail : Bool) (skipped : ℕ) : Option Journal :=
  match s.cur with
  | none => none
  | some c =>
    match c.hdr with
    | some (block, .revoke) => some (s.putHeader c block (.revoke c.trans.transId))
    | some (block, .descriptor tags) =>
      if c.data = 0 ∨ tags = s.tagCap then some (s.putHeader c block (.descriptor c.trans.transId tags))
      else s.useBlock c fail skipped (logData block tags)
    | none =>
      if c.data ≠ 0 then s.useBlock c fail skipped openDescriptor
      else if c.revokes ≠ 0 then s.useBlock c fail skipped openRevoke
      else if c.trans.dataCnt = 0 ∧ c.revokeCnt = 0 then some { s with cur := none }
      else if c.committed then some (s.finish c.trans)
      else s.useBlock c fail skipped writeCommitBlock

/-- `jbd_trans_end_write` of a buffer of the transaction that is just
    committed, because the transaction revokes the block too. -/
def endWriteCur (s : Journal) : Option Journal :=
  match s.cur with
  | none => none
  | some c =>
    if c.committed = false ∨ c.trans.dataCnt ≤ c.trans.writtenCnt then none
    else some { s with
      cur := some { c with trans := { c.trans with writtenCnt := c.trans.writtenCnt + 1 } } }

/-! ## Runs -/

/-- What happens to the journal: a commit begins or goes on, or a buffer is
    written in place. -/
inductive Op where
  | commitTrans (data revokes : ℕ)
  | next (fail : Bool) (skipped : ℕ)
  | endWrite (i : ℕ) (stale : Bool)
  | endWriteCur
  deriving DecidableEq

/-- The journal after a step; `none` where the step cannot be made, or fails an
    assertion. -/
def step (s : Journal) : Op → Option Journal
  | .commitTrans data revokes => s.commitTrans data revokes
  | .next fail skipped => s.next fail skipped
  | .endWrite i stale => s.endWrite i stale
  | .endWriteCur => s.endWriteCur

end Journal

end Lwext4
