/-
  Commits on the ring of the log.

  Main results.
  * `reach_safe`: where the superblock makes sense and every transaction fits
    into the log, the transactions in the log never overlap, the next block is
    free, and the assertion of `jbd_journal_alloc_block` holds.
  * `too_large_fails`: a transaction of the size of the log fails it.
-/
import Lwext4.JbdRing

namespace Lwext4

namespace Journal

variable {s s' s'' : Journal} {a q k skipped : ℕ} {t : Area} {ts us : List Area}

/-! ## The commit -/

/-- The blocks that the transaction being committed has taken. -/
def inCommit (s : Journal) : ℕ := (s.cur.map fun c => c.trans.allocBlocks).getD 0

/-- The transaction being committed has its commit block in the log. -/
def isCommitted (s : Journal) : Bool := (s.cur.map Commit.committed).getD false

/-- The transaction being committed takes the blocks from offset `e` on, and
    has the sequence number `r`. -/
structure CurOk (s : Journal) (e r : ℕ) (c : Commit) : Prop where
  last : c.last = s.at' e
  start : c.trans.startIblock = if c.trans.allocBlocks = 0 then 0 else s.at' e
  transId : c.trans.transId = u32 r
  data_le : c.data ≤ c.trans.dataCnt
  revokes_le : c.revokes ≤ c.revokeCnt
  fresh : c.trans.allocBlocks = 0 → c.data = c.trans.dataCnt ∧ c.revokes = c.revokeCnt
  empty : c.trans.dataCnt = 0 → c.revokeCnt = 0 → c.trans.allocBlocks = 0 ∧ c.committed = false
  hdr : c.hdr ≠ none → 0 < c.trans.allocBlocks
  done : c.committed = true → c.hdr = none ∧ c.data = 0 ∧ c.revokes = 0 ∧ 0 < c.trans.allocBlocks
  written : c.trans.writtenCnt ≤ c.trans.dataCnt

/-- The invariant of the journal in memory: the log starts at offset `a` with
    sequence number `q`. -/
structure Mem (s : Journal) (a q : ℕ) : Prop where
  mem : s.MemAt a q s.inCommit
  allocId : s.allocTransId = u32 (q + s.areas.length + if s.isCommitted then 1 else 0)
  cur : ∀ c, s.cur = some c → s.CurOk (a + blocks s.areas) (q + s.areas.length) c
  written : ∀ t ∈ s.cpQueue, t.writtenCnt ≤ t.dataCnt

theorem CurOk.congr {e r : ℕ} {c : Commit} (hc : s.CurOk e r c) (hf : s'.first = s.first)
    (hm : s'.maxlen = s.maxlen) : s'.CurOk e r c := by
  have hat : s'.at' e = s.at' e := by rw [at', at', size, size, hf, hm]
  exact { hc with last := hc.last.trans hat.symm, start := by rw [hat]; exact hc.start }

theorem purgeLoop_written {us : List Trans} (hu : ∀ t ∈ us, t.writtenCnt ≤ t.dataCnt) :
    ∀ t ∈ (purgeLoop us s).cpQueue, t.writtenCnt ≤ t.dataCnt := by
  induction us generalizing s with
  | nil => simp [purgeLoop]
  | cons t us ih =>
    rw [purgeLoop]
    split_ifs
    · exact ih fun u hmem => hu u (List.mem_cons_of_mem _ hmem)
    · exact ih fun u hmem => hu u (List.mem_cons_of_mem _ hmem)
    · exact hu

theorem sbWrite_cpQueue (s : Journal) : s.sbWrite.cpQueue = s.cpQueue := by
  unfold sbWrite
  split_ifs <;> rfl

theorem endWrite_written {i : ℕ} {stale : Bool} (hw : s.endWrite i stale = some s')
    (hq : ∀ t ∈ s.cpQueue, t.writtenCnt ≤ t.dataCnt) : ∀ t ∈ s'.cpQueue, t.writtenCnt ≤ t.dataCnt := by
  rw [endWrite] at hw
  cases hi : s.cpQueue[i]? with
  | none =>
    rw [hi] at hw
    exact absurd hw (by simp)
  | some t =>
    rw [hi] at hw
    simp only at hw
    split_ifs at hw with hfull hlast
    · obtain rfl := Option.some_inj.1 hw
      rw [sbWrite_cpQueue]
      exact purgeLoop_written fun u hmem => hq u (List.mem_of_mem_tail hmem)
    · obtain rfl := Option.some_inj.1 hw
      intro u hmem
      rcases List.mem_or_eq_of_mem_set hmem with hmem | rfl
      · exact hq u hmem
      · exact Nat.lt_of_not_le hfull

theorem flushTrans_written (n : ℕ) (hq : ∀ t ∈ s.cpQueue, t.writtenCnt ≤ t.dataCnt) :
    ∀ t ∈ (flushTrans n s).cpQueue, t.writtenCnt ≤ t.dataCnt := by
  induction n generalizing s with
  | zero => exact hq
  | succ n ih =>
    rw [flushTrans]
    cases hw : s.endWrite 0 false with
    | none => exact ih hq
    | some s₁ => exact ih (endWrite_written hw hq)

theorem purgeOnce_written (hq : ∀ t ∈ s.cpQueue, t.writtenCnt ≤ t.dataCnt) :
    ∀ t ∈ (s.purgeOnce skipped).cpQueue, t.writtenCnt ≤ t.dataCnt := by
  rw [purgeOnce]
  cases hqueue : s.cpQueue with
  | nil => rwa [hqueue] at hq ⊢
  | cons t us =>
    have htail : ∀ u ∈ us, u.writtenCnt ≤ u.dataCnt := fun u hmem =>
      hq u (by rw [hqueue]; exact List.mem_cons_of_mem _ hmem)
    simp only
    split_ifs
    · exact htail
    · exact htail
    · exact flushTrans_written _ hq

theorem allocBlock_written {block : ℕ} (ha : s.allocBlock skipped = some (block, s'))
    (hq : ∀ t ∈ s.cpQueue, t.writtenCnt ≤ t.dataCnt) : ∀ t ∈ s'.cpQueue, t.writtenCnt ≤ t.dataCnt := by
  rw [allocBlock] at ha
  simp only at ha
  split_ifs at ha
  · obtain ⟨-, rfl⟩ := Prod.mk.inj (Option.some_inj.1 ha)
    exact purgeOnce_written hq
  · obtain ⟨-, rfl⟩ := Prod.mk.inj (Option.some_inj.1 ha)
    exact hq

/-- Checkpointing keeps the invariant. -/
theorem Mem.checkpointed (hm : s.Mem a q) (hc : Checkpointed s s' a q k)
    (hw : ∀ t ∈ s'.cpQueue, t.writtenCnt ≤ t.dataCnt) :
    s'.Mem (a + blocks (s.areas.take k)) (q + k) := by
  have hin : s'.inCommit = s.inCommit := by rw [inCommit, inCommit, hc.same.cur]
  have hcom : s'.isCommitted = s.isCommitted := by rw [isCommitted, isCommitted, hc.same.cur]
  have hsplit := blocks_take_drop s.areas k
  have hlen : q + k + s'.areas.length = q + s.areas.length := by
    have hle := hc.le
    rw [hc.queue, List.length_drop]
    omega
  refine ⟨?_, ?_, fun c hcur => ?_, hw⟩
  · rw [hin]
    exact hm.mem.checkpointed hc
  · rw [hc.same.allocTransId, hm.allocId, hcom, hlen]
  · rw [hlen, hc.queue, Nat.add_assoc a, hsplit]
    exact (hm.cur c (by rw [← hc.same.cur, hcur])).congr hc.same.first hc.same.maxlen

/-- What a step of the commit does to the journal once it has its block. -/
structure Uses (s s' : Journal) (c' : Commit) : Prop where
  first : s'.first = s.first
  maxlen : s'.maxlen = s.maxlen
  tagCap : s'.tagCap = s.tagCap
  revokeCap : s'.revokeCap = s.revokeCap
  start : s'.start = s.start
  last : s'.last = s.last
  transId : s'.transId = s.transId
  cpQueue : s'.cpQueue = s.cpQueue
  disk : s'.diskStart = s.diskStart ∧ s'.diskSequence = s.diskSequence
  cur : s'.cur = some c'
  allocId : s'.allocTransId = if c'.committed then u32 (s.allocTransId + 1) else s.allocTransId

/-- A step that takes a block of the log. -/
theorem Mem.useBlock {c c' : Commit} {block : ℕ} {s₁ : Journal} (hm : s.Mem a q) (hc : s.cur = some c)
    (hopen : c.committed = false) (ha : s.allocBlock skipped = some (block, s₁)) (hu : Uses s₁ s' c')
    (htrans : c'.trans.allocBlocks = c.trans.allocBlocks + 1)
    (hok : ∀ e r, s.CurOk e r c → block = s.at' (e + c.trans.allocBlocks) → s.CurOk e r c') :
    ∃ k, Checkpointed { s with last := s₁.last } s₁ a q k ∧
      s'.Mem (a + blocks (s.areas.take k)) (q + k) := by
  have hn : s.inCommit = c.trans.allocBlocks := by rw [inCommit, hc]; rfl
  obtain ⟨hblock, k, hk, hmem⟩ := allocBlock_spec hm.mem ha
  have hareas : s'.areas = s₁.areas := by rw [areas, areas, hu.cpQueue]
  have hqueue : s₁.areas = s.areas.drop k := hk.queue
  have hsplit := blocks_take_drop s.areas k
  have hle : k ≤ s.areas.length := hk.le
  have hfirst : s'.first = s.first := hu.first.trans hk.same.first
  have hmax : s'.maxlen = s.maxlen := hu.maxlen.trans hk.same.maxlen
  have hin : s'.inCommit = s.inCommit + 1 := by
    rw [inCommit, hu.cur, hn, ← htrans]
    rfl
  have hid₁ : s₁.allocTransId = s.allocTransId := hk.same.allocTransId
  have hids : q + k + s'.areas.length = q + s.areas.length := by
    rw [hareas, hqueue, List.length_drop]
    omega
  refine ⟨k, hk, ?_, ?_, fun d hd => ?_, ?_⟩
  · rw [hin]
    exact hmem.congr hu.first hu.maxlen hu.tagCap hu.revokeCap hu.start hu.transId hu.cpQueue hu.last
  · have hold := hm.allocId
    rw [isCommitted, hc, Option.map_some, hopen] at hold
    rw [hu.allocId, hids, isCommitted, hu.cur, Option.map_some, Option.getD_some, hid₁]
    split_ifs
    · rw [hold, u32_u32_add]
      rfl
    · exact hold
  · obtain rfl : c' = d := by simpa [hu.cur] using hd
    rw [hids, hareas, hqueue, Nat.add_assoc a, hsplit]
    refine (hok _ _ (hm.cur c hc) ?_).congr hfirst hmax
    rw [hblock, hn]
  · rw [hu.cpQueue]
    exact allocBlock_written ha hm.written

/-- What the next step of a commit can be. -/
inductive NextStep (s : Journal) (c : Commit) (skipped : ℕ) : Journal → Prop
  | revoke (block : ℕ) (hh : c.hdr = some (block, .revoke)) :
    NextStep s c skipped (s.putHeader c block (.revoke c.trans.transId))
  | descriptor (block tags : ℕ) (hh : c.hdr = some (block, .descriptor tags))
    (hfull : c.data = 0 ∨ tags = s.tagCap) :
    NextStep s c skipped (s.putHeader c block (.descriptor c.trans.transId tags))
  | logData (hdr tags block : ℕ) (s₁ : Journal) (hh : c.hdr = some (hdr, .descriptor tags))
    (hd : c.data ≠ 0) (ht : tags ≠ s.tagCap) (ha : s.allocBlock skipped = some (block, s₁)) :
    NextStep s c skipped (Journal.logData hdr tags block c.take s₁)
  | openDescriptor (block : ℕ) (s₁ : Journal) (hh : c.hdr = none) (hd : c.data ≠ 0)
    (ha : s.allocBlock skipped = some (block, s₁)) :
      NextStep s c skipped (Journal.openDescriptor block c.take s₁)
  | openRevoke (block : ℕ) (s₁ : Journal) (hh : c.hdr = none) (hd : c.data = 0) (hr : c.revokes ≠ 0)
    (ha : s.allocBlock skipped = some (block, s₁)) : NextStep s c skipped (Journal.openRevoke block c.take s₁)
  | commitBlock (block : ℕ) (s₁ : Journal) (hh : c.hdr = none) (hd : c.data = 0) (hr : c.revokes = 0)
    (hsome : ¬ (c.trans.dataCnt = 0 ∧ c.revokeCnt = 0)) (hopen : c.committed = false)
    (ha : s.allocBlock skipped = some (block, s₁)) :
      NextStep s c skipped (Journal.writeCommitBlock block c.take s₁)
  | rollback (block : ℕ) (s₁ : Journal)
    (hopen : c.hdr ≠ none ∨ c.data ≠ 0 ∨ c.revokes ≠ 0 ∨ c.committed = false)
    (ha : s.allocBlock skipped = some (block, s₁)) : NextStep s c skipped (s₁.rollback c)
  | empty (h0 : c.trans.dataCnt = 0 ∧ c.revokeCnt = 0) : NextStep s c skipped { s with cur := none }
  | finish (hsome : ¬ (c.trans.dataCnt = 0 ∧ c.revokeCnt = 0)) (hdone : c.committed = true) :
    NextStep s c skipped (s.finish c.trans)

theorem useBlock_cases {c : Commit} {fail : Bool} {f : ℕ → Commit → Journal → Journal}
    (hu : s.useBlock c fail skipped f = some s') : ∃ block s₁, s.allocBlock skipped = some (block, s₁) ∧
      (s' = s₁.rollback c ∨ s' = f block c.take s₁) := by
  rw [useBlock, Option.map_eq_some_iff] at hu
  obtain ⟨⟨block, s₁⟩, ha, rfl⟩ := hu
  refine ⟨block, s₁, ha, ?_⟩
  cases fail with
  | true => exact .inl rfl
  | false => exact .inr rfl

theorem next_cases {c : Commit} {fail : Bool} (hc : s.cur = some c)
    (hn : s.next fail skipped = some s') :
    NextStep s c skipped s' := by
  rw [next, hc] at hn
  simp only at hn
  cases hh : c.hdr with
  | some hdr =>
    obtain ⟨block, h⟩ := hdr
    cases h with
    | revoke =>
      rw [hh] at hn
      obtain rfl := Option.some_inj.1 hn
      exact .revoke block hh
    | descriptor tags =>
      rw [hh] at hn
      simp only at hn
      split_ifs at hn with hfull
      · obtain rfl := Option.some_inj.1 hn
        exact .descriptor block tags hh hfull
      · obtain ⟨b, s₁, ha, rfl | rfl⟩ := useBlock_cases hn
        · exact .rollback b s₁ (.inl (by rw [hh]; simp)) ha
        · exact .logData block tags b s₁ hh (fun h => hfull (.inl h)) (fun h => hfull (.inr h)) ha
  | none =>
    rw [hh] at hn
    simp only at hn
    split_ifs at hn with hd hr h0 hdone
    · obtain ⟨b, s₁, ha, rfl | rfl⟩ := useBlock_cases hn
      · exact .rollback b s₁ (.inr (.inl hd)) ha
      · exact .openDescriptor b s₁ hh hd ha
    · obtain ⟨b, s₁, ha, rfl | rfl⟩ := useBlock_cases hn
      · exact .rollback b s₁ (.inr (.inr (.inl hr))) ha
      · exact .openRevoke b s₁ hh (not_not.1 hd) hr ha
    · obtain rfl := Option.some_inj.1 hn
      exact .empty h0
    · obtain rfl := Option.some_inj.1 hn
      exact .finish h0 hdone
    · obtain ⟨b, s₁, ha, rfl | rfl⟩ := useBlock_cases hn
      · exact .rollback b s₁ (.inr (.inr (.inr (by simpa using hdone)))) ha
      · exact .commitBlock b s₁ hh (not_not.1 hd) (not_not.1 hr) h0 (by simpa using hdone) ha

theorem CurOk.open_of {e r : ℕ} {c : Commit} (hok : s.CurOk e r c)
    (h : c.hdr ≠ none ∨ c.data ≠ 0 ∨ c.revokes ≠ 0 ∨ c.committed = false) : c.committed = false := by
  by_contra hne
  obtain ⟨hh, hd, hr, -⟩ := hok.done (by simpa using hne)
  rcases h with h | h | h | h
  · exact h hh
  · exact h hd
  · exact h hr
  · exact hne h

/-- A block that is the first one becomes the start of the transaction. -/
theorem CurOk.setStart {e r : ℕ} {c : Commit} (hok : s.CurOk e r c) (hg : s.Geometry) {block : ℕ}
    (hb : block = s.at' (e + c.trans.allocBlocks)) :
    (c.take.setStart block).trans.startIblock = s.at' e := by
  have hpos : s.at' e ≠ 0 := by
    have hle := first_le_at s e
    have hfirst := hg.first_pos
    omega
  unfold Commit.setStart
  by_cases h0 : c.trans.allocBlocks = 0
  · have hstart : c.take.trans.startIblock = 0 := hok.start.trans (if_pos h0)
    rw [if_pos hstart]
    show block = _
    rw [hb, h0, Nat.add_zero]
  · have hstart : c.take.trans.startIblock = s.at' e := hok.start.trans (if_neg h0)
    rw [if_neg (by rw [hstart]; exact hpos), hstart]

theorem setStart_eq (c : Commit) (block : ℕ) : ∃ n,
    c.setStart block = { c with trans := { c.trans with startIblock := n } } := by
  unfold Commit.setStart
  split_ifs
  · exact ⟨block, rfl⟩
  · exact ⟨c.trans.startIblock, rfl⟩

/-- The committed transaction joins the queue. -/
theorem Mem.finish {c : Commit} (hm : s.Mem a q) (hc : s.cur = some c) (hdone : c.committed = true) :
    (s.finish c.trans).Mem (if s.cpQueue = [] ∧ c.trans.dataCnt = 0 then a + c.trans.allocBlocks else a)
      (if s.cpQueue = [] ∧ c.trans.dataCnt = 0 then q + 1 else q) := by
  have hok := hm.cur c hc
  obtain ⟨-, -, -, hpos⟩ := hok.done hdone
  have hn : s.inCommit = c.trans.allocBlocks := by rw [inCommit, hc]; rfl
  have hg := hm.mem.geo
  have hstart : c.trans.startIblock = s.at' (a + blocks s.areas) := by
    rw [hok.start, if_neg hpos.ne']
  have hroom := hm.mem.room
  have hlast := hm.mem.last
  have hid := hm.allocId
  rw [isCommitted, hc, Option.map_some, Option.getD_some, hdone, if_pos rfl] at hid
  rw [hn] at hroom hlast
  have harea : Laid s (a + blocks s.areas) (q + s.areas.length) [c.trans.area] :=
    ⟨hstart, hok.transId, hpos, trivial⟩
  by_cases hempty : s.cpQueue = []
  · have hareas : s.areas = [] := by rw [areas, hempty, List.map_nil]
    rw [hareas] at hstart harea hroom hlast hid hok
    rw [blocks_nil, Nat.zero_add] at hroom
    rw [blocks_nil, Nat.add_zero] at hlast
    by_cases hdata : c.trans.dataCnt ≠ 0
    · rw [Journal.finish, if_pos hempty, if_pos hdata, if_neg (fun h => hdata h.2), if_neg (fun h => hdata h.2)]
      have hareas' : ({ s.startAt c.trans with cpQueue := [c.trans], cur := none }.writeSb.sbWrite :
        Journal).areas = [c.trans.area] := rfl
      refine ⟨⟨?_, ⟨?_, ?_⟩, ?_, ?_, ?_⟩, ?_, ?_, ?_⟩
      · exact ⟨hg.first_pos, hg.first_lt, hg.maxlen_le, hg.tagCap_pos, hg.revokeCap_pos⟩
      · show s.wrap c.trans.startIblock = s.at' a
        rw [hstart]
        exact hg.wrap_at a
      · exact hok.transId
      · rw [hareas']
        exact harea.congr rfl rfl
      · rw [hareas']
        show s.last = s.at' (a + blocks [c.trans.area] + 0)
        simpa [Trans.area] using hlast
      · rw [hareas']
        show blocks [c.trans.area] + 0 < s.size
        simpa [Trans.area] using hroom
      · rw [hareas']
        exact hid
      · intro d hd
        exact absurd hd (by simp [writeSb, sbWrite])
      · intro u hmem
        obtain rfl : u = c.trans := by simpa [writeSb, sbWrite] using hmem
        exact hok.written
    · have hboth : s.cpQueue = [] ∧ c.trans.dataCnt = 0 := ⟨hempty, not_not.1 hdata⟩
      rw [Journal.finish, if_pos hempty, if_neg hdata, if_pos hboth, if_pos hboth]
      have hpass := hg.pass_starts hstart hok.transId hroom.le
      have hareas' : ({ s.pass c.trans with cur := none }.writeSb : Journal).areas = [] := hareas
      refine ⟨⟨?_, ⟨?_, ?_⟩, ?_, ?_, ?_⟩, ?_, ?_, ?_⟩
      · exact ⟨hg.first_pos, hg.first_lt, hg.maxlen_le, hg.tagCap_pos, hg.revokeCap_pos⟩
      · exact hpass.start
      · exact hpass.transId
      · rw [hareas']
        trivial
      · rw [hareas']
        exact hlast
      · rw [hareas']
        exact hg.size_pos
      · rw [hareas']
        exact hid
      · intro d hd
        exact absurd hd (by simp [writeSb])
      · exact hm.written
  · rw [Journal.finish, if_neg hempty, if_neg (fun h => hempty h.1), if_neg (fun h => hempty h.1)]
    have hareas' : ({ s with cpQueue := s.cpQueue ++ [c.trans], cur := none } : Journal).areas =
        s.areas ++ [c.trans.area] := by
      rw [areas, areas, List.map_append]
      rfl
    refine ⟨⟨?_, ⟨?_, ?_⟩, ?_, ?_, ?_⟩, ?_, ?_, ?_⟩
    · exact ⟨hg.first_pos, hg.first_lt, hg.maxlen_le, hg.tagCap_pos, hg.revokeCap_pos⟩
    · exact hm.mem.starts.start
    · exact hm.mem.starts.transId
    · rw [hareas']
      exact (laid_append.2 ⟨hm.mem.laid, harea⟩).congr rfl rfl
    · rw [hareas', blocks_append]
      show s.last = s.at' (a + (blocks s.areas + blocks [c.trans.area]) + 0)
      simpa [Trans.area, Nat.add_assoc] using hlast
    · rw [hareas', blocks_append]
      show blocks s.areas + blocks [c.trans.area] + 0 < s.size
      simpa [Trans.area] using hroom
    · rw [hareas', List.length_append]
      exact hid
    · intro d hd
      exact absurd hd (by simp)
    · intro u hmem
      rcases List.mem_append.1 hmem with hmem | hmem
      · exact hm.written u hmem
      · obtain rfl : u = c.trans := by simpa using hmem
        exact hok.written

/-- The blocks of a commit that fails are given back. -/
theorem Mem.rollback {c : Commit} {block : ℕ} {s₁ : Journal} (hm : s.Mem a q) (hc : s.cur = some c)
    (hopen : c.committed = false) (ha : s.allocBlock skipped = some (block, s₁)) :
    ∃ k, Checkpointed { s with last := s₁.last } s₁ a q k ∧
      (s₁.rollback c).Mem (a + blocks (s.areas.take k)) (q + k) := by
  have hn : s.inCommit = c.trans.allocBlocks := by rw [inCommit, hc]; rfl
  obtain ⟨-, k, hk, hmem⟩ := allocBlock_spec hm.mem ha
  have hok := hm.cur c hc
  have hqueue : s₁.areas = s.areas.drop k := hk.queue
  have hsplit := blocks_take_drop s.areas k
  have hle : k ≤ s.areas.length := hk.le
  have hold := hm.allocId
  rw [isCommitted, hc, Option.map_some, hopen] at hold
  have hwritten : ∀ t ∈ s₁.cpQueue, t.writtenCnt ≤ t.dataCnt := allocBlock_written ha hm.written
  refine ⟨k, hk, ⟨?_, ?_, ?_, ?_, ?_⟩, ?_, ?_, hwritten⟩
  · exact ⟨hmem.geo.first_pos, hmem.geo.first_lt, hmem.geo.maxlen_le, hmem.geo.tagCap_pos,
      hmem.geo.revokeCap_pos⟩
  · exact ⟨hmem.starts.start, hmem.starts.transId⟩
  · exact hmem.laid.congr rfl rfl
  · show c.last = s₁.at' (a + blocks (s.areas.take k) + blocks s₁.areas + 0)
    rw [hok.last, hk.same.at_eq, hqueue]
    show s.at' _ = s.at' _
    congr 1
    omega
  · show blocks s₁.areas + 0 < s₁.size
    have hroom := hmem.room
    omega
  · show s₁.allocTransId = u32 (q + k + s₁.areas.length + 0)
    rw [hk.same.allocTransId, hqueue, List.length_drop]
    show s.allocTransId = _
    rw [hold]
    congr 1
    simp only [Option.getD_some, Bool.false_eq_true, if_false]
    omega
  · intro d hd
    exact absurd hd (by simp [Journal.rollback])

/-- A change of the log and of the commit that takes no block. -/
theorem Mem.setCur {c c' : Commit} (hm : s.Mem a q) (hc : s.cur = some c) (hu : Uses s s' c')
    (hcom : c'.committed = c.committed) (hid : s'.allocTransId = s.allocTransId)
    (halloc : c'.trans.allocBlocks = c.trans.allocBlocks)
    (hok : ∀ e r, s.CurOk e r c → s.CurOk e r c') : s'.Mem a q := by
  have hareas : s'.areas = s.areas := by rw [areas, areas, hu.cpQueue]
  have hin : s'.inCommit = s.inCommit := by
    rw [inCommit, inCommit, hu.cur, hc]
    exact halloc
  have hcom' : s'.isCommitted = s.isCommitted := by
    rw [isCommitted, isCommitted, hu.cur, hc]
    exact hcom
  refine ⟨?_, ?_, fun d hd => ?_, ?_⟩
  · rw [hin]
    exact hm.mem.congr hu.first hu.maxlen hu.tagCap hu.revokeCap hu.start hu.transId hu.cpQueue hu.last
  · rw [hareas, hcom', hid]
    exact hm.allocId
  · obtain rfl : c' = d := by simpa [hu.cur] using hd
    rw [hareas]
    exact (hok _ _ (hm.cur c hc)).congr hu.first hu.maxlen
  · rw [hu.cpQueue]
    exact hm.written

theorem Mem.putHeader {c : Commit} {block : ℕ} {h : Header} (hm : s.Mem a q) (hc : s.cur = some c)
    (hh : c.hdr = some (block, h)) (r : LogRec) : (s.putHeader c block r).Mem a q := by
  have hopen : c.committed = false := (hm.cur c hc).open_of (.inl (by rw [hh]; simp))
  refine @Mem.setCur _ _ _ _ _ { c with hdr := none } hm hc ⟨rfl, rfl, rfl, rfl, rfl, rfl, rfl,
    rfl, ⟨rfl, rfl⟩, rfl, ?_⟩
    rfl rfl rfl fun e r hok => ?_
  · exact (if_neg (by simp [hopen])).symm
  · exact { hok with hdr := fun h => absurd rfl h, done := fun h => absurd (hopen.symm.trans h) (by simp) }

theorem uses_logData {c : Commit} (hopen : c.committed = false) (hdr tags block : ℕ) :
    Uses s (logData hdr tags block c.take s)
      { c.take with hdr := some (hdr, .descriptor (tags + 1)), data := c.data - 1 } :=
  ⟨rfl, rfl, rfl, rfl, rfl, rfl, rfl, rfl, ⟨rfl, rfl⟩, rfl, (if_neg (by simp [Commit.take, hopen])).symm⟩

theorem uses_openDescriptor {c : Commit} (hopen : c.committed = false) (block : ℕ) :
    Uses s (openDescriptor block c.take s)
      { c.take.setStart block with hdr := some (block, .descriptor 0) } := by
  obtain ⟨n, hset⟩ := setStart_eq c.take block
  refine ⟨rfl, rfl, rfl, rfl, rfl, rfl, rfl, rfl, ⟨rfl, rfl⟩, rfl, ?_⟩
  rw [hset]
  exact (if_neg (by simp [Commit.take, hopen])).symm

theorem uses_openRevoke {c : Commit} (hopen : c.committed = false) (block : ℕ) :
    Uses s (openRevoke block c.take s)
      { c.take.setStart block with hdr := some (block, .revoke), revokes := c.revokes - s.revokeCap } := by
  obtain ⟨n, hset⟩ := setStart_eq c.take block
  refine ⟨rfl, rfl, rfl, rfl, rfl, rfl, rfl, rfl, ⟨rfl, rfl⟩, ?_, ?_⟩
  · rw [openRevoke, hset]
    rfl
  · rw [hset]
    exact (if_neg (by simp [Commit.take, hopen])).symm

theorem uses_writeCommitBlock (c : Commit) (block : ℕ) :
    Uses s (writeCommitBlock block c.take s) { c.take with committed := true } :=
  ⟨rfl, rfl, rfl, rfl, rfl, rfl, rfl, rfl, ⟨rfl, rfl⟩, rfl, rfl⟩

/-- A buffer is logged. -/
theorem Mem.logData {c : Commit} {hdr tags block : ℕ} {s₁ : Journal} (hm : s.Mem a q) (hc : s.cur = some c)
    (hh : c.hdr = some (hdr, .descriptor tags)) (ha : s.allocBlock skipped = some (block, s₁)) :
    ∃ k, Checkpointed { s with last := s₁.last } s₁ a q k ∧
      (Journal.logData hdr tags block c.take s₁).Mem (a + blocks (s.areas.take k)) (q + k) := by
  have hopen := (hm.cur c hc).open_of (.inl (by rw [hh]; simp))
  refine hm.useBlock hc hopen ha (uses_logData hopen hdr tags block) rfl fun e r hok hb => ?_
  have hpos := hok.hdr (by rw [hh]; simp)
  refine ⟨hok.last, ?_, hok.transId, (Nat.sub_le ..).trans hok.data_le, hok.revokes_le,
    fun h => absurd h (Nat.succ_ne_zero _), ?_, fun _ => Nat.succ_pos _,
    fun h => absurd (hopen.symm.trans h) (by simp), hok.written⟩
  · exact hok.start.trans (by rw [if_neg hpos.ne']; exact (if_neg (Nat.succ_ne_zero _)).symm)
  · intro h0 h1
    exact absurd (hok.empty h0 h1).1 hpos.ne'

/-- A descriptor block is begun. -/
theorem Mem.openDescriptor {c : Commit} {block : ℕ} {s₁ : Journal} (hm : s.Mem a q) (hc : s.cur = some c)
    (hd : c.data ≠ 0) (ha : s.allocBlock skipped = some (block, s₁)) :
    ∃ k, Checkpointed { s with last := s₁.last } s₁ a q k ∧
      (Journal.openDescriptor block c.take s₁).Mem (a + blocks (s.areas.take k)) (q + k) := by
  have hopen := (hm.cur c hc).open_of (.inr (.inl hd))
  obtain ⟨n, hset⟩ := setStart_eq c.take block
  refine hm.useBlock hc hopen ha (uses_openDescriptor hopen block) (by rw [hset]; rfl) fun e r hok hb => ?_
  have hstart := hok.setStart hm.mem.geo hb
  rw [hset] at hstart ⊢
  refine ⟨hok.last, ?_, hok.transId, hok.data_le, hok.revokes_le, fun h => absurd h (Nat.succ_ne_zero _),
    ?_, fun _ => Nat.succ_pos _, fun h => absurd (hopen.symm.trans h) (by simp), hok.written⟩
  · exact hstart.trans (if_neg (Nat.succ_ne_zero _)).symm
  · intro h0 _
    exact absurd (Nat.le_zero.1 (hok.data_le.trans h0.le)) hd

/-- A revoke block is begun. -/
theorem Mem.openRevoke {c : Commit} {block : ℕ} {s₁ : Journal} (hm : s.Mem a q) (hc : s.cur = some c)
    (hr : c.revokes ≠ 0) (ha : s.allocBlock skipped = some (block, s₁)) :
    ∃ k, Checkpointed { s with last := s₁.last } s₁ a q k ∧
      (Journal.openRevoke block c.take s₁).Mem (a + blocks (s.areas.take k)) (q + k) := by
  have hopen := (hm.cur c hc).open_of (.inr (.inr (.inl hr)))
  obtain ⟨n, hset⟩ := setStart_eq c.take block
  refine hm.useBlock hc hopen ha (uses_openRevoke hopen block) (by rw [hset]; rfl) fun e r hok hb => ?_
  have hstart := hok.setStart hm.mem.geo hb
  rw [hset] at hstart ⊢
  refine ⟨hok.last, ?_, hok.transId, hok.data_le, (Nat.sub_le ..).trans hok.revokes_le,
    fun h => absurd h (Nat.succ_ne_zero _), ?_, fun _ => Nat.succ_pos _,
    fun h => absurd (hopen.symm.trans h) (by simp), hok.written⟩
  · exact hstart.trans (if_neg (Nat.succ_ne_zero _)).symm
  · intro _ h1
    exact absurd (Nat.le_zero.1 (hok.revokes_le.trans h1.le)) hr

/-- The commit block is written. -/
theorem Mem.writeCommitBlock {c : Commit} {block : ℕ} {s₁ : Journal} (hm : s.Mem a q) (hc : s.cur = some c)
    (hh : c.hdr = none) (hd : c.data = 0) (hr : c.revokes = 0)
    (hsome : ¬ (c.trans.dataCnt = 0 ∧ c.revokeCnt = 0)) (hopen : c.committed = false)
    (ha : s.allocBlock skipped = some (block, s₁)) : ∃ k, Checkpointed { s with last := s₁.last } s₁ a q k ∧
      (Journal.writeCommitBlock block c.take s₁).Mem (a + blocks (s.areas.take k)) (q + k) := by
  refine hm.useBlock hc hopen ha (uses_writeCommitBlock c block) rfl fun e r hok hb => ?_
  have hpos : c.trans.allocBlocks ≠ 0 := by
    intro h0
    obtain ⟨h1, h2⟩ := hok.fresh h0
    exact hsome ⟨h1.symm.trans hd, h2.symm.trans hr⟩
  refine ⟨hok.last, ?_, hok.transId, hok.data_le, hok.revokes_le, fun h => absurd h (Nat.succ_ne_zero _),
    fun h0 h1 => absurd ⟨h0, h1⟩ hsome, fun _ => Nat.succ_pos _, fun _ => ⟨hh, hd, hr, Nat.succ_pos _⟩,
    hok.written⟩
  exact hok.start.trans (by rw [if_neg hpos]; exact (if_neg (Nat.succ_ne_zero _)).symm)

/-- A transaction without changes is forgotten. -/
theorem Mem.empty {c : Commit} (hm : s.Mem a q) (hc : s.cur = some c)
    (h0 : c.trans.dataCnt = 0 ∧ c.revokeCnt = 0) : ({ s with cur := none } : Journal).Mem a q := by
  obtain ⟨halloc, hopen⟩ := (hm.cur c hc).empty h0.1 h0.2
  have hin : s.inCommit = 0 := by
    rw [inCommit, hc]
    exact halloc
  have hmem := hm.mem
  rw [hin] at hmem
  have hid := hm.allocId
  rw [isCommitted, hc, Option.map_some, hopen] at hid
  exact ⟨hmem.congr rfl rfl rfl rfl rfl rfl rfl rfl, hid, fun d hd => absurd hd (by simp), hm.written⟩

/-- **Each step of a commit** keeps the invariant. -/
theorem Mem.nextStep {c : Commit} (hm : s.Mem a q) (hc : s.cur = some c) (hn : NextStep s c skipped s') :
    ∃ a' q', s'.Mem a' q' := by
  cases hn with
  | revoke block hh => exact ⟨a, q, hm.putHeader hc hh _⟩
  | descriptor block tags hh => exact ⟨a, q, hm.putHeader hc hh _⟩
  | logData hdr tags block s₁ hh hd ht ha =>
    obtain ⟨k, -, hm'⟩ := hm.logData hc hh ha
    exact ⟨_, _, hm'⟩
  | openDescriptor block s₁ hh hd ha =>
    obtain ⟨k, -, hm'⟩ := hm.openDescriptor hc hd ha
    exact ⟨_, _, hm'⟩
  | openRevoke block s₁ hh hd hr ha =>
    obtain ⟨k, -, hm'⟩ := hm.openRevoke hc hr ha
    exact ⟨_, _, hm'⟩
  | commitBlock block s₁ hh hd hr hsome hopen ha =>
    obtain ⟨k, -, hm'⟩ := hm.writeCommitBlock hc hh hd hr hsome hopen ha
    exact ⟨_, _, hm'⟩
  | rollback block s₁ hopen ha =>
    obtain ⟨k, -, hm'⟩ := hm.rollback hc ((hm.cur c hc).open_of hopen) ha
    exact ⟨_, _, hm'⟩
  | empty h0 => exact ⟨a, q, hm.empty hc h0⟩
  | finish hsome hdone => exact ⟨_, _, hm.finish hc hdone⟩

/-- A commit begins. -/
theorem Mem.commitTrans {data revokes : ℕ} (hm : s.Mem a q) (hs : s.commitTrans data revokes = some s') :
    s'.Mem a q := by
  rw [Journal.commitTrans] at hs
  cases hc : s.cur with
  | some c =>
    rw [hc] at hs
    exact absurd hs (by simp)
  | none =>
    rw [hc] at hs
    obtain rfl := Option.some_inj.1 hs
    have hin : s.inCommit = 0 := by rw [inCommit, hc]; rfl
    have hmem := hm.mem
    have hid := hm.allocId
    rw [hin] at hmem
    rw [isCommitted, hc] at hid
    refine ⟨hmem.congr rfl rfl rfl rfl rfl rfl rfl rfl, hid, fun c hcur => ?_, hm.written⟩
    obtain rfl := Option.some_inj.1 hcur
    exact ⟨hmem.last, rfl, hid, le_rfl, le_rfl, fun _ => ⟨rfl, rfl⟩, fun _ _ => ⟨rfl, rfl⟩,
      fun h => absurd rfl h, fun h => absurd h (by simp), Nat.zero_le _⟩

/-- A buffer of the committed transaction is written. -/
theorem endWriteCur_cases (hs : s.endWriteCur = some s') : ∃ c, s.cur = some c ∧ c.committed = true ∧
    c.trans.writtenCnt < c.trans.dataCnt ∧
    s' = { s with cur := some { c with trans := { c.trans with writtenCnt := c.trans.writtenCnt + 1 } } } := by
  rw [endWriteCur] at hs
  cases hc : s.cur with
  | none =>
    rw [hc] at hs
    exact absurd hs (by simp)
  | some c =>
    rw [hc] at hs
    simp only at hs
    split_ifs at hs with hno
    obtain rfl := Option.some_inj.1 hs
    refine ⟨c, rfl, ?_, Nat.lt_of_not_le fun h => hno (.inr h), rfl⟩
    by_contra hne
    exact hno (.inl (by simpa using hne))

theorem Mem.endWriteCur (hm : s.Mem a q) (hs : s.endWriteCur = some s') : s'.Mem a q := by
  obtain ⟨c, hc, -, hlt, rfl⟩ := endWriteCur_cases hs
  have hmem := hm.mem
  have hin : s.inCommit = c.trans.allocBlocks := by rw [inCommit, hc]; rfl
  have hid := hm.allocId
  rw [hin] at hmem
  rw [isCommitted, hc] at hid
  refine ⟨hmem.congr rfl rfl rfl rfl rfl rfl rfl rfl, hid, fun d hd => ?_, hm.written⟩
  obtain rfl := Option.some_inj.1 hd
  have hok := hm.cur c hc
  exact ⟨hok.last, hok.start, hok.transId, hok.data_le, hok.revokes_le, hok.fresh, hok.empty,
    hok.hdr, hok.done, hlt⟩

/-- **Every step** keeps the invariant. -/
theorem Mem.step (hm : s.Mem a q) {op : Op} (hs : s.step op = some s') : ∃ a' q', s'.Mem a' q' := by
  cases op with
  | commitTrans data revokes => exact ⟨a, q, hm.commitTrans hs⟩
  | next fail skipped =>
    cases hc : s.cur with
    | none =>
      rw [Journal.step, next, hc] at hs
      exact absurd hs (by simp)
    | some c => exact hm.nextStep hc (next_cases hc hs)
  | endWrite i stale =>
    have hroom : blocks s.areas ≤ s.size := (Nat.le_add_right ..).trans hm.mem.room.le
    obtain ⟨k, hk⟩ := endWrite_spec hm.mem.geo hm.mem.starts hm.mem.laid hroom hs
    exact ⟨_, _, hm.checkpointed hk (endWrite_written hs hm.written)⟩
  | endWriteCur => exact ⟨a, q, hm.endWriteCur hs⟩

theorem mem_start {first maxlen sequence tagCap revokeCap : ℕ} {log : ℕ → LogRec}
    (hg : (journalStart first maxlen sequence tagCap revokeCap log).Geometry) :
    (journalStart first maxlen sequence tagCap revokeCap log).Mem 0 (sequence + 1) where
  mem := by
    refine ⟨hg, ⟨?_, rfl⟩, trivial, ?_, hg.size_pos⟩
    · exact Ring.pos_zero.symm
    · exact Ring.pos_zero.symm
  allocId := rfl
  cur := fun c hc => absurd hc (by simp [journalStart])
  written := fun t ht => absurd ht (by simp [journalStart])

/-! ## Safety of the ring -/

/-- The log blocks of a transaction, going round the ring. -/
def areaBlocks (s : Journal) (t : Area) : List ℕ :=
  (List.range t.blocks).map fun k => Ring.pos s.first s.size (t.start - s.first + k)

/-- The committed transactions in the log, and the one being committed. -/
def live (s : Journal) : List Area := s.areas ++ (s.cur.map fun c => c.trans.area).toList

/-- The log blocks from the start of the log up to the last one. -/
def used (s : Journal) : List ℕ :=
  (List.range ((s.last + s.size - s.start) % s.size)).map fun k =>
    Ring.pos s.first s.size (s.start - s.first + k)

/-- Log ring safety: positions are in the log, transactions do not overlap and
    are between start and last, and the block handed out next is none of
    theirs. -/
structure RingSafe (s : Journal) : Prop where
  start : s.first ≤ s.start ∧ s.start < s.maxlen
  last : s.first ≤ s.last ∧ s.last < s.maxlen
  disjoint : (s.live.flatMap s.areaBlocks).Nodup
  inside : ∀ b ∈ s.live.flatMap s.areaBlocks, b ∈ s.used
  alloc : ∀ skipped block s', s.allocBlock skipped = some (block, s') → block ∉ s.live.flatMap s.areaBlocks

theorem pos_at (s : Journal) (a k : ℕ) : Ring.pos s.first s.size (s.at' a - s.first + k) = s.at' (a + k) := by
  rw [at', at', Ring.pos, Ring.pos, Ring.pos, Nat.add_sub_cancel_left, Nat.mod_add_mod]

theorem Laid.blocks_eq (h : Laid s a q ts) :
    ts.flatMap s.areaBlocks = (List.range (blocks ts)).map fun k => s.at' (a + k) := by
  induction ts generalizing a q with
  | nil => rfl
  | cons t ts ih =>
    rw [List.flatMap_cons, ih h.2.2.2, blocks_cons, List.range_add, List.map_append, List.map_map]
    congr 1
    · rw [areaBlocks, h.1]
      exact List.map_congr_left fun k _ => pos_at s a k
    · exact List.map_congr_left fun k _ => by rw [Function.comp_apply, Nat.add_assoc]

/-- The transactions in the log fill it from the start up to the last block. -/
theorem Mem.live_blocks (hm : s.Mem a q) : s.live.flatMap s.areaBlocks =
    (List.range (blocks s.areas + s.inCommit)).map fun k => s.at' (a + k) := by
  rw [live, List.flatMap_append, hm.mem.laid.blocks_eq, List.range_add, List.map_append, List.map_map]
  congr 1
  cases hc : s.cur with
  | none =>
    rw [inCommit, hc]
    rfl
  | some c =>
    have hok := hm.cur c hc
    rw [inCommit, hc, Option.map_some, Option.toList_some, List.flatMap_singleton]
    show (List.range c.trans.allocBlocks).map _ = (List.range c.trans.allocBlocks).map _
    refine List.map_congr_left fun k hk => ?_
    have hpos : c.trans.allocBlocks ≠ 0 := by
      rintro h0
      rw [h0] at hk
      exact absurd hk (by simp)
    show Ring.pos s.first s.size (c.trans.startIblock - s.first + k) = s.at' (a + (blocks s.areas + k))
    rw [hok.start, if_neg hpos, pos_at, Nat.add_assoc]

theorem Mem.used_eq (hm : s.Mem a q) :
    s.used = (List.range (blocks s.areas + s.inCommit)).map fun k => s.at' (a + k) := by
  have hdist : (s.last + s.size - s.start) % s.size = blocks s.areas + s.inCommit := by
    have hadd := @Ring.pos_add s.first _ a _ hm.mem.room.le hm.mem.geo.size_pos
    have hlt := hm.mem.geo.at_lt a
    have hle := first_le_at s a
    have hfa := hm.mem.geo.first_add
    have hroom := hm.mem.room
    rw [hm.mem.last, hm.mem.starts.start, Nat.add_assoc a]
    have hat : s.at' (a + (blocks s.areas + s.inCommit)) =
        if s.first + s.size ≤ s.at' a + (blocks s.areas + s.inCommit) then
          s.at' a + (blocks s.areas + s.inCommit) - s.size
        else s.at' a + (blocks s.areas + s.inCommit) := hadd
    rw [hat]
    split_ifs with hwrap
    · rw [show s.at' a + (blocks s.areas + s.inCommit) - s.size + s.size - s.at' a =
        blocks s.areas + s.inCommit by omega]
      exact Nat.mod_eq_of_lt hroom
    · rw [show s.at' a + (blocks s.areas + s.inCommit) + s.size - s.at' a =
        blocks s.areas + s.inCommit + s.size by omega, Nat.add_mod_right]
      exact Nat.mod_eq_of_lt hroom
  rw [used, hdist, hm.mem.starts.start]
  exact List.map_congr_left fun k _ => pos_at s a k

theorem Mem.ringSafe (hm : s.Mem a q) : s.RingSafe where
  start := by
    rw [hm.mem.starts.start]
    exact ⟨first_le_at s a, hm.mem.geo.at_lt a⟩
  last := by
    rw [hm.mem.last]
    exact ⟨first_le_at s _, hm.mem.geo.at_lt _⟩
  disjoint := by
    rw [hm.live_blocks]
    refine List.Nodup.map_on ?_ List.nodup_range
    intro i hi j hj heq
    rw [List.mem_range] at hi hj
    have hroom := hm.mem.room
    rcases Nat.le_total i j with h | h
    · have hij := Ring.pos_inj heq (Nat.add_le_add_left h a) (by omega)
      omega
    · have hij := Ring.pos_inj heq.symm (Nat.add_le_add_left h a) (by omega)
      omega
  inside := by
    rw [hm.live_blocks, hm.used_eq]
    exact fun _ h => h
  alloc := by
    intro skipped block s' ha hmem
    rw [hm.live_blocks, List.mem_map] at hmem
    obtain ⟨k, hk, heq⟩ := hmem
    rw [List.mem_range] at hk
    obtain ⟨hblock, -⟩ := allocBlock_spec hm.mem ha
    have hroom := hm.mem.room
    exact Ring.pos_ne (show a + k < a + blocks s.areas + s.inCommit by omega) (by omega) (heq.trans hblock)

/-! ## Transactions that fit -/

/-- The header blocks for `n` entries of which a block takes `cap`. -/
def headers (n cap : ℕ) : ℕ := (n + cap - 1) / cap

/-- The log blocks of a transaction. -/
def logBlocks (s : Journal) (data revokes : ℕ) : ℕ :=
  data + headers data s.tagCap + headers revokes s.revokeCap + 1

/-- The log blocks for `data` buffers and `revokes` entries with the header
    block `hdr` in hand. -/
def toLog (s : Journal) (hdr : Option (ℕ × Header)) (data revokes : ℕ) : ℕ :=
  match hdr with
  | some (_, .descriptor tags) =>
    data + headers (data - (s.tagCap - tags)) s.tagCap + headers revokes s.revokeCap + 1
  | _ => s.logBlocks data revokes

/-- The log blocks that a commit has still to take. -/
def needed (s : Journal) (c : Commit) : ℕ :=
  if c.committed then 0 else s.toLog c.hdr c.data c.revokes

/-- The commit that is going on fits into the log. -/
def Fit (s : Journal) : Prop := ∀ c, s.cur = some c → c.trans.allocBlocks + s.needed c < s.size ∧
  ∀ block tags, c.hdr = some (block, .descriptor tags) → tags ≤ s.tagCap

theorem headers_zero {cap : ℕ} (hcap : 0 < cap) : headers 0 cap = 0 := by
  rw [headers, Nat.zero_add]
  exact Nat.div_eq_of_lt (Nat.sub_lt hcap Nat.one_pos)

theorem headers_pos {n cap : ℕ} (hcap : 0 < cap) (hn : n ≠ 0) : headers n cap = headers (n - cap) cap + 1 := by
  unfold headers
  by_cases hle : cap ≤ n
  · rw [show n + cap - 1 = n - cap + cap - 1 + cap by omega, Nat.add_div_right _ hcap]
  · rw [show n - cap = 0 by omega, Nat.zero_add, Nat.div_eq_of_lt (Nat.sub_lt hcap Nat.one_pos),
      Nat.div_eq_of_lt_le (k := 1) (by omega) (by omega)]

theorem needed_congr (hc : s'.tagCap = s.tagCap) (hr : s'.revokeCap = s.revokeCap) (c : Commit) :
    s'.needed c = s.needed c := by
  unfold needed toLog logBlocks
  rw [hc, hr]

theorem needed_open {c : Commit} (hopen : c.committed = false) :
    s.needed c = s.toLog c.hdr c.data c.revokes := by
  rw [needed, hopen, if_neg Bool.false_ne_true]

/-- A step of the commit that takes a block needs one block less afterwards. -/
theorem Fit.useBlock {c c' : Commit} {block : ℕ} {s₁ : Journal} (hm : s.Mem a q) (hf : s.Fit)
    (hc : s.cur = some c) (ha : s.allocBlock skipped = some (block, s₁)) (hu : Uses s₁ s' c')
    (htrans : c'.trans.allocBlocks = c.trans.allocBlocks + 1) (hneed : s.needed c' + 1 = s.needed c)
    (htags : ∀ b tags, c'.hdr = some (b, .descriptor tags) → tags ≤ s.tagCap) : s'.Fit := by
  obtain ⟨-, k, hk, -⟩ := allocBlock_spec hm.mem ha
  have htag : s'.tagCap = s.tagCap := hu.tagCap.trans hk.same.tagCap
  have hrev : s'.revokeCap = s.revokeCap := hu.revokeCap.trans hk.same.revokeCap
  have hsize : s'.size = s.size := by
    rw [size, size, hu.first, hu.maxlen, hk.same.first, hk.same.maxlen]
  intro d hd
  obtain rfl : c' = d := by simpa [hu.cur] using hd
  obtain ⟨hlt, -⟩ := hf c hc
  constructor
  · rw [needed_congr htag hrev, hsize, htrans]
    omega
  · rw [htag]
    exact htags

/-- **Each step of a commit** that fits leaves one that fits. -/
theorem Fit.nextStep {c : Commit} (hm : s.Mem a q) (hf : s.Fit) (hc : s.cur = some c)
    (hn : NextStep s c skipped s') : s'.Fit := by
  have hg := hm.mem.geo
  have hok := hm.cur c hc
  obtain ⟨hlt, htags⟩ := hf c hc
  cases hn with
  | revoke block hh =>
    have hopen := hok.open_of (.inl (by rw [hh]; simp))
    intro d hd
    obtain rfl := Option.some_inj.1 hd
    refine ⟨?_, fun b tags h => absurd h (by simp)⟩
    rw [needed_open hopen, hh] at hlt
    show c.trans.allocBlocks + s.needed { c with hdr := none } < s.size
    rw [needed_open (c := { c with hdr := none }) hopen]
    exact hlt
  | descriptor block tags hh hfull =>
    have hopen := hok.open_of (.inl (by rw [hh]; simp))
    intro d hd
    obtain rfl := Option.some_inj.1 hd
    refine ⟨?_, fun b tags h => absurd h (by simp)⟩
    have hsame : headers (c.data - (s.tagCap - tags)) s.tagCap = headers c.data s.tagCap := by
      rcases hfull with h | h
      · rw [h, Nat.zero_sub]
      · rw [h, Nat.sub_self, Nat.sub_zero]
    rw [needed_open hopen, hh] at hlt
    show c.trans.allocBlocks + s.needed { c with hdr := none } < s.size
    rw [needed_open (c := { c with hdr := none }) hopen]
    show c.trans.allocBlocks + (c.data + headers c.data s.tagCap + headers c.revokes s.revokeCap + 1) < s.size
    rw [← hsame]
    exact hlt
  | logData hdr tags block s₁ hh hd ht ha =>
    have hopen := hok.open_of (.inl (by rw [hh]; simp))
    have hle := htags hdr tags hh
    refine hf.useBlock hm hc ha (uses_logData hopen hdr tags block) rfl ?_ fun b tags' h => ?_
    · rw [needed_open hopen, hh, needed_open
        (c := { c.take with hdr := some (hdr, .descriptor (tags + 1)), data := c.data - 1 }) hopen]
      show c.data - 1 + headers (c.data - 1 - (s.tagCap - (tags + 1))) s.tagCap +
        headers c.revokes s.revokeCap +
        1 + 1 = c.data + headers (c.data - (s.tagCap - tags)) s.tagCap + headers c.revokes s.revokeCap + 1
      rw [show c.data - 1 - (s.tagCap - (tags + 1)) = c.data - (s.tagCap - tags) by omega]
      omega
    · obtain ⟨-, htag⟩ := Prod.mk.inj (Option.some_inj.1 h)
      obtain rfl := Header.descriptor.inj htag
      omega
  | openDescriptor block s₁ hh hd ha =>
    have hopen := hok.open_of (.inr (.inl hd))
    obtain ⟨n, hset⟩ := setStart_eq c.take block
    refine hf.useBlock hm hc ha (uses_openDescriptor hopen block) (by rw [hset]; rfl) ?_ fun b tags h => ?_
    · rw [needed_open hopen, hh,
        needed_open (c := { c.take.setStart block with hdr := some (block, .descriptor 0) })
        (by rw [hset]; exact hopen), hset]
      show c.data + headers (c.data - (s.tagCap - 0)) s.tagCap + headers c.revokes s.revokeCap + 1 + 1 =
        c.data + headers c.data s.tagCap + headers c.revokes s.revokeCap + 1
      rw [headers_pos hg.tagCap_pos hd, Nat.sub_zero]
      omega
    · obtain ⟨-, htag⟩ := Prod.mk.inj (Option.some_inj.1 h)
      obtain rfl := Header.descriptor.inj htag
      exact Nat.zero_le _
  | openRevoke block s₁ hh hd hr ha =>
    have hopen := hok.open_of (.inr (.inr (.inl hr)))
    obtain ⟨n, hset⟩ := setStart_eq c.take block
    obtain ⟨-, k, hk, -⟩ := allocBlock_spec hm.mem ha
    have hcap : s₁.revokeCap = s.revokeCap := hk.same.revokeCap
    refine hf.useBlock hm hc ha (uses_openRevoke hopen block) (by rw [hset]; rfl) ?_ fun b tags h => ?_
    · rw [needed_open hopen, hh, hcap, needed_open
        (c := { c.take.setStart block with hdr := some (block, .revoke), revokes := c.revokes - s.revokeCap })
        (by rw [hset]; exact hopen), hset]
      show c.data + headers c.data s.tagCap + headers (c.revokes - s.revokeCap) s.revokeCap + 1 + 1 =
        c.data + headers c.data s.tagCap + headers c.revokes s.revokeCap + 1
      rw [headers_pos hg.revokeCap_pos hr]
      omega
    · exact absurd (Prod.mk.inj (Option.some_inj.1 h)).2 (by simp)
  | commitBlock block s₁ hh hd hr hsome hopen ha =>
    refine hf.useBlock hm hc ha (uses_writeCommitBlock c block) rfl ?_ fun b tags h => ?_
    · rw [needed_open hopen, hh, hd, hr]
      show 0 + 1 = 0 + headers 0 s.tagCap + headers 0 s.revokeCap + 1
      rw [headers_zero hg.tagCap_pos, headers_zero hg.revokeCap_pos]
    · exact absurd (hh.symm.trans h) (by simp)
  | rollback block s₁ hopen ha => exact fun d hd => absurd hd (by simp [Journal.rollback])
  | empty h0 => exact fun d hd => absurd hd (by simp)
  | finish hsome hdone =>
    intro d hd
    rw [Journal.finish] at hd
    split_ifs at hd <;> exact absurd hd (by simp [writeSb, sbWrite])

/-- `flushTrans` of all buffers of the first transaction takes it off the queue. -/
theorem flushTrans_frees (n : ℕ) {t : Trans} {us : List Trans} (hg : s.Geometry) (hs : s.StartsAt a q)
    (hl : Laid s a q s.areas) (hroom : blocks s.areas ≤ s.size) (hq : s.cpQueue = t :: us)
    (hn : t.writtenCnt + n = t.dataCnt) (hpos : 0 < n) :
    (flushTrans n s).areas.length < s.areas.length := by
  have hlen : s.areas.length = us.length + 1 := by rw [areas, hq, List.map_cons, List.length_cons,
    List.length_map]
  induction n generalizing s t with
  | zero => exact absurd hpos (lt_irrefl 0)
  | succ n ih =>
    have hhead : s.cpQueue[0]? = some t := by rw [hq]; rfl
    have hopen : ¬ t.dataCnt ≤ t.writtenCnt := by omega
    rw [flushTrans]
    by_cases hlast : n = 0
    · subst hlast
      have hfull : t.writtenCnt + 1 = t.dataCnt := hn
      obtain ⟨k, hk⟩ := complete_spec hg hq hl hroom { t with writtenCnt := t.writtenCnt + 1 } rfl
      have hw : s.endWrite 0 false = some
          (purgeLoop us (s.pass { t with writtenCnt := t.writtenCnt + 1 })).writeSb.sbWrite := by
        rw [endWrite, hhead, hq, List.tail_cons]
        exact (if_neg hopen).trans (if_pos ⟨hfull, rfl, rfl⟩)
      rw [hw, Option.getD_some, flushTrans, hk.queue, List.length_drop]
      omega
    · have hmore : ¬ t.writtenCnt + 1 = t.dataCnt := by omega
      have hw : s.endWrite 0 false =
          some { s with cpQueue := s.cpQueue.set 0 { t with writtenCnt := t.writtenCnt + 1 } } := by
        rw [endWrite, hhead]
        exact (if_neg hopen).trans (if_neg fun h => hmore h.1)
      rw [hw, Option.getD_some]
      have hareas : ({ s with cpQueue := s.cpQueue.set 0 { t with writtenCnt := t.writtenCnt + 1 } } :
          Journal).areas = s.areas := areas_set hhead rfl
      have hstep := ih (s := { s with cpQueue := s.cpQueue.set 0 { t with writtenCnt := t.writtenCnt + 1 } })
        (t := { t with writtenCnt := t.writtenCnt + 1 })
        ⟨hg.first_pos, hg.first_lt, hg.maxlen_le, hg.tagCap_pos, hg.revokeCap_pos⟩ ⟨hs.start, hs.transId⟩
        (by rw [hareas]; exact hl.congr rfl rfl) (by rw [hareas]; exact hroom) (by rw [hq]; rfl)
        (by show t.writtenCnt + 1 + n = t.dataCnt; omega) (Nat.pos_of_ne_zero hlast) (by rw [hareas, hlen])
      rwa [hareas] at hstep

theorem purgeOnce_frees (hg : s.Geometry) (hs : s.StartsAt a q) (hl : Laid s a q s.areas)
    (hroom : blocks s.areas ≤ s.size) (hw : ∀ t ∈ s.cpQueue, t.writtenCnt ≤ t.dataCnt)
    (hne : s.areas ≠ []) : (s.purgeOnce 0).areas.length < s.areas.length := by
  cases hq : s.cpQueue with
  | nil => exact absurd (by rw [areas, hq, List.map_nil]) hne
  | cons t us =>
    have hlen : us.length < s.areas.length := by
      rw [areas, hq, List.map_cons, List.length_cons, List.length_map]
      exact Nat.lt_succ_self _
    rw [purgeOnce, hq]
    simp only
    split_ifs with h0 hdone
    · exact (List.length_map _).trans_lt hlen
    · exact (List.length_map _).trans_lt hlen
    · have hle := hw t (by rw [hq]; exact List.mem_cons_self)
      rw [Nat.sub_zero]
      exact flushTrans_frees _ hg hs hl hroom hq (by omega) (by omega)

/-- There is a block for a transaction that does not fill the log by itself,
    if a flush writes all buffers. -/
theorem allocBlock_isSome {n : ℕ} (hm : s.MemAt a q n) (hw : ∀ t ∈ s.cpQueue, t.writtenCnt ≤ t.dataCnt)
    (hn : n + 1 < s.size) : s.allocBlock 0 ≠ none := by
  intro hnone
  rw [allocBlock] at hnone
  simp only at hnone
  split_ifs at hnone with hfull hstill
  have hone : 1 ≤ s.size := hm.geo.size_pos
  have hlast : s.wrap (u32 (s.last + 1)) = s.at' (a + blocks s.areas + n + 1) := by
    rw [hm.last]
    exact hm.geo.wrap_add hone
  have hroom := hm.room
  -- the log is full, and there are other transactions in it
  have hsize : blocks s.areas + n + 1 = s.size := by
    by_contra hne
    have hpos : s.at' a = s.at' (a + blocks s.areas + n + 1) :=
      (hm.starts.start.symm.trans hfull.symm).trans hlast
    exact Ring.pos_ne (show a < a + blocks s.areas + n + 1 by omega) (by omega) hpos
  obtain ⟨s₁, hs₁⟩ : ∃ s₁ : Journal, s₁ = { s with last := s.wrap (u32 (s.last + 1)) } := ⟨_, rfl⟩
  rw [← hs₁] at hstill
  have hareas : s₁.areas = s.areas := by rw [hs₁]; rfl
  have hm₁ : s₁.Geometry ∧ s₁.StartsAt a q ∧ Laid s₁ a q s₁.areas := by
    rw [hareas, hs₁]
    exact ⟨⟨hm.geo.first_pos, hm.geo.first_lt, hm.geo.maxlen_le, hm.geo.tagCap_pos, hm.geo.revokeCap_pos⟩,
      ⟨hm.starts.start, hm.starts.transId⟩, hm.laid.congr rfl rfl⟩
  have hroom₁ : blocks s₁.areas ≤ s₁.size := by
    rw [hareas, hs₁]
    exact (Nat.le_add_right ..).trans hroom.le
  obtain ⟨k, hk⟩ := purgeOnce_spec hm₁.1 hm₁.2.1 hm₁.2.2 hroom₁ 0
  have hne : s₁.areas ≠ [] := by
    intro hnil
    rw [hareas] at hnil
    rw [hnil, blocks_nil] at hsize
    omega
  have hfree := purgeOnce_frees hm₁.1 hm₁.2.1 hm₁.2.2 hroom₁ (by rw [hs₁]; exact hw) hne
  have hle : k ≤ s.areas.length := by
    rw [← hareas]
    exact hk.le
  have hpos : 0 < blocks (s.areas.take k) := by
    have hlaid := hm.laid
    rw [← List.take_append_drop k s.areas, laid_append] at hlaid
    have hlen := hlaid.1.length_le
    rw [hk.queue, List.length_drop] at hfree
    rw [List.length_take, min_eq_left hle] at hlen
    omega
  have htake : blocks (s.areas.take k) ≤ blocks s.areas := by
    have hsplit := blocks_take_drop s.areas k
    omega
  have hat : ∀ j, (s₁.purgeOnce 0).at' j = s.at' j := by
    intro j
    rw [hk.same.at_eq, hs₁]
    rfl
  have hclash : s.at' (a + blocks (s.areas.take k)) = s.at' (a + blocks s.areas + n + 1) := by
    rw [← hlast, ← hat, ← hareas, ← hk.starts.start, ← hstill, hk.same.last, hs₁]
  exact Ring.pos_ne (show a + blocks (s.areas.take k) < a + blocks s.areas + n + 1 by omega) (by omega) hclash

/-- A flush that leaves a buffer alone does not move the start. -/
theorem flushTrans_short (n : ℕ) {t : Trans} {us : List Trans} (hq : s.cpQueue = t :: us)
    (hn : t.writtenCnt + n < t.dataCnt) :
    (flushTrans n s).start = s.start ∧ (flushTrans n s).last = s.last := by
  induction n generalizing s t with
  | zero => exact ⟨rfl, rfl⟩
  | succ n ih =>
    have hhead : s.cpQueue[0]? = some t := by rw [hq]; rfl
    have hopen : ¬ t.dataCnt ≤ t.writtenCnt := by omega
    have hmore : ¬ t.writtenCnt + 1 = t.dataCnt := by omega
    have hw : s.endWrite 0 false =
        some { s with cpQueue := s.cpQueue.set 0 { t with writtenCnt := t.writtenCnt + 1 } } := by
      rw [endWrite, hhead]
      exact (if_neg hopen).trans (if_neg fun h => hmore h.1)
    rw [flushTrans, hw, Option.getD_some]
    exact ih (s := { s with cpQueue := s.cpQueue.set 0 { t with writtenCnt := t.writtenCnt + 1 } })
      (t := { t with writtenCnt := t.writtenCnt + 1 }) (by rw [hq]; rfl)
      (by show t.writtenCnt + 1 + n < t.dataCnt; omega)

/-- **A flush for want of a block that leaves a buffer alone** fails the
    assertion. -/
theorem allocBlock_short {t : Trans} {us : List Trans} (hq : s.cpQueue = t :: us)
    (hfull : s.wrap (u32 (s.last + 1)) = s.start) (hpos : 0 < skipped)
    (hle : t.writtenCnt + skipped ≤ t.dataCnt) : s.allocBlock skipped = none := by
  obtain ⟨hstart, hlast⟩ := @flushTrans_short { s with last := s.wrap (u32 (s.last + 1)) }
    (t.dataCnt - t.writtenCnt - skipped) t us hq (by omega)
  have hpurge : ({ s with last := s.wrap (u32 (s.last + 1)) } : Journal).purgeOnce skipped =
      flushTrans (t.dataCnt - t.writtenCnt - skipped) { s with last := s.wrap (u32 (s.last + 1)) } := by
    rw [purgeOnce]
    simp only [hq]
    rw [if_neg (by omega), if_neg (by omega)]
  rw [allocBlock]
  simp only
  rw [if_pos hfull, hpurge, if_pos]
  exact hlast.trans (hfull.trans hstart.symm)

/-! ## Runs -/

/-- The states that steps with the property `P` lead to, from a superblock with
    the property `G`. -/
inductive Reach (G : Journal → Prop) (P : Journal → Op → Prop) : Journal → Prop
  | start (first maxlen sequence tagCap revokeCap : ℕ) (log : ℕ → LogRec)
    (hg : G (journalStart first maxlen sequence tagCap revokeCap log)) :
    Reach G P (journalStart first maxlen sequence tagCap revokeCap log)
  | step {s s' : Journal} (op : Op) (hs : Reach G P s) (hop : P s op)
    (hstep : s.step op = some s') : Reach G P s'

/-- A transaction that is committed is smaller than the log, and a flush for
    want of a block leaves no buffer alone. -/
def Fits (s : Journal) : Op → Prop
  | .commitTrans data revokes => s.logBlocks data revokes < s.size
  | .next _ skipped => skipped = 0
  | .endWrite .. | .endWriteCur => True

theorem endWrite_fit {i : ℕ} {stale : Bool} (hm : s.Mem a q) (hf : s.Fit)
    (hs : s.endWrite i stale = some s') : s'.Fit := by
  have hroom : blocks s.areas ≤ s.size := (Nat.le_add_right ..).trans hm.mem.room.le
  obtain ⟨k, hk⟩ := endWrite_spec hm.mem.geo hm.mem.starts hm.mem.laid hroom hs
  intro c hc
  obtain ⟨hlt, htags⟩ := hf c (by rw [← hk.same.cur, hc])
  constructor
  · rw [needed_congr hk.same.tagCap hk.same.revokeCap, size, hk.same.first, hk.same.maxlen]
    exact hlt
  · rw [hk.same.tagCap]
    exact htags

theorem Fit.step {op : Op} (hm : s.Mem a q) (hf : s.Fit) (hop : s.Fits op) (hs : s.step op = some s') :
    s'.Fit := by
  cases op with
  | commitTrans data revokes =>
    rw [Journal.step, commitTrans] at hs
    cases hc : s.cur with
    | some c =>
      rw [hc] at hs
      exact absurd hs (by simp)
    | none =>
      rw [hc] at hs
      obtain rfl := Option.some_inj.1 hs
      intro c hcur
      obtain rfl := Option.some_inj.1 hcur
      refine ⟨?_, fun b tags h => absurd h (by simp)⟩
      show 0 + s.logBlocks data revokes < s.size
      rw [Nat.zero_add]
      exact hop
  | next fail skipped =>
    cases hc : s.cur with
    | none =>
      rw [Journal.step, next, hc] at hs
      exact absurd hs (by simp)
    | some c => exact hf.nextStep hm hc (next_cases hc hs)
  | endWrite i stale => exact endWrite_fit hm hf hs
  | endWriteCur =>
    cases hc : s.cur with
    | none =>
      rw [Journal.step, endWriteCur, hc] at hs
      exact absurd hs (by simp)
    | some c =>
      rw [Journal.step, endWriteCur, hc] at hs
      simp only at hs
      split_ifs at hs
      obtain rfl := Option.some_inj.1 hs
      intro d hd
      obtain rfl := Option.some_inj.1 hd
      exact hf c hc

/-- A commit that fits gets its next block. -/
theorem next_isSome {c : Commit} (hm : s.Mem a q) (hf : s.Fit) (hc : s.cur = some c) (fail : Bool) :
    s.next fail 0 ≠ none := by
  have hn : s.inCommit = c.trans.allocBlocks := by rw [inCommit, hc]; rfl
  have huse : ∀ f, c.committed = false → s.useBlock c fail 0 f ≠ none := by
    intro f hopen hnone
    rw [useBlock, Option.map_eq_none_iff] at hnone
    refine allocBlock_isSome hm.mem hm.written ?_ hnone
    obtain ⟨hlt, -⟩ := hf c hc
    have hpos : 0 < s.needed c := by
      rw [needed_open hopen]
      unfold toLog
      split
      · exact Nat.succ_pos _
      · exact Nat.succ_pos _
    omega
  have hok := hm.cur c hc
  rw [next, hc]
  simp only
  cases hh : c.hdr with
  | some hdr =>
    have hopen := hok.open_of (.inl (by rw [hh]; simp))
    obtain ⟨block, h⟩ := hdr
    cases h with
    | revoke => simp
    | descriptor tags =>
      simp only
      split_ifs
      · simp
      · exact huse _ hopen
  | none =>
    simp only
    split_ifs with hd hr h0 hdone
    · exact huse _ (hok.open_of (.inr (.inl hd)))
    · exact huse _ (hok.open_of (.inr (.inr (.inl hr))))
    · simp
    · simp
    · exact huse _ (by simpa using hdone)

/-- **In every run** of transactions that fit, on a log whose superblock makes
    sense and with flushes that write what they should, the ring is safe and no
    assertion fails. -/
theorem reach_safe (hs : Reach Geometry Fits s) :
    s.RingSafe ∧ ∀ fail, s.cur ≠ none → s.next fail 0 ≠ none := by
  have hinv : ∃ a q, s.Mem a q ∧ s.Fit := by
    induction hs with
    | start first maxlen sequence tagCap revokeCap log hg =>
      exact ⟨_, _, mem_start hg, fun c hc => absurd hc (by simp [journalStart])⟩
    | step op _ hop hstep ih =>
      obtain ⟨a, q, hm, hf⟩ := ih
      obtain ⟨a', q', hm'⟩ := hm.step hstep
      exact ⟨a', q', hm', hf.step hm hop hstep⟩
  obtain ⟨a, q, hm, hf⟩ := hinv
  refine ⟨hm.ringSafe, fun fail hcur => ?_⟩
  obtain ⟨c, hc⟩ := Option.ne_none_iff_exists'.1 hcur
  exact next_isSome hm hf hc fail

theorem reach_foldlM {G : Journal → Prop} {P : Journal → Op → Prop} {ops : List Op} (hs : Reach G P s)
    (hP : ∀ s, ∀ op ∈ ops, P s op) (hrun : ops.foldlM step s = some s') : Reach G P s' := by
  induction ops generalizing s with
  | nil => exact Option.some_inj.1 hrun ▸ hs
  | cons op ops ih =>
    rw [List.foldlM_cons] at hrun
    obtain ⟨s₁, hs₁, hrun⟩ := Option.bind_eq_some_iff.1 hrun
    exact ih (hs.step op (hP s op List.mem_cons_self) hs₁)
      (fun s op hmem => hP s op (List.mem_cons_of_mem _ hmem)) hrun

/-- A log of seven blocks whose descriptor and revoke blocks take ten entries. -/
def smallLog (maxlen : ℕ) : Journal := journalStart 1 maxlen 0 10 10 fun _ => .data

theorem smallLog_geometry {maxlen : ℕ} (h : 1 < maxlen) (h' : maxlen ≤ 2 ^ 31) : (smallLog maxlen).Geometry :=
  ⟨Nat.one_pos, h, h', Nat.succ_pos _, Nat.succ_pos _⟩

/-- A transaction of one buffer is committed. -/
theorem reach_safe_small : ∃ s : Journal,
    [Op.commitTrans 1 0, .next false 0, .next false 0, .next false 0, .next false 0, .next false 0].foldlM step
      (smallLog 8) = some s ∧ s.RingSafe ∧ ∀ fail, s.cur ≠ none → s.next fail 0 ≠ none := by
  have hrun : ([Op.commitTrans 1 0, .next false 0, .next false 0, .next false 0, .next false 0,
    .next false 0].foldlM step
      (smallLog 8)).isSome = true := by decide +kernel
  obtain ⟨s, hs⟩ := Option.isSome_iff_exists.1 hrun
  rw [List.foldlM_cons] at hs
  obtain ⟨s₁, hs₁, hnexts⟩ := Option.bind_eq_some_iff.1 hs
  have hfirst : Reach Geometry Fits (smallLog 8) := .start 1 8 0 10 10 _
    (smallLog_geometry (by omega) (by omega))
  have hreach : Reach Geometry Fits s := by
    have hfits : (smallLog 8).logBlocks 1 0 < (smallLog 8).size := by decide
    refine reach_foldlM (hfirst.step (.commitTrans 1 0) hfits hs₁) (fun s op hmem => ?_) hnexts
    simp only [List.mem_cons, List.not_mem_nil, or_false] at hmem
    rcases hmem with rfl | rfl | rfl | rfl | rfl <;> trivial
  refine ⟨s, ?_, reach_safe hreach⟩
  rw [List.foldlM_cons, hs₁]
  exact hnexts

/-- **A transaction of the size of the log** fails the assertion: in a log of
    three blocks, a transaction with two buffers needs four. -/
theorem too_large_fails : ¬ ∀ s : Journal, Reach (fun s => 0 < s.tagCap ∧ 0 < s.revokeCap) (fun _ _ => True) s →
    s.RingSafe ∧ ∀ fail, s.cur ≠ none → s.next fail 0 ≠ none := by
  intro h
  have hrun : ([Op.commitTrans 2 0, .next false 0, .next false 0].foldlM step (smallLog 4)).any
      (fun s => s.cur.isSome && (s.next false 0).isNone) = true := by decide +kernel
  rw [Option.any_eq_true] at hrun
  obtain ⟨s, hs, hend⟩ := hrun
  rw [Bool.and_eq_true, Option.isNone_iff_eq_none] at hend
  have hfirst : Reach (fun s => 0 < s.tagCap ∧ 0 < s.revokeCap) (fun _ _ => True) (smallLog 4) :=
    .start 1 4 0 10 10 _ ⟨Nat.succ_pos _, Nat.succ_pos _⟩
  have hreach := reach_foldlM hfirst (fun _ _ _ => trivial) hs
  refine (h s hreach).2 false ?_ hend.2
  intro hnone
  rw [hnone] at hend
  exact absurd hend.1 (by simp)

end Journal

end Lwext4
