/-
  The tail of the log on disk.

  After a crash `jbd_iterate_log` walks the log from the start block and the
  sequence number of the superblock on disk (`scan`).  `Stored` says that
  transactions are in the log as the commit writes them, and `Disk` is the
  invariant of the journal on disk: the transactions that have been
  checkpointed since the superblock was written, those on the queue and the
  one being committed lie in the log one behind the other.

  Main results.
  * `reach_tail`: where the block of the on-disk start is not handed out while
    the start in memory has moved on, the scan finds every transaction that is
    not checkpointed, between any two device writes.
  * `tail_lost`: a run after which the scan finds nothing of a committed
    transaction.
-/
import Lwext4.JbdCommit

namespace Lwext4

namespace Journal

variable {s s' : Journal} {a q d p e r i j k seq skipped : ℕ} {t : Area} {ts us : List Area}

/-! ## The scan -/

/-- `this_block++` and `wrap`. -/
def advance (s : Journal) (block : ℕ) : ℕ := s.wrap (u32 (block + 1))

/-- The loop of `jbd_iterate_log` with `ACTION_SCAN`: the sequence numbers and
    first blocks of the transactions whose commit block is found.  `start` is
    the first block of the transaction that is being read. -/
def scanLoop (s : Journal) : (fuel : ℕ) → (thisBlock thisTransId start : ℕ) → List (ℕ × ℕ)
  | 0, _, _, _ => []
  | fuel + 1, thisBlock, thisTransId, start =>
    match s.log thisBlock with
    | .descriptor sequence tags =>
      let next := s.advance^[tags + 1] thisBlock
      if sequence = thisTransId ∧ next ≠ s.diskStart then scanLoop s fuel next thisTransId start else []
    | .revoke sequence =>
      let next := s.advance thisBlock
      if sequence = thisTransId ∧ next ≠ s.diskStart then scanLoop s fuel next thisTransId start else []
    | .commit sequence =>
      let next := s.advance thisBlock
      if sequence = thisTransId then
        (thisTransId, start) ::
          if next ≠ s.diskStart then scanLoop s fuel next (u32 (thisTransId + 1)) next else []
      else []
    | .data => []

/-- The transactions that a recovery from the log on disk finds. -/
def scan (s : Journal) : List (ℕ × ℕ) := s.scanLoop s.size s.diskStart s.diskSequence s.diskStart

/-! ## Transactions in the log -/

/-- The header blocks of a transaction from offset `i` to offset `j`, with the
    data blocks behind its descriptor blocks. -/
inductive Body (s : Journal) (seq : ℕ) : ℕ → ℕ → Prop
  | nil (i : ℕ) : Body s seq i i
  | descriptor {i j tags : ℕ} (hb : Body s seq i j) (hl : s.log (s.at' j) = .descriptor seq tags) :
    Body s seq i (j + 1 + tags)
  | revoke {i j : ℕ} (hb : Body s seq i j) (hl : s.log (s.at' j) = .revoke seq) : Body s seq i (j + 1)

/-- The transactions are in the log from offset `a` on. -/
def Stored (s : Journal) : ℕ → ℕ → List Area → Prop
  | _, _, [] => True
  | a, q, t :: ts => (∃ n, t.blocks = n + 1 ∧ Body s (u32 q) a (a + n) ∧
      s.log (s.at' (a + n)) = .commit (u32 q)) ∧ Stored s (a + t.blocks) (q + 1) ts

/-- The positions of the log, and its contents in a range of offsets, are the
    same in both states. -/
structure Agree (s s' : Journal) (i j : ℕ) : Prop where
  first : s'.first = s.first
  maxlen : s'.maxlen = s.maxlen
  log : ∀ k, i ≤ k → k < j → s'.log (s.at' k) = s.log (s.at' k)

theorem Agree.at_eq (h : Agree s s' i j) (k : ℕ) : s'.at' k = s.at' k := by
  rw [at', at', size, size, h.first, h.maxlen]

theorem Agree.mono {i' j' : ℕ} (h : Agree s s' i j) (hi : i ≤ i') (hj : j' ≤ j) : Agree s s' i' j' :=
  { h with log := fun k hk hk' => h.log k (hi.trans hk) (hk'.trans_le hj) }

theorem Body.le (h : Body s seq i j) : i ≤ j := by
  induction h with
  | nil => exact le_rfl
  | descriptor _ _ ih => omega
  | revoke _ _ ih => omega

theorem Body.agree (h : Body s seq i j) (ha : Agree s s' i j) : Body s' seq i j := by
  induction h with
  | nil => exact .nil _
  | descriptor hb hl ih =>
    have hle := hb.le
    refine .descriptor (ih (ha.mono le_rfl (by omega))) ?_
    rw [ha.at_eq, ha.log _ hle (by omega), hl]
  | revoke hb hl ih =>
    have hle := hb.le
    refine .revoke (ih (ha.mono le_rfl (by omega))) ?_
    rw [ha.at_eq, ha.log _ hle (by omega), hl]

theorem Stored.agree (h : Stored s a q ts) (ha : Agree s s' a (a + blocks ts)) : Stored s' a q ts := by
  induction ts generalizing a q with
  | nil => trivial
  | cons t ts ih =>
    obtain ⟨⟨n, hn, hb, hl⟩, hrest⟩ := h
    rw [blocks_cons, ← Nat.add_assoc] at ha
    refine ⟨⟨n, hn, hb.agree (ha.mono le_rfl (by omega)), ?_⟩, ih hrest (ha.mono (by omega) le_rfl)⟩
    rw [ha.at_eq, ha.log _ (by omega) (by omega), hl]

theorem stored_append : Stored s a q (ts ++ us) ↔
    Stored s a q ts ∧ Stored s (a + blocks ts) (q + ts.length) us := by
  induction ts generalizing a q with
  | nil => simp [Stored]
  | cons t ts ih =>
    simp only [List.cons_append, Stored, ih, blocks_cons, List.length_cons, and_assoc]
    rw [Nat.add_assoc a, Nat.add_assoc q, Nat.add_comm 1]

/-! ## The scan finds what is stored -/

theorem Geometry.advance_at (hg : s.Geometry) (k : ℕ) : s.advance (s.at' k) = s.at' (k + 1) :=
  hg.wrap_add hg.size_pos

theorem Geometry.advance_iterate (hg : s.Geometry) (n k : ℕ) : s.advance^[n] (s.at' k) = s.at' (k + n) := by
  induction n generalizing k with
  | zero => rfl
  | succ n ih =>
    rw [Function.iterate_succ_apply, hg.advance_at, ih]
    congr 1
    omega

/-- The scan walks over the header blocks of a transaction. -/
theorem Body.scan (hg : s.Geometry) (h : Body s seq i j) (hd : s.diskStart = s.at' d) (hi : d ≤ i)
    (hj : j < d + s.size) (start : ℕ) : ∃ m ≤ j - i, ∀ fuel,
      s.scanLoop (fuel + m) (s.at' i) seq start = s.scanLoop fuel (s.at' j) seq start := by
  induction h with
  | nil => exact ⟨0, Nat.zero_le _, fun _ => rfl⟩
  | @descriptor j tags hb hl ih =>
    have hle := hb.le
    obtain ⟨m, hm, hscan⟩ := ih (by omega)
    refine ⟨m + 1, by omega, fun fuel => ?_⟩
    have hnext : s.advance^[tags + 1] (s.at' j) = s.at' (j + 1 + tags) := by
      rw [hg.advance_iterate]
      congr 1
      omega
    have hne : s.at' (j + 1 + tags) ≠ s.diskStart := by
      rw [hd]
      exact (Ring.pos_ne (by omega) hj).symm
    rw [show fuel + (m + 1) = fuel + 1 + m by omega, hscan, scanLoop, hl]
    show (if seq = seq ∧ s.advance^[tags + 1] (s.at' j) ≠ s.diskStart then _ else _) = _
    rw [hnext, if_pos ⟨rfl, hne⟩]
  | @revoke j hb hl ih =>
    have hle := hb.le
    obtain ⟨m, hm, hscan⟩ := ih (by omega)
    refine ⟨m + 1, by omega, fun fuel => ?_⟩
    have hne : s.at' (j + 1) ≠ s.diskStart := by
      rw [hd]
      exact (Ring.pos_ne (by omega) hj).symm
    rw [show fuel + (m + 1) = fuel + 1 + m by omega, hscan, scanLoop, hl]
    show (if seq = seq ∧ s.advance (s.at' j) ≠ s.diskStart then _ else _) = _
    rw [hg.advance_at, if_pos ⟨rfl, hne⟩]

/-- **The scan finds every transaction** that is stored. -/
theorem Stored.scan (hg : s.Geometry) (h : Stored s a q ts) (hl : Laid s a q ts) (hd : s.diskStart = s.at' d)
    (ha : d ≤ a) (hroom : a + blocks ts ≤ d + s.size) {fuel : ℕ} (hfuel : blocks ts ≤ fuel) :
    ∀ t ∈ ts, (t.transId, t.start) ∈ s.scanLoop fuel (s.at' a) (u32 q) (s.at' a) := by
  induction ts generalizing a q fuel with
  | nil => exact fun t ht => absurd ht (by simp)
  | cons t ts ih =>
    obtain ⟨⟨n, hn, hb, hc⟩, hrest⟩ := h
    obtain ⟨hstart, hid, -, hlaid⟩ := hl
    rw [blocks_cons] at hroom hfuel
    obtain ⟨m, hm, hscan⟩ := hb.scan hg hd ha (by omega) (s.at' a)
    obtain ⟨f, rfl⟩ : ∃ f, fuel = f + 1 + m := ⟨fuel - 1 - m, by omega⟩
    rw [hscan, scanLoop, hc]
    simp only [if_true, hg.advance_at, u32_u32_add]
    intro u hu
    rcases List.mem_cons.1 hu with rfl | hu
    · rw [hstart, hid]
      exact List.mem_cons_self
    · refine List.mem_cons_of_mem _ ?_
      have hnext : a + t.blocks = a + n + 1 := by omega
      rw [hnext] at hrest hlaid
      have hpos : 0 < blocks ts := by
        have hlen := hlaid.length_le
        have := List.length_pos_of_mem hu
        omega
      have hne : s.at' (a + n + 1) ≠ s.diskStart := by
        rw [hd]
        exact (Ring.pos_ne (by omega) (by omega)).symm
      rw [if_pos hne]
      exact ih hrest hlaid (by omega) (by omega) (by omega) u hu

/-! ## The invariant of the log on disk -/

/-- What the commit has written to the log, from offset `e` on: the header
    blocks up to offset `j`, and the header in its hands is the block at `j`. -/
def CurImage (s : Journal) (e r : ℕ) (c : Commit) : Prop :=
  if c.committed then Stored s e r [c.trans.area]
  else ∃ j, Body s (u32 r) e j ∧
    match c.hdr with
    | none => e + c.trans.allocBlocks = j
    | some (b, .revoke) => b = s.at' j ∧ e + c.trans.allocBlocks = j + 1
    | some (b, .descriptor tags) => b = s.at' j ∧ e + c.trans.allocBlocks = j + 1 + tags

/-- The invariant of the journal on disk: the superblock on disk is at offset
    `d` and sequence number `p`, and the transactions `past` that have been
    checkpointed since it was written are still in the log. -/
structure Disk (s : Journal) (a q d p : ℕ) (past : List Area) : Prop where
  disk : s.DiskAt d p
  offset : a = d + blocks past
  seq : q = p + past.length
  laid : Laid s d p past
  stored : Stored s d p (past ++ s.areas)
  room : blocks past + blocks s.areas + s.inCommit ≤ s.size
  cur : ∀ c, s.cur = some c → s.CurImage (a + blocks s.areas) (q + s.areas.length) c

theorem CurImage.agree {c : Commit} {e r : ℕ} (h : s.CurImage e r c)
    (ha : Agree s s' e (e + c.trans.allocBlocks)) : s'.CurImage e r c := by
  unfold CurImage at h ⊢
  split_ifs at h ⊢ with hcom
  · exact h.agree (by simpa [Trans.area] using ha)
  · obtain ⟨j, hb, hh⟩ := h
    refine ⟨j, hb.agree (ha.mono le_rfl ?_), ?_⟩
    · split at hh <;> omega
    · split at hh
      · exact hh
      · rwa [ha.at_eq]
      · rwa [ha.at_eq]

/-- A block that is handed out is none of those before it. -/
theorem agree_update {m : ℕ} (hd : d ≤ i) (hj : j ≤ m) (hm : m < d + s.size) (hf : s'.first = s.first)
    (hx : s'.maxlen = s.maxlen) {r : LogRec} (hl : s'.log = Function.update s.log (s.at' m) r) :
    Agree s s' i j where
  first := hf
  maxlen := hx
  log := by
    intro k hk hk'
    rw [hl, Function.update_of_ne]
    exact Ring.pos_ne (by omega) (by omega)

theorem agree_of_log (hf : s'.first = s.first) (hx : s'.maxlen = s.maxlen) (hl : s'.log = s.log) :
    Agree s s' i j where
  first := hf
  maxlen := hx
  log := fun k _ _ => by rw [hl]

/-- Checkpointing: the transactions that leave the queue stay in the log. -/
theorem Disk.checkpointed {past : List Area} (hd : s.Disk a q d p past) (hm : Laid s a q s.areas)
    (hc : Checkpointed s s' a q k) : ∃ d' p' past',
      s'.Disk (a + blocks (s.areas.take k)) (q + k) d' p' past' ∧ d ≤ d' := by
  have hle := hc.le
  have hsplit := blocks_take_drop s.areas k
  have hin : s'.inCommit = s.inCommit := by rw [inCommit, inCommit, hc.same.cur]
  have hsize : s'.size = s.size := by rw [size, size, hc.same.first, hc.same.maxlen]
  have hroom := hd.room
  have hcur : ∀ c, s'.cur = some c →
      s'.CurImage (a + blocks (s.areas.take k) + blocks s'.areas) (q + k + s'.areas.length) c := by
    intro c hcur
    rw [hc.queue, Nat.add_assoc a, hsplit, List.length_drop,
      show q + k + (s.areas.length - k) = q + s.areas.length by omega]
    exact (hd.cur c (by rw [← hc.same.cur, hcur])).agree (agree_of_log hc.same.first hc.same.maxlen hc.same.log)
  have hlaid : ∀ j ≤ k, Laid s' (a + blocks (s.areas.take j)) (q + j) ((s.areas.drop j).take (k - j)) := by
    intro j hj
    have hrest := hm.drop (hj.trans hle)
    rw [← List.take_append_drop (k - j) (s.areas.drop j), laid_append] at hrest
    exact hrest.1.congr hc.same.first hc.same.maxlen
  -- what leaves the queue after the first `j` transactions, and what stays
  have hqueue : ∀ j ≤ k, (s.areas.drop j).take (k - j) ++ s'.areas = s.areas.drop j := by
    intro j hj
    rw [hc.queue, show k = j + (k - j) by omega, ← List.drop_drop, Nat.add_sub_cancel_left,
      List.take_append_drop]
  have hblocks : ∀ j ≤ k, blocks (s.areas.take j) + blocks ((s.areas.drop j).take (k - j)) =
      blocks (s.areas.take k) := by
    intro j hj
    rw [← blocks_append, List.take_drop, show j + (k - j) = k by omega]
    conv_rhs => rw [← List.take_append_drop j (s.areas.take k), List.take_take, min_eq_left hj]
  have hlen : ∀ j ≤ k, ((s.areas.drop j).take (k - j)).length = k - j := by
    intro j hj
    rw [List.length_take, List.length_drop]
    omega
  have hstored : Stored s' d p (past ++ s.areas) :=
    hd.stored.agree (agree_of_log hc.same.first hc.same.maxlen hc.same.log)
  rcases hc.disk with ⟨hstart, hseq⟩ | ⟨j, hj, hat⟩
  · have hq := hqueue 0 (Nat.zero_le k)
    have hb := hblocks 0 (Nat.zero_le k)
    have hl := hlen 0 (Nat.zero_le k)
    have hlaid0 := hlaid 0 (Nat.zero_le k)
    simp only [List.drop_zero, Nat.sub_zero, List.take_zero, blocks_nil, Nat.zero_add,
      Nat.add_zero] at hq hb hl hlaid0
    refine ⟨d, p, past ++ s.areas.take k, ⟨?_, ?_, ?_, ?_, ?_, ?_, hcur⟩, le_rfl⟩
    · exact ⟨by rw [hstart, hc.same.at_eq]; exact hd.disk.1, by rw [hseq]; exact hd.disk.2⟩
    · rw [blocks_append, hd.offset, Nat.add_assoc]
    · rw [List.length_append, hl, hd.seq, Nat.add_assoc]
    · rw [laid_append, ← hd.offset, ← hd.seq]
      exact ⟨hd.laid.congr hc.same.first hc.same.maxlen, hlaid0⟩
    · rw [List.append_assoc, hq]
      exact hstored
    · rw [blocks_append, hin, hsize, hc.queue]
      omega
  · have hb := hblocks j hj
    refine ⟨a + blocks (s.areas.take j), q + j, (s.areas.drop j).take (k - j),
      ⟨hat, ?_, ?_, hlaid j hj, ?_, ?_, hcur⟩, ?_⟩
    · omega
    · rw [hlen j hj]
      omega
    · rw [hqueue j hj]
      rw [← List.take_append_drop j s.areas, ← List.append_assoc, stored_append] at hstored
      have hrest := hstored.2
      rwa [blocks_append, ← Nat.add_assoc, ← hd.offset, List.length_append, ← Nat.add_assoc, ← hd.seq,
        List.length_take, min_eq_left (hj.trans hle)] at hrest
    · rw [hin, hsize, hc.queue]
      omega
    · have hoff := hd.offset
      omega

/-! ## Steps -/

/-- Where the start in memory has not moved on, the block of the on-disk start
    is not the last one: the log would be full of live transactions. -/
theorem Disk.room_lt {past : List Area} (hd : s.Disk a q d p past) (hm : s.Mem a q)
    (hkept : s.last = s.diskStart → s.transId = s.diskSequence) :
    blocks past + blocks s.areas + s.inCommit < s.size := by
  refine lt_of_le_of_ne hd.room fun hfull => ?_
  have hoff := hd.offset
  have hlast : s.last = s.diskStart := by
    rw [hm.mem.last, hd.disk.1, show a + blocks s.areas + s.inCommit = d + s.size by omega]
    exact Ring.pos_add_size
  have hids : u32 q = u32 p := by
    rw [← hm.mem.starts.transId, ← hd.disk.2]
    exact hkept hlast
  have hlen := hd.laid.length_le
  have hsize : s.size ≤ 2 ^ 31 := (Nat.sub_le ..).trans hm.mem.geo.maxlen_le
  have hnil : past.length = 0 := by
    rw [hd.seq] at hids
    unfold u32 at hids
    omega
  have hroom := hm.mem.room
  rw [List.length_eq_zero_iff.1 hnil, blocks_nil] at hfull
  omega

/-- A step that takes a block of the log. -/
theorem Disk.useBlock {past : List Area} {c c' : Commit} {block : ℕ} {s₁ : Journal} (hd : s.Disk a q d p past)
    (hm : s.Mem a q) (hc : s.cur = some c) (hkept : s.last = s.diskStart → s.transId = s.diskSequence)
    (ha : s.allocBlock skipped = some (block, s₁)) (hu : Uses s₁ s' c')
    (htrans : c'.trans.allocBlocks = c.trans.allocBlocks + 1)
    (hlog : s'.log = s₁.log ∨ ∃ r, s'.log = Function.update s₁.log block r)
    (himg : ∀ e r, c.trans.transId = u32 r → s'.CurImage e r c → block = s'.at' (e + c.trans.allocBlocks) →
      s'.CurImage e r c')
    (hk : Checkpointed { s with last := s₁.last } s₁ a q k) :
    ∃ d' p' past', s'.Disk (a + blocks (s.areas.take k)) (q + k) d' p' past' := by
  have hn : s.inCommit = c.trans.allocBlocks := by rw [inCommit, hc]; rfl
  have hlt := hd.room_lt hm hkept
  have hd' : Disk { s with last := s₁.last } a q d p past :=
    ⟨hd.disk, hd.offset, hd.seq, hd.laid.congr rfl rfl, hd.stored.agree (agree_of_log rfl rfl rfl), hd.room,
      fun c hc => (hd.cur c hc).agree (agree_of_log rfl rfl rfl)⟩
  obtain ⟨d', p', past', hd₁, hle⟩ := hd'.checkpointed (hm.mem.laid.congr rfl rfl) hk
  have hqueue : s₁.areas = s.areas.drop k := hk.queue
  have hsplit := blocks_take_drop s.areas k
  have hsize₁ : s₁.size = s.size := by rw [size, size, hk.same.first, hk.same.maxlen]
  have hsize : s'.size = s₁.size := by rw [size, size, hu.first, hu.maxlen]
  have hat₁ : ∀ j, s₁.at' j = s.at' j := hk.same.at_eq
  have hareas : s'.areas = s₁.areas := by rw [areas, areas, hu.cpQueue]
  have hin₁ : s₁.inCommit = s.inCommit := by rw [inCommit, inCommit, hk.same.cur]
  have hin : s'.inCommit = s.inCommit + 1 := by
    rw [inCommit, hu.cur, hn, ← htrans]
    rfl
  obtain ⟨hblock, -⟩ := allocBlock_spec hm.mem ha
  have hoff₀ := hd.offset
  have hoff : a + blocks (s.areas.take k) = d' + blocks past' := hd₁.offset
  -- the block is the one behind the last
  obtain ⟨m, hm'⟩ : ∃ m, m = a + blocks (s.areas.take k) + blocks s₁.areas + c.trans.allocBlocks := ⟨_, rfl⟩
  have hmlt : m < d' + s₁.size := by
    rw [hm', hqueue, hsize₁]
    omega
  have hbm : block = s₁.at' m := by
    rw [hblock, hn, hat₁, hm', hqueue]
    congr 1
    omega
  have hagree : ∀ {i j}, d' ≤ i → j ≤ m → Agree s₁ s' i j := by
    intro i j hi hj
    rcases hlog with hlog | ⟨r, hlog⟩
    · exact agree_of_log hu.first hu.maxlen hlog
    · exact agree_update hi hj hmlt hu.first hu.maxlen (by rw [hlog, hbm])
  have hat : ∀ j, s'.at' j = s₁.at' j := (hagree le_rfl (Nat.zero_le m)).at_eq
  refine ⟨d', p', past', ⟨?_, hoff, hd₁.seq, hd₁.laid.congr hu.first hu.maxlen, ?_, ?_, fun b hb => ?_⟩⟩
  · exact ⟨by rw [hu.disk.1, hat]; exact hd₁.disk.1, by rw [hu.disk.2]; exact hd₁.disk.2⟩
  · rw [hareas]
    refine hd₁.stored.agree (hagree le_rfl ?_)
    rw [blocks_append]
    omega
  · rw [hareas, hin, hsize, hsize₁]
    rw [hqueue]
    omega
  · obtain rfl : c' = b := by simpa [hu.cur] using hb
    rw [hareas]
    refine himg _ _ ?_ ((hd₁.cur c (by rw [hk.same.cur]; exact hc)).agree (hagree ?_ hm'.ge)) ?_
    · rw [(hm.cur c hc).transId, hqueue, List.length_drop]
      have hlek : k ≤ s.areas.length := hk.le
      congr 1
      omega
    · show d' ≤ a + blocks (s.areas.take k) + blocks s₁.areas
      omega
    · rw [hat, hbm, hm']

/-- A header block is written. -/
theorem Disk.putHeader {past : List Area} {c : Commit} {block : ℕ} {h : Header} {r : LogRec}
    (hd : s.Disk a q d p past) (hm : s.Mem a q) (hc : s.cur = some c) (hh : c.hdr = some (block, h))
    (hr : r = match h with
      | .revoke => .revoke c.trans.transId
      | .descriptor tags => .descriptor c.trans.transId tags) : (s.putHeader c block r).Disk a q d p past := by
  have hok := hm.cur c hc
  have hopen : c.committed = false := hok.open_of (.inl (by rw [hh]; simp))
  have himg := hd.cur c hc
  rw [CurImage, if_neg (by simp [hopen]), hh] at himg
  obtain ⟨j, hb, himg⟩ := himg
  have hle := hb.le
  have hoff := hd.offset
  have hroom := hd.room
  have hn : s.inCommit = c.trans.allocBlocks := by rw [inCommit, hc]; rfl
  obtain ⟨hblock, hend⟩ : block = s.at' j ∧ j < a + blocks s.areas + c.trans.allocBlocks := by
    cases h with
    | revoke => exact ⟨himg.1, by omega⟩
    | descriptor tags => exact ⟨himg.1, by omega⟩
  have hagree : ∀ {i k}, d ≤ i → k ≤ j → Agree s (s.putHeader c block r) i k := fun hi hk =>
    agree_update hi hk (by omega) rfl rfl (by rw [← hblock]; rfl)
  have hlog : (s.putHeader c block r).log ((s.putHeader c block r).at' j) = r := by
    show Function.update s.log block r (s.at' j) = r
    rw [hblock, Function.update_self]
  have hbody := hb.agree (hagree (by omega) le_rfl)
  refine ⟨hd.disk, hoff, hd.seq, hd.laid.congr rfl rfl, hd.stored.agree (hagree le_rfl ?_), ?_,
    fun c' hc' => ?_⟩
  · rw [blocks_append]
    omega
  · show blocks past + blocks s.areas + c.trans.allocBlocks ≤ s.size
    omega
  · obtain rfl := Option.some_inj.1 hc'
    show CurImage _ (a + blocks s.areas) (q + s.areas.length) _
    rw [CurImage, if_neg (by simp [hopen])]
    rw [hok.transId] at hr
    cases h with
    | revoke => exact ⟨j + 1, hbody.revoke (hlog.trans hr), himg.2⟩
    | descriptor tags => exact ⟨j + 1 + tags, hbody.descriptor (hlog.trans hr), himg.2⟩

theorem CurImage.logData {c : Commit} {e r hdr tags : ℕ} (hopen : c.committed = false)
    (hh : c.hdr = some (hdr, .descriptor tags)) (h : s.CurImage e r c) :
    s.CurImage e r { c.take with hdr := some (hdr, .descriptor (tags + 1)), data := c.data - 1 } := by
  rw [CurImage, if_neg (by simp [hopen]), hh] at h
  obtain ⟨j, hbody, hj, hend⟩ := h
  rw [CurImage, if_neg (by simp [Commit.take, hopen])]
  refine ⟨j, hbody, hj, ?_⟩
  show e + (c.trans.allocBlocks + 1) = j + 1 + (tags + 1)
  omega

theorem CurImage.openDescriptor {c : Commit} {e r block : ℕ} (hopen : c.committed = false) (hh : c.hdr = none)
    (h : s.CurImage e r c) (hb : block = s.at' (e + c.trans.allocBlocks)) :
    s.CurImage e r { c.take.setStart block with hdr := some (block, .descriptor 0) } := by
  obtain ⟨n, hset⟩ := setStart_eq c.take block
  rw [CurImage, if_neg (by simp [hopen]), hh] at h
  obtain ⟨j, hbody, hend⟩ := h
  rw [hset, CurImage, if_neg (by simp [Commit.take, hopen])]
  refine ⟨j, hbody, by rw [hb, hend], ?_⟩
  show e + (c.trans.allocBlocks + 1) = j + 1 + 0
  omega

theorem CurImage.openRevoke {c : Commit} {e r block revokes : ℕ} (hopen : c.committed = false)
    (hh : c.hdr = none)
    (h : s.CurImage e r c) (hb : block = s.at' (e + c.trans.allocBlocks)) :
    s.CurImage e r { c.take.setStart block with hdr := some (block, .revoke), revokes := revokes } := by
  obtain ⟨n, hset⟩ := setStart_eq c.take block
  rw [CurImage, if_neg (by simp [hopen]), hh] at h
  obtain ⟨j, hbody, hend⟩ := h
  rw [hset, CurImage, if_neg (by simp [Commit.take, hopen])]
  refine ⟨j, hbody, by rw [hb, hend], ?_⟩
  show e + (c.trans.allocBlocks + 1) = j + 1
  omega

theorem CurImage.writeCommitBlock {c : Commit} {e r block : ℕ} (hopen : c.committed = false) (hh : c.hdr = none)
    (hid : c.trans.transId = u32 r) (h : s.CurImage e r c) (hb : block = s.at' (e + c.trans.allocBlocks))
    (hl : s.log block = .commit c.trans.transId) : s.CurImage e r { c.take with committed := true } := by
  rw [CurImage, if_neg (by simp [hopen]), hh] at h
  obtain ⟨j, hbody, hend⟩ := h
  rw [CurImage, if_pos rfl]
  have hend' : e + c.trans.allocBlocks = j := hend
  refine ⟨⟨c.trans.allocBlocks, rfl, ?_, ?_⟩, trivial⟩
  · rw [hend']
    exact hbody
  · rw [← hb, hl, hid]

/-- The next step of the commit takes a block of the log. -/
def takesBlock (s : Journal) : Bool :=
  match s.cur with
  | none => false
  | some c =>
    match c.hdr with
    | some (_, .revoke) => false
    | some (_, .descriptor tags) => c.data ≠ 0 ∧ tags ≠ s.tagCap
    | none => c.data ≠ 0 ∨ c.revokes ≠ 0 ∨ ¬ (c.trans.dataCnt = 0 ∧ c.revokeCnt = 0) ∧ c.committed = false

/-- Where the next step takes the log block at the on-disk start, the sequence
    number in memory has not moved on since the superblock was written. -/
def TailKept (s : Journal) : Op → Prop
  | .next .. => s.takesBlock = true → s.last = s.diskStart → s.transId = s.diskSequence
  | .commitTrans .. | .endWrite .. | .endWriteCur => True

/-- The invariant of the journal in memory and on disk. -/
def OnDisk (s : Journal) : Prop := ∃ a q d p past, s.Mem a q ∧ s.Disk a q d p past

/-- Blocks that are given back stay as they are. -/
theorem Disk.rollback {past : List Area} {c : Commit} {s₁ : Journal} (hd : s.Disk a q d p past)
    (hm : s.Mem a q) (hk : Checkpointed { s with last := s₁.last } s₁ a q k) :
    ∃ d' p' past', (s₁.rollback c).Disk (a + blocks (s.areas.take k)) (q + k) d' p' past' := by
  have hd' : Disk { s with last := s₁.last } a q d p past :=
    ⟨hd.disk, hd.offset, hd.seq, hd.laid.congr rfl rfl, hd.stored.agree (agree_of_log rfl rfl rfl), hd.room,
      fun c hc => (hd.cur c hc).agree (agree_of_log rfl rfl rfl)⟩
  obtain ⟨d', p', past', hd₁, -⟩ := hd'.checkpointed (hm.mem.laid.congr rfl rfl) hk
  refine ⟨d', p', past', ⟨hd₁.disk, hd₁.offset, hd₁.seq, hd₁.laid.congr rfl rfl,
    hd₁.stored.agree (agree_of_log rfl rfl rfl), ?_, fun d hd => absurd hd (by simp [Journal.rollback])⟩⟩
  exact (Nat.le_add_right ..).trans hd₁.room

/-- The committed transaction joins the queue, or is passed. -/
theorem Disk.finish {past : List Area} {c : Commit} (hd : s.Disk a q d p past) (hm : s.Mem a q)
    (hc : s.cur = some c) (hdone : c.committed = true) : ∃ d' p' past',
      (s.finish c.trans).Disk (if s.cpQueue = [] ∧ c.trans.dataCnt = 0 then a + c.trans.allocBlocks else a)
        (if s.cpQueue = [] ∧ c.trans.dataCnt = 0 then q + 1 else q) d' p' past' := by
  have hok := hm.cur c hc
  obtain ⟨-, -, -, hpos⟩ := hok.done hdone
  have hn : s.inCommit = c.trans.allocBlocks := by rw [inCommit, hc]; rfl
  have hstart : c.trans.startIblock = s.at' (a + blocks s.areas) := by
    rw [hok.start, if_neg hpos.ne']
  have himg := hd.cur c hc
  rw [CurImage, if_pos hdone] at himg
  have hroom := hd.room
  rw [hn] at hroom
  have harea : Laid s (a + blocks s.areas) (q + s.areas.length) [c.trans.area] :=
    ⟨hstart, hok.transId, hpos, trivial⟩
  have hoff := hd.offset
  have hseq := hd.seq
  have hone : blocks [c.trans.area] = c.trans.allocBlocks := by simp [Trans.area]
  have hall : Stored s d p (past ++ s.areas ++ [c.trans.area]) := by
    refine stored_append.2 ⟨hd.stored, ?_⟩
    rw [blocks_append, ← Nat.add_assoc, ← hoff, List.length_append, ← Nat.add_assoc, ← hseq]
    exact himg
  by_cases hempty : s.cpQueue = []
  · have hareas : s.areas = [] := by rw [areas, hempty, List.map_nil]
    by_cases hdata : c.trans.dataCnt ≠ 0
    · rw [Journal.finish, if_pos hempty, if_pos hdata, if_neg (fun h => hdata h.2), if_neg (fun h => hdata h.2)]
      rw [hareas, blocks_nil, Nat.add_zero] at hstart
      rw [hareas, blocks_nil, Nat.add_zero] at himg
      have hid := hok.transId
      rw [hareas] at hid
      refine ⟨a, q, [], ⟨⟨?_, hid⟩, rfl, rfl, trivial, ?_, ?_, fun b hb =>
        absurd hb (by simp [writeSb, sbWrite])⟩⟩
      · show s.wrap c.trans.startIblock = s.at' a
        rw [hstart]
        exact hm.mem.geo.wrap_at a
      · exact Stored.agree (s := s) himg (agree_of_log rfl rfl rfl)
      · show 0 + blocks [c.trans.area] + 0 ≤ s.size
        omega
    · have hboth : s.cpQueue = [] ∧ c.trans.dataCnt = 0 := ⟨hempty, not_not.1 hdata⟩
      rw [Journal.finish, if_pos hempty, if_neg hdata, if_pos hboth, if_pos hboth]
      rw [hareas] at harea hall hroom
      rw [List.append_nil] at hall
      rw [blocks_nil] at harea hroom
      have hareas' : ({ s.pass c.trans with cur := none }.writeSb : Journal).areas = [] := hareas
      refine ⟨d, p, past ++ [c.trans.area], ⟨hd.disk, ?_, ?_, ?_, ?_, ?_, fun b hb =>
        absurd hb (by simp [writeSb])⟩⟩
      · rw [blocks_append, hone]
        omega
      · rw [List.length_append, List.length_singleton]
        omega
      · refine Laid.congr (s := s) (laid_append.2 ⟨hd.laid, ?_⟩) rfl rfl
        rw [← hoff, ← hseq]
        exact harea
      · rw [hareas', List.append_nil]
        exact Stored.agree (s := s) hall (agree_of_log rfl rfl rfl)
      · rw [hareas', blocks_append, hone]
        show blocks past + c.trans.allocBlocks + 0 + 0 ≤ s.size
        omega
  · rw [Journal.finish, if_neg hempty, if_neg (fun h => hempty h.1), if_neg (fun h => hempty h.1)]
    have hareas' : ({ s with cpQueue := s.cpQueue ++ [c.trans], cur := none } : Journal).areas =
        s.areas ++ [c.trans.area] := by
      rw [areas, areas, List.map_append]
      rfl
    refine ⟨d, p, past, ⟨hd.disk, hoff, hseq, hd.laid.congr rfl rfl, ?_, ?_, fun b hb => absurd hb (by simp)⟩⟩
    · rw [hareas', ← List.append_assoc]
      exact Stored.agree (s := s) hall (agree_of_log rfl rfl rfl)
    · rw [hareas', blocks_append, hone]
      show blocks past + (blocks s.areas + c.trans.allocBlocks) + 0 ≤ s.size
      omega

/-- **Each step of a commit** keeps the invariant. -/
theorem onDisk_nextStep {past : List Area} {c : Commit} (hm : s.Mem a q) (hd : s.Disk a q d p past)
    (hc : s.cur = some c) (hn : NextStep s c skipped s')
    (hkept : s.takesBlock = true → s.last = s.diskStart → s.transId = s.diskSequence) : s'.OnDisk := by
  have hok := hm.cur c hc
  cases hn with
  | revoke block hh => exact ⟨a, q, d, p, past, hm.putHeader hc hh _, hd.putHeader hm hc hh rfl⟩
  | descriptor block tags hh => exact ⟨a, q, d, p, past, hm.putHeader hc hh _, hd.putHeader hm hc hh rfl⟩
  | logData hdr tags block s₁ hh hdata ht ha =>
    have hopen := hok.open_of (.inl (by rw [hh]; simp))
    have htakes : s.takesBlock = true := by simp [takesBlock, hc, hh, hdata, ht]
    obtain ⟨k, hk, hm'⟩ := hm.logData hc hh ha
    obtain ⟨d', p', past', hd'⟩ := hd.useBlock hm hc (hkept htakes) ha (uses_logData hopen hdr tags block) rfl
      (.inr ⟨.data, rfl⟩) (fun e r _ himg _ => himg.logData hopen hh) hk
    exact ⟨_, _, d', p', past', hm', hd'⟩
  | openDescriptor block s₁ hh hdata ha =>
    have hopen := hok.open_of (.inr (.inl hdata))
    have htakes : s.takesBlock = true := by simp [takesBlock, hc, hh, hdata]
    obtain ⟨n, hset⟩ := setStart_eq c.take block
    obtain ⟨k, hk, hm'⟩ := hm.openDescriptor hc hdata ha
    obtain ⟨d', p', past', hd'⟩ := hd.useBlock hm hc (hkept htakes) ha (uses_openDescriptor hopen block)
      (by rw [hset]; rfl) (.inl rfl) (fun e r _ himg hb => himg.openDescriptor hopen hh hb) hk
    exact ⟨_, _, d', p', past', hm', hd'⟩
  | openRevoke block s₁ hh hdata hr ha =>
    have hopen := hok.open_of (.inr (.inr (.inl hr)))
    have htakes : s.takesBlock = true := by simp [takesBlock, hc, hh, hr]
    obtain ⟨n, hset⟩ := setStart_eq c.take block
    obtain ⟨k, hk, hm'⟩ := hm.openRevoke hc hr ha
    obtain ⟨d', p', past', hd'⟩ := hd.useBlock hm hc (hkept htakes) ha (uses_openRevoke hopen block)
      (by rw [hset]; rfl) (.inl rfl) (fun e r _ himg hb => himg.openRevoke hopen hh hb) hk
    exact ⟨_, _, d', p', past', hm', hd'⟩
  | commitBlock block s₁ hh hdata hr hsome hopen ha =>
    have htakes : s.takesBlock = true := by
      simp only [takesBlock, hc, hh, hopen]
      exact decide_eq_true (.inr (.inr ⟨hsome, trivial⟩))
    obtain ⟨k, hk, hm'⟩ := hm.writeCommitBlock hc hh hdata hr hsome hopen ha
    obtain ⟨d', p', past', hd'⟩ := hd.useBlock hm hc (hkept htakes) ha (uses_writeCommitBlock c block) rfl
      (.inr ⟨_, rfl⟩) (fun e r hid himg hb => himg.writeCommitBlock hopen hh hid hb
        (Function.update_self ..)) hk
    exact ⟨_, _, d', p', past', hm', hd'⟩
  | rollback block s₁ hopen ha =>
    obtain ⟨k, hk, hm'⟩ := hm.rollback hc (hok.open_of hopen) ha
    obtain ⟨d', p', past', hd'⟩ := hd.rollback (c := c) hm hk
    exact ⟨_, _, d', p', past', hm', hd'⟩
  | empty h0 =>
    refine ⟨a, q, d, p, past, hm.empty hc h0, ⟨hd.disk, hd.offset, hd.seq, hd.laid.congr rfl rfl,
      hd.stored.agree (agree_of_log rfl rfl rfl), ?_, fun c hc => absurd hc (by simp)⟩⟩
    exact (Nat.le_add_right ..).trans hd.room
  | finish hsome hdone =>
    obtain ⟨d', p', past', hd'⟩ := hd.finish hm hc hdone
    exact ⟨_, _, d', p', past', hm.finish hc hdone, hd'⟩

/-- **Every step** keeps the invariant. -/
theorem OnDisk.step (h : s.OnDisk) {op : Op} (hkept : s.TailKept op) (hs : s.step op = some s') :
    s'.OnDisk := by
  obtain ⟨a, q, d, p, past, hm, hd⟩ := h
  cases op with
  | commitTrans data revokes =>
    refine ⟨a, q, d, p, past, hm.commitTrans hs, ?_⟩
    rw [Journal.step, commitTrans] at hs
    cases hc : s.cur with
    | some c =>
      rw [hc] at hs
      exact absurd hs (by simp)
    | none =>
      rw [hc] at hs
      obtain rfl := Option.some_inj.1 hs
      have hroom := hd.room
      rw [inCommit, hc] at hroom
      refine ⟨hd.disk, hd.offset, hd.seq, hd.laid.congr rfl rfl, hd.stored.agree (agree_of_log rfl rfl rfl),
        hroom, fun c hcur => ?_⟩
      obtain rfl := Option.some_inj.1 hcur
      exact ⟨_, .nil _, rfl⟩
  | next fail skipped =>
    cases hc : s.cur with
    | none =>
      rw [Journal.step, next, hc] at hs
      exact absurd hs (by simp)
    | some c => exact onDisk_nextStep hm hd hc (next_cases hc hs) hkept
  | endWrite i stale =>
    have hroom : blocks s.areas ≤ s.size := (Nat.le_add_right ..).trans hm.mem.room.le
    obtain ⟨k, hk⟩ := endWrite_spec hm.mem.geo hm.mem.starts hm.mem.laid hroom hs
    obtain ⟨d', p', past', hd', -⟩ := hd.checkpointed hm.mem.laid hk
    exact ⟨_, _, d', p', past', hm.checkpointed hk (endWrite_written hs hm.written), hd'⟩
  | endWriteCur =>
    refine ⟨a, q, d, p, past, hm.endWriteCur hs, ?_⟩
    obtain ⟨c, hc, hcom, -, rfl⟩ := endWriteCur_cases hs
    have hroom := hd.room
    rw [inCommit, hc] at hroom
    have himg := hd.cur c hc
    rw [CurImage, if_pos hcom] at himg
    refine ⟨hd.disk, hd.offset, hd.seq, hd.laid.congr rfl rfl, hd.stored.agree (agree_of_log rfl rfl rfl),
      hroom, fun d hcur => ?_⟩
    obtain rfl := Option.some_inj.1 hcur
    rw [CurImage, if_pos hcom]
    exact himg.agree (agree_of_log rfl rfl rfl)

theorem onDisk_start {first maxlen sequence tagCap revokeCap : ℕ} {log : ℕ → LogRec}
    (hg : (journalStart first maxlen sequence tagCap revokeCap log).Geometry) :
    (journalStart first maxlen sequence tagCap revokeCap log).OnDisk := by
  refine ⟨0, sequence + 1, 0, sequence + 1, [], mem_start hg, ⟨⟨?_, rfl⟩, rfl, rfl, trivial, trivial, ?_, ?_⟩⟩
  · exact Ring.pos_zero.symm
  · exact Nat.zero_le _
  · exact fun c hc => absurd hc (by simp [journalStart])

theorem reach_onDisk (hs : Reach Geometry TailKept s) : s.OnDisk := by
  induction hs with
  | start first maxlen sequence tagCap revokeCap log hg => exact onDisk_start hg
  | step op _ hop hstep ih => exact ih.step hop hstep

/-! ## The tail is usable -/

/-- The committed transactions that are not yet checkpointed. -/
def unchecked (s : Journal) : List Area :=
  s.areas ++ ((s.cur.filter Commit.committed).map fun c => c.trans.area).toList

/-- A scan of the log on disk reaches every committed transaction that is not
    yet checkpointed. -/
def Found (s : Journal) : Prop := ∀ t ∈ s.unchecked, (t.transId, t.start) ∈ s.scan

theorem Disk.found {past : List Area} (hd : s.Disk a q d p past) (hg : s.Geometry) (hl : Laid s a q s.areas)
    (hcur : ∀ c, s.cur = some c → s.CurOk (a + blocks s.areas) (q + s.areas.length) c) : s.Found := by
  obtain ⟨us, hus, hlaid, hstored, hblocks⟩ : ∃ us, s.unchecked = s.areas ++ us ∧
      Laid s (a + blocks s.areas) (q + s.areas.length) us ∧
      Stored s (a + blocks s.areas) (q + s.areas.length) us ∧ blocks us ≤ s.inCommit := by
    cases hc : s.cur with
    | none => exact ⟨[], by rw [unchecked, hc]; rfl, trivial, trivial, Nat.zero_le _⟩
    | some c =>
      have hok := hcur c hc
      have himg := hd.cur c hc
      by_cases hcom : c.committed = true
      · obtain ⟨-, -, -, hpos⟩ := hok.done hcom
        rw [CurImage, if_pos hcom] at himg
        refine ⟨[c.trans.area], ?_, ⟨?_, hok.transId, hpos, trivial⟩, himg, ?_⟩
        · rw [unchecked, hc, Option.filter_some_pos hcom]
          rfl
        · exact hok.start.trans (if_neg hpos.ne')
        · rw [inCommit, hc]
          simp [Trans.area]
      · refine ⟨[], ?_, trivial, trivial, Nat.zero_le _⟩
        rw [unchecked, hc, Option.filter_some_neg (by simpa using hcom)]
        rfl
  have hoff := hd.offset
  have hseq := hd.seq
  have hroom := hd.room
  have hall : Stored s d p (past ++ s.areas ++ us) := by
    refine stored_append.2 ⟨hd.stored, ?_⟩
    rw [blocks_append, ← Nat.add_assoc, ← hoff, List.length_append, ← Nat.add_assoc, ← hseq]
    exact hstored
  have hlaidAll : Laid s d p (past ++ s.areas ++ us) := by
    refine laid_append.2 ⟨laid_append.2 ⟨hd.laid, by rw [← hoff, ← hseq]; exact hl⟩, ?_⟩
    rw [blocks_append, ← Nat.add_assoc, ← hoff, List.length_append, ← Nat.add_assoc, ← hseq]
    exact hlaid
  have hsize : blocks (past ++ s.areas ++ us) ≤ s.size := by
    rw [blocks_append, blocks_append]
    omega
  intro t ht
  have hscan := hall.scan hg hlaidAll hd.disk.1 le_rfl (Nat.add_le_add_left hsize d) hsize t ?_
  · rw [Journal.scan, hd.disk.1, hd.disk.2]
    exact hscan
  · rw [hus] at ht
    rw [List.append_assoc]
    exact List.mem_append_right _ ht

/-- The log block that is taken next: the scan still finds everything before it
    is written, it belongs to no transaction that is not checkpointed, and it
    is the one at the on-disk start only where the log is empty. -/
structure BlockSafe (s : Journal) (block : ℕ) (s' : Journal) : Prop where
  found : s'.Found
  free : block ∉ s.live.flatMap s.areaBlocks
  start : block = s.diskStart → s.live.flatMap s.areaBlocks = []

/-- **In every run** in which the block at the on-disk start is not taken while
    the start in memory has moved on, the tail of the log on disk is usable. -/
theorem reach_tail (hs : Reach Geometry TailKept s) : s.Found ∧
    ∀ fail skipped block s', s.takesBlock = true → s.TailKept (.next fail skipped) →
      s.allocBlock skipped = some (block, s') →
      s.BlockSafe block s' := by
  obtain ⟨a, q, d, p, past, hm, hd⟩ := reach_onDisk hs
  refine ⟨hd.found hm.mem.geo hm.mem.laid hm.cur, fun fail skipped block s' htakes hkept ha => ⟨?_, ?_, ?_⟩⟩
  · obtain ⟨-, k, hk, hmem⟩ := allocBlock_spec hm.mem ha
    have hd' : Disk { s with last := s'.last } a q d p past :=
      ⟨hd.disk, hd.offset, hd.seq, hd.laid.congr rfl rfl, hd.stored.agree (agree_of_log rfl rfl rfl), hd.room,
        fun c hc => (hd.cur c hc).agree (agree_of_log rfl rfl rfl)⟩
    obtain ⟨d', p', past', hd₁, -⟩ := hd'.checkpointed (hm.mem.laid.congr rfl rfl) hk
    refine hd₁.found hmem.geo hmem.laid fun c hc => ?_
    have hqueue : s'.areas = s.areas.drop k := hk.queue
    have hsplit := blocks_take_drop s.areas k
    have hle : k ≤ s.areas.length := hk.le
    have hok := hm.cur c (by rw [← hc, hk.same.cur])
    show s'.CurOk (a + blocks (s.areas.take k) + blocks s'.areas) _ c
    rw [hqueue, Nat.add_assoc a, hsplit, List.length_drop, show q + k + (s.areas.length - k) =
      q + s.areas.length by omega]
    exact hok.congr hk.same.first hk.same.maxlen
  · exact hm.ringSafe.alloc skipped block s' ha
  · intro hstart
    obtain ⟨hblock, -⟩ := allocBlock_spec hm.mem ha
    have hlast : s.last = s.diskStart := hm.mem.last.trans (hblock.symm.trans hstart)
    have hlt := hd.room_lt hm (hkept htakes)
    have hoff := hd.offset
    rw [hm.live_blocks]
    have hnone : a + blocks s.areas + s.inCommit = d := by
      by_contra hne
      exact Ring.pos_ne (show d < a + blocks s.areas + s.inCommit by omega) (by omega)
        (hd.disk.1.symm.trans (hlast.symm.trans hm.mem.last))
    rw [show blocks s.areas + s.inCommit = 0 by omega]
    rfl

instance (s : Journal) : DecidablePred s.TailKept := fun op =>
  match op with
  | .next .. => inferInstanceAs (Decidable (s.takesBlock = true → s.last = s.diskStart →
    s.transId = s.diskSequence))
  | .commitTrans .. => isTrue trivial
  | .endWrite .. => isTrue trivial
  | .endWriteCur => isTrue trivial

/-- A step with the condition checked before it. -/
def keptStep (s : Journal) (op : Op) : Option Journal := if s.TailKept op then s.step op else none

theorem reach_keptStep {ops : List Op} (hs : Reach Geometry TailKept s)
    (hrun : ops.foldlM keptStep s = some s') :
    Reach Geometry TailKept s' := by
  induction ops generalizing s with
  | nil => exact Option.some_inj.1 hrun ▸ hs
  | cons op ops ih =>
    rw [List.foldlM_cons] at hrun
    obtain ⟨s₁, hs₁, hrun⟩ := Option.bind_eq_some_iff.1 hrun
    rw [keptStep] at hs₁
    split_ifs at hs₁ with hkept
    exact ih (hs.step op hkept hs₁) hrun

/-- A buffer is committed and written in place, and then another one is committed. -/
def twoCommits : List Op :=
  .commitTrans 1 0 :: List.replicate 5 (.next false 0) ++ .endWrite 0 false :: .commitTrans 1 0 ::
    List.replicate 4 (.next false 0)

theorem reach_tail_twoCommits : ∃ s : Journal, twoCommits.foldlM keptStep (smallLog 8) = some s ∧ s.Found ∧
    ∀ fail skipped block s', s.takesBlock = true → s.TailKept (.next fail skipped) →
      s.allocBlock skipped = some (block, s') →
      s.BlockSafe block s' := by
  have hrun : (twoCommits.foldlM keptStep (smallLog 8)).isSome = true := by decide +kernel
  obtain ⟨s, hs⟩ := Option.isSome_iff_exists.1 hrun
  have hfirst : Reach Geometry TailKept (smallLog 8) := .start 1 8 0 10 10 _
    (smallLog_geometry (by omega) (by omega))
  exact ⟨s, hs, reach_tail (reach_keptStep hfirst hs)⟩

/-- A buffer is committed and written in place, a transaction with a revoke
    only is committed, and then four buffers. -/
def pureRevoke : List Op :=
  .commitTrans 1 0 :: List.replicate 5 (.next false 0) ++ .endWrite 0 false :: .commitTrans 0 1 ::
    List.replicate 4 (.next false 0) ++ .commitTrans 4 0 :: List.replicate 7 (.next false 0)

/-- **The tail is lost**: the transaction with a revoke only moves the start in
    memory but not on disk, and the next one takes the block that the start on
    disk points at. -/
theorem tail_lost : ¬ ∀ s : Journal, Reach Geometry (fun _ _ => True) s → s.Found := by
  intro h
  have hrun : (pureRevoke.foldlM step (smallLog 8)).any
      (fun s => s.unchecked.any fun t => (t.transId, t.start) ∉ s.scan) = true := by decide +kernel
  rw [Option.any_eq_true] at hrun
  obtain ⟨s, hs, hend⟩ := hrun
  rw [List.any_eq_true] at hend
  obtain ⟨t, ht, hlost⟩ := hend
  have hfirst : Reach Geometry (fun _ _ => True) (smallLog 8) :=
    .start 1 8 0 10 10 _ (smallLog_geometry (by omega) (by omega))
  have hreach := reach_foldlM hfirst (fun _ _ _ => trivial) hs
  exact absurd (h s hreach t ht) (by simpa using hlost)

end Journal

end Lwext4
