/-
  The ring of the log: where transactions lie, and where the next block comes
  from.

  Offsets into the log and sequence numbers are counted on for ever in the
  proofs; `at'` and `u32` bring them back to what the journal stores.
  `Laid s a q ts` says that the transactions `ts` follow each other from
  offset `a` and sequence number `q` on, and `Mem` is the invariant of the
  journal in memory.  `Checkpointed s s' k` is what checkpointing can do: the
  first `k` transactions leave the queue.
-/
import Lwext4.JbdLog
import Lwext4.Lib.Ring

namespace Lwext4

/-- Where a committed transaction lies in the log. -/
structure Area where
  transId : ℕ
  start : ℕ
  blocks : ℕ

def Trans.area (t : Trans) : Area := ⟨t.transId, t.startIblock, t.allocBlocks⟩

namespace Journal

/-- The blocks of the log. -/
def size (s : Journal) : ℕ := s.maxlen - s.first

/-- The log block at an offset. -/
def at' (s : Journal) (k : ℕ) : ℕ := Ring.pos s.first s.size k

/-- A journal superblock that makes sense; the positions are 32 bits wide. -/
structure Geometry (s : Journal) : Prop where
  first_pos : 0 < s.first
  first_lt : s.first < s.maxlen
  maxlen_le : s.maxlen ≤ 2 ^ 31
  tagCap_pos : 0 < s.tagCap
  revokeCap_pos : 0 < s.revokeCap

/-- The blocks of some transactions. -/
def blocks (ts : List Area) : ℕ := (ts.map Area.blocks).sum

/-- The transactions follow each other. -/
def Laid (s : Journal) : ℕ → ℕ → List Area → Prop
  | _, _, [] => True
  | a, q, t :: ts => t.start = s.at' a ∧ t.transId = u32 q ∧ 0 < t.blocks ∧ Laid s (a + t.blocks) (q + 1) ts

/-- The transactions on the checkpoint queue. -/
def areas (s : Journal) : List Area := s.cpQueue.map Trans.area

variable {s s' s'' : Journal} {a q k : ℕ} {t : Area} {ts us : List Area}

@[simp] theorem blocks_nil : blocks [] = 0 := rfl

@[simp] theorem blocks_cons : blocks (t :: ts) = t.blocks + blocks ts := by
  simp [blocks]

@[simp] theorem blocks_append : blocks (ts ++ us) = blocks ts + blocks us := by
  simp [blocks]

theorem blocks_take_drop (ts : List Area) (k : ℕ) : blocks (ts.take k) + blocks (ts.drop k) = blocks ts := by
  rw [← blocks_append, List.take_append_drop]

theorem laid_append : Laid s a q (ts ++ us) ↔ Laid s a q ts ∧ Laid s (a + blocks ts) (q + ts.length) us := by
  induction ts generalizing a q with
  | nil => simp [Laid]
  | cons t ts ih =>
    simp only [List.cons_append, Laid, ih, blocks_cons, List.length_cons, and_assoc]
    rw [Nat.add_assoc a, Nat.add_assoc q, Nat.add_comm 1]

theorem Laid.drop (h : Laid s a q ts) (hk : k ≤ ts.length) :
    Laid s (a + blocks (ts.take k)) (q + k) (ts.drop k) := by
  rw [← List.take_append_drop k ts, laid_append, List.length_take, min_eq_left hk] at h
  exact h.2

theorem Laid.congr (h : Laid s a q ts) (hf : s'.first = s.first) (hm : s'.maxlen = s.maxlen) :
    Laid s' a q ts := by
  have hat : ∀ k, s'.at' k = s.at' k := fun k => by rw [at', at', size, size, hf, hm]
  induction ts generalizing a q with
  | nil => trivial
  | cons t ts ih => exact ⟨h.1.trans (hat a).symm, h.2.1, h.2.2.1, ih h.2.2.2⟩

theorem Laid.length_le (h : Laid s a q ts) : ts.length ≤ blocks ts := by
  induction ts generalizing a q with
  | nil => exact le_rfl
  | cons t ts ih =>
    have hrest := ih h.2.2.2
    have hpos := h.2.2.1
    rw [List.length_cons, blocks_cons]
    omega

/-! ## Positions -/

theorem Geometry.size_pos (hg : s.Geometry) : 0 < s.size := Nat.sub_pos_of_lt hg.first_lt

theorem Geometry.first_add (hg : s.Geometry) : s.first + s.size = s.maxlen :=
  Nat.add_sub_cancel' hg.first_lt.le

theorem Geometry.at_lt (hg : s.Geometry) (k : ℕ) : s.at' k < s.maxlen := by
  rw [← hg.first_add]
  exact Ring.pos_lt hg.size_pos

theorem first_le_at (s : Journal) (k : ℕ) : s.first ≤ s.at' k := Ring.le_pos

theorem Geometry.wrap_eq (hg : s.Geometry) {v : ℕ} (hv : v < 2 ^ 32) :
    s.wrap v = if s.first + s.size ≤ v then v - s.size else v := by
  have hm := hg.maxlen_le
  rw [wrap, hg.first_add]
  split_ifs with h
  · rw [sub32_of_le hg.first_lt.le (by omega), sub32_of_le _ hv]
    · rfl
    · exact (Nat.sub_le ..).trans h
  · rfl

/-- `wrap` brings a position moved by at most a round back into the log. -/
theorem Geometry.wrap_add (hg : s.Geometry) {n : ℕ} (hn : n ≤ s.size) :
    s.wrap (u32 (s.at' k + n)) = s.at' (k + n) := by
  have hlt := hg.at_lt k
  have hm := hg.maxlen_le
  have hsize : s.size ≤ s.maxlen := Nat.sub_le ..
  have hsum : s.at' k + n < 2 ^ 32 := by omega
  rw [u32_of_lt hsum, hg.wrap_eq hsum]
  exact (Ring.pos_add hn hg.size_pos).symm

theorem Geometry.wrap_at (hg : s.Geometry) (k : ℕ) : s.wrap (s.at' k) = s.at' k := by
  have hlt := hg.at_lt k
  rw [wrap, if_neg (by omega)]

/-! ## Checkpointing -/

/-- What checkpointing does not touch. -/
structure Same (s s' : Journal) : Prop where
  first : s'.first = s.first
  maxlen : s'.maxlen = s.maxlen
  tagCap : s'.tagCap = s.tagCap
  revokeCap : s'.revokeCap = s.revokeCap
  last : s'.last = s.last
  allocTransId : s'.allocTransId = s.allocTransId
  log : s'.log = s.log
  cur : s'.cur = s.cur

theorem Same.trans (h : Same s s') (h' : Same s' s'') : Same s s'' :=
  ⟨h'.first.trans h.first, h'.maxlen.trans h.maxlen, h'.tagCap.trans h.tagCap, h'.revokeCap.trans h.revokeCap,
    h'.last.trans h.last, h'.allocTransId.trans h.allocTransId, h'.log.trans h.log, h'.cur.trans h.cur⟩

theorem Same.at_eq (h : Same s s') (k : ℕ) : s'.at' k = s.at' k := by
  rw [at', at', size, size, h.first, h.maxlen]

theorem Same.geometry (h : Same s s') (hg : s.Geometry) : s'.Geometry :=
  ⟨by rw [h.first]; exact hg.first_pos, by rw [h.first, h.maxlen]; exact hg.first_lt,
    by rw [h.maxlen]; exact hg.maxlen_le, by rw [h.tagCap]; exact hg.tagCap_pos,
    by rw [h.revokeCap]; exact hg.revokeCap_pos⟩

/-- The log starts at offset `a` with sequence number `q`. -/
structure StartsAt (s : Journal) (a q : ℕ) : Prop where
  start : s.start = s.at' a
  transId : s.transId = u32 q

/-- The superblock on disk is at offset `a` and sequence number `q`. -/
def DiskAt (s : Journal) (a q : ℕ) : Prop := s.diskStart = s.at' a ∧ s.diskSequence = u32 q

/-- The first `k` transactions have left the queue; the superblock on disk has
    come with them for some time, if at all. -/
structure Checkpointed (s s' : Journal) (a q k : ℕ) : Prop where
  same : Same s s'
  le : k ≤ s.areas.length
  queue : s'.areas = s.areas.drop k
  starts : s'.StartsAt (a + blocks (s.areas.take k)) (q + k)
  disk : (s'.diskStart = s.diskStart ∧ s'.diskSequence = s.diskSequence) ∨
    ∃ j ≤ k, s'.DiskAt (a + blocks (s.areas.take j)) (q + j)

theorem Checkpointed.refl (hs : s.StartsAt a q) : Checkpointed s s a q 0 where
  same := ⟨rfl, rfl, rfl, rfl, rfl, rfl, rfl, rfl⟩
  le := Nat.zero_le _
  queue := rfl
  starts := hs
  disk := .inl ⟨rfl, rfl⟩

theorem Checkpointed.trans {k' : ℕ} (h : Checkpointed s s' a q k)
    (h' : Checkpointed s' s'' (a + blocks (s.areas.take k)) (q + k) k') : Checkpointed s s'' a q (k + k') := by
  have hlen : k' ≤ s.areas.length - k := by
    have hle := h'.le
    rwa [h.queue, List.length_drop] at hle
  have hk := h.le
  have htake : ∀ j, blocks (s.areas.take (k + j)) = blocks (s.areas.take k) + blocks (s'.areas.take j) := by
    intro j
    rw [h.queue, List.take_add, blocks_append]
  refine ⟨h.same.trans h'.same, by omega, ?_, ?_, ?_⟩
  · rw [h'.queue, h.queue, List.drop_drop]
  · rw [htake, ← Nat.add_assoc, ← Nat.add_assoc]
    exact h'.starts
  · rcases h'.disk with ⟨hd, hq⟩ | ⟨j, hj, hd⟩
    · rcases h.disk with ⟨hd', hq'⟩ | ⟨j, hj, hd'⟩
      · exact .inl ⟨hd.trans hd', hq.trans hq'⟩
      · refine .inr ⟨j, by omega, ?_, ?_⟩
        · rw [h'.same.at_eq, hd]
          exact hd'.1
        · rw [hq]
          exact hd'.2
    · refine .inr ⟨k + j, by omega, ?_⟩
      rw [htake, ← Nat.add_assoc, ← Nat.add_assoc]
      exact hd

/-- A transaction leaves the queue. -/
theorem Geometry.pass_starts (hg : s.Geometry) {t : Trans} (hstart : t.startIblock = s.at' a)
    (hid : t.transId = u32 q) (hle : t.allocBlocks ≤ s.size) :
    (s.pass t).StartsAt (a + t.allocBlocks) (q + 1) := by
  constructor
  · show s.wrap (u32 (t.startIblock + t.allocBlocks)) = s.at' (a + t.allocBlocks)
    rw [hstart, hg.wrap_add hle]
  · show u32 (t.transId + 1) = u32 (q + 1)
    rw [hid, u32_u32_add]

/-- The loop of **`jbd_journal_purge_cp_trans`**. -/
theorem purgeLoop_spec (hg : s.Geometry) (hs : s.StartsAt a q) {us : List Trans}
    (hl : Laid s a q (us.map Trans.area)) (hroom : blocks (us.map Trans.area) ≤ s.size) :
    ∃ k, Checkpointed { s with cpQueue := us } (purgeLoop us s) a q k ∧
      (purgeLoop us s).diskStart = s.diskStart ∧ (purgeLoop us s).diskSequence = s.diskSequence := by
  induction us generalizing s a q with
  | nil => exact ⟨0, Checkpointed.refl ⟨hs.start, hs.transId⟩, rfl, rfl⟩
  | cons t us ih =>
    obtain ⟨hstart, hid, hpos, hrest⟩ := hl
    rw [List.map_cons, blocks_cons] at hroom
    have hle : t.allocBlocks ≤ s.size := (Nat.le_add_right ..).trans hroom
    have hpass : (s.pass t).writeSb.StartsAt (a + t.allocBlocks) (q + 1) := by
      have hp := hg.pass_starts hstart hid hle
      exact ⟨hp.start, hp.transId⟩
    -- both kinds of transactions that leave the queue do it the same way
    have hgo : ∃ k, Checkpointed { s with cpQueue := t :: us } (purgeLoop us (s.pass t).writeSb) a q k ∧
        (purgeLoop us (s.pass t).writeSb).diskStart = s.diskStart ∧
        (purgeLoop us (s.pass t).writeSb).diskSequence = s.diskSequence := by
      have hg' : (s.pass t).writeSb.Geometry := ⟨hg.first_pos, hg.first_lt, hg.maxlen_le,
        hg.tagCap_pos, hg.revokeCap_pos⟩
      have hrest' : (s.pass t).writeSb.Laid (a + t.allocBlocks) (q + 1) (us.map Trans.area) :=
        Laid.congr (s := s) hrest rfl rfl
      obtain ⟨k, hc, hd, hq⟩ := ih hg' hpass hrest' ((Nat.le_add_left ..).trans hroom)
      refine ⟨1 + k, ?_, hd, hq⟩
      have hone :
          Checkpointed { s with cpQueue := t :: us } { (s.pass t).writeSb with cpQueue := us } a q 1 := by
        refine ⟨⟨rfl, rfl, rfl, rfl, rfl, rfl, rfl, rfl⟩, by simp [areas], rfl, ?_, .inl ⟨rfl, rfl⟩⟩
        rw [show blocks (List.take 1 ({ s with cpQueue := t :: us } : Journal).areas) = t.allocBlocks by
          simp [areas, Trans.area]]
        exact ⟨hpass.start, hpass.transId⟩
      refine hone.trans ?_
      rw [show blocks (List.take 1 ({ s with cpQueue := t :: us } : Journal).areas) = t.allocBlocks by
          simp [areas, Trans.area]]
      exact hc
    rw [purgeLoop]
    split_ifs with h0 hdone
    · exact hgo
    · exact hgo
    · refine ⟨0, ⟨⟨rfl, rfl, rfl, rfl, rfl, rfl, rfl, rfl⟩, Nat.zero_le _, rfl, ?_, .inl ⟨rfl, rfl⟩⟩, rfl, rfl⟩
      constructor
      · show s.wrap t.startIblock = s.at' a
        rw [show t.startIblock = s.at' a from hstart, hg.wrap_at]
      · exact hid

/-- The first transaction leaves the queue, and the purge goes on behind it. -/
theorem complete_spec (hg : s.Geometry) {t : Trans} {us : List Trans} (hs : s.cpQueue = t :: us)
    (hl : Laid s a q s.areas) (hroom : blocks s.areas ≤ s.size) (t' : Trans) (ht' : t'.area = t.area) :
    ∃ k, Checkpointed s (purgeLoop us (s.pass t')).writeSb.sbWrite a q (k + 1) := by
  have hareas : s.areas = t.area :: us.map Trans.area := by rw [areas, hs, List.map_cons]
  rw [hareas] at hl hroom
  obtain ⟨hstart, hid, hpos, hrest⟩ := hl
  rw [blocks_cons] at hroom
  have hstart' : t'.startIblock = s.at' a := (congrArg Area.start ht').trans hstart
  have hid' : t'.transId = u32 q := (congrArg Area.transId ht').trans hid
  have hblocks : t'.allocBlocks = t.area.blocks := congrArg Area.blocks ht'
  have hle : t'.allocBlocks ≤ s.size := by omega
  have hpass := hg.pass_starts hstart' hid' hle
  have hg' : (s.pass t').Geometry := ⟨hg.first_pos, hg.first_lt, hg.maxlen_le, hg.tagCap_pos, hg.revokeCap_pos⟩
  have hrest' : (s.pass t').Laid (a + t'.allocBlocks) (q + 1) (us.map Trans.area) := by
    rw [hblocks]
    exact Laid.congr (s := s) hrest rfl rfl
  obtain ⟨k, hc, hd, hq⟩ := purgeLoop_spec hg' hpass hrest' ((Nat.le_add_left ..).trans hroom)
  have hone : Checkpointed s { s.pass t' with cpQueue := us } a q 1 := by
    refine ⟨⟨rfl, rfl, rfl, rfl, rfl, rfl, rfl, rfl⟩, by simp [hareas], ?_, ?_, .inl ⟨rfl, rfl⟩⟩
    · rw [hareas]
      rfl
    · rw [show blocks (s.areas.take 1) = t'.allocBlocks by simp [hareas, hblocks]]
      exact ⟨hpass.start, hpass.transId⟩
  have htwo : Checkpointed s (purgeLoop us (s.pass t')) a q (1 + k) := by
    refine hone.trans ?_
    rw [show blocks (s.areas.take 1) = t'.allocBlocks by simp [hareas, hblocks]]
    exact hc
  refine ⟨k, ?_⟩
  rw [Nat.add_comm k 1]
  refine ⟨⟨htwo.same.first, htwo.same.maxlen, htwo.same.tagCap, htwo.same.revokeCap, htwo.same.last,
    htwo.same.allocTransId, htwo.same.log, htwo.same.cur⟩, htwo.le, htwo.queue,
    ⟨htwo.starts.start, htwo.starts.transId⟩, .inr ⟨1 + k, le_rfl, htwo.starts.start, htwo.starts.transId⟩⟩

/-- A buffer more that is written does not move the transaction. -/
theorem areas_set {us : List Trans} {i : ℕ} {t t' : Trans} (hi : us[i]? = some t) (ht : t'.area = t.area) :
    (us.set i t').map Trans.area = us.map Trans.area := by
  induction us generalizing i with
  | nil => rfl
  | cons u us ih =>
    cases i with
    | zero =>
      obtain rfl : u = t := by simpa using hi
      rw [List.set_cons_zero, List.map_cons, List.map_cons, ht]
    | succ i =>
      rw [List.set_cons_succ, List.map_cons, List.map_cons, ih (by simpa using hi)]

/-- **`jbd_trans_end_write`**: the transactions that leave the queue are the
    first ones, and one at least leaves it with the last buffer of the first. -/
theorem endWrite_spec (hg : s.Geometry) (hs : s.StartsAt a q) (hl : Laid s a q s.areas)
    (hroom : blocks s.areas ≤ s.size) {i : ℕ} {stale : Bool} (hw : s.endWrite i stale = some s') :
    ∃ k, Checkpointed s s' a q k := by
  rw [endWrite] at hw
  cases hi : s.cpQueue[i]? with
  | none =>
    rw [hi] at hw
    exact absurd hw (by simp)
  | some t =>
    rw [hi] at hw
    simp only at hw
    split_ifs at hw with hfull hlast
    · obtain ⟨-, rfl, -⟩ := hlast
      obtain rfl := Option.some_inj.1 hw
      obtain ⟨us, hus⟩ : ∃ us, s.cpQueue = t :: us := by
        cases hq : s.cpQueue with
        | nil => simp [hq] at hi
        | cons u us =>
          rw [hq] at hi
          exact ⟨us, by rw [show u = t from by simpa using hi]⟩
      obtain ⟨k, hk⟩ := complete_spec hg hus hl hroom { t with writtenCnt := t.writtenCnt + 1 } rfl
      rw [hus]
      exact ⟨k + 1, hk⟩
    · obtain rfl := Option.some_inj.1 hw
      exact ⟨0, ⟨rfl, rfl, rfl, rfl, rfl, rfl, rfl, rfl⟩, Nat.zero_le _, areas_set hi rfl,
        ⟨hs.start, hs.transId⟩, .inl ⟨rfl, rfl⟩⟩

/-- A flush of the first transaction. -/
theorem flushTrans_spec (n : ℕ) (hg : s.Geometry) (hs : s.StartsAt a q) (hl : Laid s a q s.areas)
    (hroom : blocks s.areas ≤ s.size) : ∃ k, Checkpointed s (flushTrans n s) a q k := by
  induction n generalizing s a q with
  | zero => exact ⟨0, Checkpointed.refl hs⟩
  | succ n ih =>
    rw [flushTrans]
    cases hw : s.endWrite 0 false with
    | none => exact ih hg hs hl hroom
    | some s₁ =>
      obtain ⟨k, hk⟩ := endWrite_spec hg hs hl hroom hw
      have hl₁ : Laid s₁ (a + blocks (s.areas.take k)) (q + k) s₁.areas := by
        rw [hk.queue]
        exact (hl.drop hk.le).congr hk.same.first hk.same.maxlen
      have hroom₁ : blocks s₁.areas ≤ s₁.size := by
        have hsplit := blocks_take_drop s.areas k
        rw [hk.queue, size, hk.same.first, hk.same.maxlen]
        rw [size] at hroom
        omega
      obtain ⟨k', hk'⟩ := ih (hk.same.geometry hg) hk.starts hl₁ hroom₁
      exact ⟨k + k', hk.trans hk'⟩

/-- **`jbd_journal_purge_cp_trans`** as `jbd_journal_alloc_block` calls it. -/
theorem purgeOnce_spec (hg : s.Geometry) (hs : s.StartsAt a q) (hl : Laid s a q s.areas)
    (hroom : blocks s.areas ≤ s.size) (skipped : ℕ) :
    ∃ k, Checkpointed s (s.purgeOnce skipped) a q k := by
  rw [purgeOnce]
  cases hq : s.cpQueue with
  | nil => exact ⟨0, Checkpointed.refl hs⟩
  | cons t us =>
    have hareas : s.areas = t.area :: us.map Trans.area := by rw [areas, hq, List.map_cons]
    have hdrop : Checkpointed s ({ s with cpQueue := us }.pass t).writeSb a q 1 := by
      rw [hareas] at hl hroom
      rw [blocks_cons] at hroom
      have hpass := hg.pass_starts hl.1 hl.2.1 ((Nat.le_add_right ..).trans hroom)
      refine ⟨⟨rfl, rfl, rfl, rfl, rfl, rfl, rfl, rfl⟩, by simp [hareas], ?_, ?_, .inl ⟨rfl, rfl⟩⟩
      · rw [hareas]
        rfl
      · rw [show blocks (s.areas.take 1) = t.allocBlocks by simp [hareas, Trans.area]]
        exact ⟨hpass.start, hpass.transId⟩
    simp only
    split_ifs
    · exact ⟨1, hdrop⟩
    · exact ⟨1, hdrop⟩
    · exact flushTrans_spec _ hg hs hl hroom

/-! ## Allocation -/

/-- The transactions on the queue and `n` blocks behind them are in the log,
    and a block is left. -/
structure MemAt (s : Journal) (a q n : ℕ) : Prop where
  geo : s.Geometry
  starts : s.StartsAt a q
  laid : Laid s a q s.areas
  last : s.last = s.at' (a + blocks s.areas + n)
  room : blocks s.areas + n < s.size

/-- Only what lies in the log matters. -/
theorem MemAt.congr {n : ℕ} (hm : s.MemAt a q n) (hf : s'.first = s.first) (hx : s'.maxlen = s.maxlen)
    (ht : s'.tagCap = s.tagCap) (hr : s'.revokeCap = s.revokeCap) (hs : s'.start = s.start)
    (hi : s'.transId = s.transId) (hq : s'.cpQueue = s.cpQueue) (hl : s'.last = s.last) : s'.MemAt a q n := by
  have hareas : s'.areas = s.areas := by rw [areas, areas, hq]
  have hat : ∀ k, s'.at' k = s.at' k := fun k => by rw [at', at', size, size, hf, hx]
  have hg := hm.geo
  refine ⟨⟨?_, ?_, ?_, ?_, ?_⟩, ⟨?_, ?_⟩, ?_, ?_, ?_⟩
  · rw [hf]
    exact hg.first_pos
  · rw [hf, hx]
    exact hg.first_lt
  · rw [hx]
    exact hg.maxlen_le
  · rw [ht]
    exact hg.tagCap_pos
  · rw [hr]
    exact hg.revokeCap_pos
  · rw [hs, hat]
    exact hm.starts.start
  · rw [hi]
    exact hm.starts.transId
  · rw [hareas]
    exact hm.laid.congr hf hx
  · rw [hareas, hl, hat]
    exact hm.last
  · rw [hareas, size, hf, hx]
    exact hm.room

/-- Checkpointing leaves the end of the log where it is. -/
theorem MemAt.checkpointed {n : ℕ} (hm : s.MemAt a q n) (hc : Checkpointed s s' a q k) :
    s'.MemAt (a + blocks (s.areas.take k)) (q + k) n := by
  have hsplit := blocks_take_drop s.areas k
  refine ⟨hc.same.geometry hm.geo, hc.starts, ?_, ?_, ?_⟩
  · rw [hc.queue]
    exact (hm.laid.drop hc.le).congr hc.same.first hc.same.maxlen
  · rw [hc.same.last, hc.same.at_eq, hc.queue, hm.last, ← hsplit]
    congr 1
    omega
  · have hroom := hm.room
    rw [hc.queue, size, hc.same.first, hc.same.maxlen]
    rw [size] at hroom
    omega

/-- **`jbd_journal_alloc_block`** hands out the block behind the last one. -/
theorem allocBlock_spec {n block skipped : ℕ} (hm : s.MemAt a q n)
    (ha : s.allocBlock skipped = some (block, s')) :
    block = s.at' (a + blocks s.areas + n) ∧ ∃ k, Checkpointed { s with last := s'.last } s' a q k ∧
      s'.MemAt (a + blocks (s.areas.take k)) (q + k) (n + 1) := by
  have hone : 1 ≤ s.size := hm.geo.size_pos
  have hlast : s.wrap (u32 (s.last + 1)) = s.at' (a + blocks s.areas + n + 1) := by
    rw [hm.last]
    exact hm.geo.wrap_add hone
  -- the log is not full afterwards, since the last block is not the first one
  have hend : ∀ {s₁ : Journal} {k}, Checkpointed { s with last := s.wrap (u32 (s.last + 1)) } s₁ a q k →
      s₁.last ≠ s₁.start → s₁.MemAt (a + blocks (s.areas.take k)) (q + k) (n + 1) := by
    intro s₁ k hc hne
    have hsplit : blocks (s.areas.take k) + blocks (s.areas.drop k) = blocks s.areas :=
      blocks_take_drop s.areas k
    have hlast₁ : s₁.last = s.at' (a + blocks s.areas + n + 1) := hc.same.last.trans hlast
    have hqueue : s₁.areas = s.areas.drop k := hc.queue
    have hsize : s₁.size = s.size := by rw [size, size, hc.same.first, hc.same.maxlen]
    have hroom := hm.room
    refine ⟨hc.same.geometry ⟨hm.geo.first_pos, hm.geo.first_lt, hm.geo.maxlen_le, hm.geo.tagCap_pos,
      hm.geo.revokeCap_pos⟩, hc.starts, ?_, ?_, ?_⟩
    · rw [hqueue]
      exact (hm.laid.drop hc.le).congr hc.same.first hc.same.maxlen
    · rw [hlast₁, hc.same.at_eq, hqueue, ← hsplit]
      show s.at' _ = s.at' _
      congr 1
      omega
    · rw [hqueue, hsize]
      refine lt_of_le_of_ne (by omega) fun hfull => hne ?_
      rw [hlast₁, hc.starts.start, hc.same.at_eq]
      show s.at' _ = s.at' (a + blocks (s.areas.take k))
      rw [show a + blocks s.areas + n + 1 = a + blocks (s.areas.take k) + s.size by omega]
      exact Ring.pos_add_size
  rw [allocBlock] at ha
  simp only at ha
  split_ifs at ha with hfull hstill
  · obtain ⟨rfl, rfl⟩ := Prod.mk.inj (Option.some_inj.1 ha)
    obtain ⟨k, hc⟩ := purgeOnce_spec (s := { s with last := s.wrap (u32 (s.last + 1)) })
      ⟨hm.geo.first_pos, hm.geo.first_lt, hm.geo.maxlen_le, hm.geo.tagCap_pos, hm.geo.revokeCap_pos⟩
      ⟨hm.starts.start, hm.starts.transId⟩ (hm.laid.congr rfl rfl)
        ((Nat.le_add_right ..).trans hm.room.le) skipped
    refine ⟨hm.last, k, ?_, hend hc hstill⟩
    rw [hc.same.last]
    exact hc
  · obtain ⟨rfl, rfl⟩ := Prod.mk.inj (Option.some_inj.1 ha)
    have hc : Checkpointed { s with last := s.wrap (u32 (s.last + 1)) }
        { s with last := s.wrap (u32 (s.last + 1)) } a q 0 := .refl ⟨hm.starts.start, hm.starts.transId⟩
    exact ⟨hm.last, 0, hc, hend hc hfull⟩

end Journal

end Lwext4
