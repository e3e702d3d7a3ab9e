/-
  Crash recovery: what the commits of a session wrote is what recovery puts
  back.

  A committed transaction is a list of header blocks, each with the blocks that
  follow it in the log (`Seg`): descriptor blocks with copies of buffers, revoke
  blocks, and the commit block.  The copies of a descriptor block are written
  before the block itself, so that a crash leaves a number of whole segments and
  behind them a header that has not been written (`crash_items`).  What the
  passes read of these segments is what the buffers and the revoked blocks were
  (`trans_items`), and the tags that no later transaction revokes put the last
  contents back (`Says.restores`).

  Main results.
  * `recover_replays`: after a crash recovery restores the committed transactions.
  * `recover_resumes`: recovery that is cut off can begin again.
-/
import Lwext4.JbdRecover
import Lwext4.JbdDescriptor
import Lwext4.JbdCsum
import Lwext4.Lib.Writes

namespace Lwext4

open Lib

/-! ## What a commit writes -/

/-- A transaction as it is committed: its buffers, the blocks it revokes in the
    order of the tree, what the log buffers held before, and the checksum of its
    data.  A transaction without any of them is not committed. -/
structure LoggedTrans where
  bufs : List JbdBuf
  revokes : List ℕ
  descStale : ℕ → Mem
  revokeStale : ℕ → Mem
  commitStale : Mem
  dataCsum : ℕ
  nonempty : revokes ≠ [] ∨ ∃ buf ∈ bufs, buf.dirty = true

/-- A header block of the log with the blocks behind it. -/
structure Seg where
  header : Mem
  data : List Mem

/-- The blocks of the log that it takes. -/
def Seg.blocks (g : Seg) : ℕ := g.data.length + 1

section Writer

variable (e : Endian) (s : Mem) (bcsum : Mem → ℕ → ℕ)

/-- `jbd_journal_prepare`, `jbd_journal_prepare_revoke` and
    `jbd_trans_write_commit_block` of `__jbd_journal_commit_trans`, for the
    transaction `tid`. -/
def LoggedTrans.segs (tid : ℕ) (t : LoggedTrans) : List Seg :=
  (jbdJournalPrepare (jbdSbOf e s) bcsum tid t.descStale t.bufs).map
      (fun d => ⟨d.close (jbdSbOf e s) (jbdMetaCsum e s), d.data⟩) ++
    (jbdPrepareRevoke (jbdSbOf e s) (jbdMetaCsum e s) tid t.revokeStale t.revokes 0 none).map
      (fun b => ⟨b, []⟩) ++
    [⟨jbdTransWriteCommitBlock e s tid t.dataCsum t.commitStale, []⟩]

/-- The transactions of a session, each with the next number. -/
def logSegs : (tid : ℕ) → List LoggedTrans → List Seg
  | _, [] => []
  | tid, t :: ts => t.segs e s bcsum tid ++ logSegs (u32 (tid + 1)) ts

end Writer

/-- The writes to the log from offset `k` on, in the order they are made. -/
def segWrites : (k : ℕ) → List Seg → List (ℕ × Mem)
  | _, [] => []
  | k, g :: gs =>
    g.data.mapIdx (fun i b => (k + 1 + i, b)) ++ (k, g.header) :: segWrites (k + g.blocks) gs

/-- How many segments are written whole by `n` writes. -/
def segCount : (n : ℕ) → List Seg → ℕ
  | _, [] => 0
  | n, g :: gs => if g.blocks ≤ n then segCount (n - g.blocks) gs + 1 else 0

/-- The blocks that segments take. -/
def segBlocks (gs : List Seg) : ℕ := (gs.map Seg.blocks).sum

section Segs

variable {k n : ℕ} {g : Seg} {gs gs' : List Seg}

@[simp] theorem segBlocks_cons : segBlocks (g :: gs) = g.blocks + segBlocks gs := rfl

theorem segWrites_length : (segWrites k gs).length = segBlocks gs := by
  induction gs generalizing k with
  | nil => rfl
  | cons g gs ih =>
    rw [segWrites, List.length_append, List.length_mapIdx, List.length_cons, ih, segBlocks_cons,
      Seg.blocks]
    omega

/-- The writes go to different places, one for each block. -/
theorem segWrites_bounds {w : ℕ × Mem} (h : w ∈ segWrites k gs) :
    k ≤ w.1 ∧ w.1 < k + segBlocks gs := by
  induction gs generalizing k with
  | nil => cases h
  | cons g gs ih =>
    rw [segWrites, List.mem_append, List.mem_cons] at h
    rw [segBlocks_cons]
    have hb : g.blocks = g.data.length + 1 := rfl
    rcases h with h | rfl | h
    · obtain ⟨i, hi, rfl⟩ := List.mem_mapIdx.1 h
      exact ⟨by dsimp only; omega, by dsimp only; omega⟩
    · exact ⟨le_rfl, by dsimp only; omega⟩
    · have := ih h
      omega

theorem segWrites_nodup : ((segWrites k gs).map Prod.fst).Nodup := by
  induction gs generalizing k with
  | nil => exact List.nodup_nil
  | cons g gs ih =>
    have hb : g.blocks = g.data.length + 1 := rfl
    have hdata : (g.data.mapIdx (fun i b => (k + 1 + i, b))).map Prod.fst =
        (List.range g.data.length).map (k + 1 + ·) := by
      refine List.ext_getElem (by simp) fun i h1 h2 => ?_
      simp
    rw [segWrites, List.map_append, List.map_cons, hdata, List.nodup_append, List.nodup_cons]
    refine ⟨List.nodup_range.map (add_right_injective _), ⟨fun hk => ?_, ih⟩, fun a ha b hb' => ?_⟩
    · obtain ⟨w, hw, hwk⟩ := List.mem_map.1 hk
      have := segWrites_bounds hw
      omega
    · obtain ⟨i, hi, rfl⟩ := List.mem_map.1 ha
      rw [List.mem_range] at hi
      rcases List.mem_cons.1 hb' with rfl | hb'
      · omega
      · obtain ⟨w, hw, rfl⟩ := List.mem_map.1 hb'
        have := segWrites_bounds hw
        omega

theorem segCount_append (h : segBlocks gs ≤ n) :
    segCount n (gs ++ gs') = gs.length + segCount (n - segBlocks gs) gs' := by
  induction gs generalizing n with
  | nil =>
    rw [List.nil_append, List.length_nil, Nat.zero_add]
    rfl
  | cons g gs ih =>
    rw [segBlocks_cons] at h ⊢
    rw [List.cons_append, segCount, if_pos (by omega), ih (by omega), List.length_cons]
    have : n - g.blocks - segBlocks gs = n - (g.blocks + segBlocks gs) := by omega
    rw [this]
    omega

theorem segCount_lt (h : n < segBlocks gs) :
    segCount n (gs ++ gs') < gs.length := by
  induction gs generalizing n with
  | nil => cases h
  | cons g gs ih =>
    rw [segBlocks_cons] at h
    rw [List.cons_append, segCount, List.length_cons]
    split_ifs with hle
    · have := ih (n := n - g.blocks) (by omega)
      omega
    · omega

theorem segCount_le : segCount n gs ≤ gs.length := by
  induction gs generalizing n with
  | nil => exact Nat.zero_le _
  | cons g gs ih =>
    rw [segCount, List.length_cons]
    split_ifs
    · exact Nat.succ_le_succ ih
    · exact Nat.zero_le _

end Segs

/-! ## What a crash leaves -/

/-- The block of the device that holds the block at offset `k` of the log. -/
def JbdLog.blk (l : JbdLog) (map : ℕ → Option ℕ) (k : ℕ) : ℕ := (map (l.at' k)).getD 0

/-- The device after the first `n` writes of the segments. -/
def JbdLog.crashed (l : JbdLog) (map : ℕ → Option ℕ) (n : ℕ) (gs : List Seg) (dev : ℕ → Mem) :
    ℕ → Mem :=
  putAll (((segWrites 0 gs).take n).map fun w => (l.blk map w.1, w.2)) dev

/-- The items that segments hold, from offset `k` on, where transaction `tid`
    begins. -/
inductive SegItems (l : JbdLog) : (k tid : ℕ) → List Seg → List LogItem → Prop
  | nil {k tid} : SegItems l k tid [] []
  | cons {k tid g gs i is} (hi : l.readItem g.header (l.at' k) tid = some i)
    (hlen : i.tags.length = g.data.length)
    (h : SegItems l (k + g.blocks) (u32 (tid + i.commits)) gs is) :
    SegItems l k tid (g :: gs) (i :: is)

/-- The log lies on the device: its blocks have places of their own, and no
    block of it is taken for a header of one of the transactions. -/
structure JbdLog.Placed (l : JbdLog) (map : ℕ → Option ℕ) : Prop where
  ring : l.Ring
  bmap : ∀ dev k, l.bmap dev k = map k
  mapped : ∀ k, (map (l.at' k)).isSome
  inj : ∀ i < l.size, ∀ j < l.size, l.blk map i = l.blk map j → i = j

section Crash

variable {l : JbdLog} {map : ℕ → Option ℕ} {gs : List Seg} {dev : ℕ → Mem} {n k tid : ℕ}

theorem JbdLog.Placed.map_at (h : l.Placed map) (k : ℕ) : map (l.at' k) = some (l.blk map k) := by
  obtain ⟨p, hp⟩ := Option.isSome_iff_exists.1 (h.mapped k)
  rw [JbdLog.blk, hp]
  rfl

/-- What was written is there, and nothing else has changed. -/
theorem JbdLog.Placed.crashed_eq (h : l.Placed map) (hroom : segBlocks gs < l.size) :
    (∀ w ∈ (segWrites 0 gs).take n, l.crashed map n gs dev (l.blk map w.1) = w.2) ∧
    (∀ j < l.size, (∀ w ∈ (segWrites 0 gs).take n, w.1 ≠ j) →
      l.crashed map n gs dev (l.blk map j) = dev (l.blk map j)) ∧
    ∀ b, (∀ j < l.size, b ≠ l.blk map j) → l.crashed map n gs dev b = dev b := by
  have hlt : ∀ w ∈ (segWrites 0 gs).take n, w.1 < l.size := by
    intro w hw
    have := (segWrites_bounds (List.mem_of_mem_take hw)).2
    omega
  have hkeys : (((segWrites 0 gs).take n).map fun w => (l.blk map w.1, w.2)).map Prod.fst =
      (((segWrites 0 gs).take n).map Prod.fst).map (l.blk map) := by
    rw [List.map_map, List.map_map]
    rfl
  have hnd : ((((segWrites 0 gs).take n).map
      fun w => (l.blk map w.1, w.2)).map Prod.fst).Nodup := by
    rw [hkeys]
    refine List.Nodup.map_on ?_ ?_
    · intro x hx y hy hxy
      obtain ⟨v, hv, rfl⟩ := List.mem_map.1 hx
      obtain ⟨w, hw, rfl⟩ := List.mem_map.1 hy
      exact h.inj _ (hlt v hv) _ (hlt w hw) hxy
    · rw [List.map_take]
      exact segWrites_nodup.sublist (List.take_sublist _ _)
  refine ⟨fun w hw => ?_, fun j hj hno => ?_, fun b hb => ?_⟩
  · exact putAll_of_mem hnd (List.mem_map.2 ⟨w, hw, rfl⟩)
  · refine putAll_of_notMem ?_
    rw [hkeys]
    rintro hmem
    obtain ⟨x, hx, hxj⟩ := List.mem_map.1 hmem
    obtain ⟨w, hw, rfl⟩ := List.mem_map.1 hx
    exact hno w hw (h.inj _ (hlt w hw) _ hj hxj)
  · refine putAll_of_notMem ?_
    rw [hkeys]
    intro hmem
    obtain ⟨x, hx, rfl⟩ := List.mem_map.1 hmem
    obtain ⟨w, hw, rfl⟩ := List.mem_map.1 hx
    exact hb w.1 (hlt w hw) rfl

/-- **A crash leaves the items of the segments that are written whole.** -/
theorem JbdLog.Placed.crash_items (h : l.Placed map) {is : List LogItem} {dev' : ℕ → Mem}
    (his : SegItems l k tid gs is) (hroom : k + segBlocks gs < l.size)
    (hdone : ∀ w ∈ (segWrites k gs).take n, dev' (l.blk map w.1) = w.2)
    (hrest : ∀ j, k ≤ j → j < l.size → (∀ w ∈ (segWrites k gs).take n, w.1 ≠ j) →
      ∀ i ≤ (is.map LogItem.commits).sum,
        l.readItem (dev' (l.blk map j)) (l.at' j) (u32 (tid + i)) = none)
    (htid : tid < 2 ^ 32) :
    l.Items dev' (l.at' k) tid (is.take (segCount n gs)) (segCount n gs + 1) := by
  have hmap : ∀ j, l.bmap dev' (l.at' j) = some (l.blk map j) := fun j =>
    (h.bmap _ _).trans (h.map_at j)
  induction his generalizing n with
  | nil =>
    have hstop := hrest _ le_rfl hroom (by simp [segWrites]) 0 (Nat.zero_le _)
    rw [Nat.add_zero, u32_of_lt htid] at hstop
    exact .stop (hmap _) hstop
  | @cons k tid g gs i is hi hlen hgs ih =>
    have hb : g.blocks = g.data.length + 1 := rfl
    rw [segBlocks_cons] at hroom
    have hdata : (g.data.mapIdx (fun i b => (k + 1 + i, b))).length = g.data.length :=
      List.length_mapIdx
    rw [segCount]
    split_ifs with hn
    · have htake : (segWrites k (g :: gs)).take n =
          g.data.mapIdx (fun i b => (k + 1 + i, b)) ++ (k, g.header) ::
            (segWrites (k + g.blocks) gs).take (n - g.blocks) := by
        rw [segWrites, List.take_append, hdata, List.take_of_length_le (by omega),
          show n - g.data.length = (n - g.blocks) + 1 by omega, List.take_succ_cons]
      have hhead : dev' (l.blk map k) = g.header :=
        hdone (k, g.header) (by
          rw [htake]
          exact List.mem_append_right _ List.mem_cons_self)
      have hafter : l.after (l.at' k) i = l.at' (k + g.blocks) := by
        rw [JbdLog.after, hlen, ← hb]
        exact h.ring.iterate_at k _
      have hcommits : u32 (tid + i.commits) < 2 ^ 32 := u32_lt _
      have hrec := ih (n := n - g.blocks) (by omega)
        (fun w hw => hdone w (by
          rw [htake]
          exact List.mem_append_right _ (List.mem_cons_of_mem _ hw)))
        (fun j hkj hj hno i' hi' => by
          have hstale := hrest j (by omega) hj (fun w hw => ?_) (i.commits + i') (by
            rw [List.map_cons, List.sum_cons]
            omega)
          · rwa [← Nat.add_assoc, ← u32_u32_add] at hstale
          · rw [htake, List.mem_append, List.mem_cons] at hw
            rcases hw with hw | rfl | hw
            · obtain ⟨x, hx, rfl⟩ := List.mem_mapIdx.1 hw
              dsimp only
              omega
            · dsimp only
              omega
            · exact hno w hw) hcommits
      rw [List.take_succ_cons]
      refine .cons (hmap k) (by rw [hhead]; exact hi) ?_ ?_
      · rw [hafter, ← h.ring.at_zero]
        intro heq
        have := JbdLog.at_inj heq (by omega) h.ring.size_pos
        omega
      · rw [hafter]
        exact hrec
    · -- the header is written behind its blocks
      have hno : ∀ w ∈ (segWrites k (g :: gs)).take n, w.1 ≠ k := by
        intro w hw
        rw [segWrites, List.take_append, hdata, show n - g.data.length = 0 by omega, List.take_zero,
          List.append_nil] at hw
        obtain ⟨x, hx, rfl⟩ := List.mem_mapIdx.1 (List.mem_of_mem_take hw)
        dsimp only
        omega
      have hstop := hrest k le_rfl (by omega) hno 0 (Nat.zero_le _)
      rw [Nat.add_zero, u32_of_lt htid] at hstop
      exact .stop (hmap k) hstop

end Crash

/-! ## What the passes read of a transaction -/

theorem exists_of_forall₂ {α β : Type} {R : α → β → Prop} {as : List α} {bs : List β}
    (h : List.Forall₂ R as bs) {a : α} (ha : a ∈ as) : ∃ b ∈ bs, R a b := by
  induction h with
  | nil => cases ha
  | cons hab _ ih =>
    rcases List.mem_cons.1 ha with rfl | ha
    · exact ⟨_, List.mem_cons_self, hab⟩
    · obtain ⟨b, hb, hR⟩ := ih ha
      exact ⟨b, List.mem_cons_of_mem _ hb, hR⟩

/-- A tag of the log and the buffer whose copy is among the writes `ws`. -/
structure TagOf (l : JbdLog) (ws : List (ℕ × Mem)) (c : ℕ × TagRead) (buf : JbdBuf) : Prop where
  copy : ∃ k, (k, jbdLogCopy buf.data) ∈ ws ∧ c.1 = l.at' k
  block : c.2.block = buf.lba
  escape : c.2.isEscape = jbdIsEscape buf.data

/-- The items `is` are what the transaction says. -/
structure Says (l : JbdLog) (ws : List (ℕ × Mem)) (t : LoggedTrans) (is : List LogItem) : Prop where
  heads : ∃ hs, is = hs ++ [.commit] ∧ LogItem.count hs = 0
  tags : List.Forall₂ (TagOf l ws) (is.flatMap LogItem.tags) (t.bufs.filter (·.dirty))
  revoked : ∀ b, b ∈ is.flatMap (LogItem.revoked l.sb) ↔ b ∈ t.revokes

/-- What the tags and the revoke blocks have room for. -/
structure LoggedTrans.Fits (sb : JbdSb) (t : LoggedTrans) : Prop where
  lba : ∀ buf ∈ t.bufs, buf.dirty → buf.lba < if sb.is64 then 2 ^ 64 else 2 ^ 32
  revoke : ∀ b ∈ t.revokes, b < if sb.is64 then 2 ^ 64 else 2 ^ 32

/-- The journal that writes the log and the one that reads it have one superblock, which asks
    for no checksums. -/
structure JbdLog.Plain (l : JbdLog) (e : Endian) (s : Mem) : Prop where
  sb : l.sb = jbdSbOf e s
  csum : jbdHasCsum l.sb = 0
  metaOk : ∀ b, l.metaCsumOk b = true
  commitOk : ∀ b, l.commitCsumOk b = true
  min : 1024 ≤ l.sb.blocksize
  max : l.sb.blocksize < 2 ^ 31

section Read

variable {l : JbdLog} {map : ℕ → Option ℕ} {k tid : ℕ} {gs gs' : List Seg} {is is' : List LogItem}

@[simp] theorem count_append (is is' : List LogItem) :
    LogItem.count (is ++ is') = LogItem.count is + LogItem.count is' := by
  simp [LogItem.count]

theorem count_take {is : List LogItem} {m : ℕ} (h : LogItem.count is = 0) :
    LogItem.count (is.take m) = 0 := by
  rw [← List.take_append_drop m is, count_append] at h
  omega

theorem count_take_le (is : List LogItem) (m : ℕ) :
    LogItem.count (is.take m) ≤ LogItem.count is := by
  conv_rhs => rw [← List.take_append_drop m is, count_append]
  exact Nat.le_add_right _ _

theorem SegItems.append (h : SegItems l k tid gs is)
    (h' : SegItems l (k + segBlocks gs) (u32 (tid + LogItem.count is)) gs' is')
    (htid : tid < 2 ^ 32) :
    SegItems l k tid (gs ++ gs') (is ++ is') := by
  induction h with
  | nil =>
    rw [show LogItem.count [] = 0 from rfl, Nat.add_zero, u32_of_lt htid] at h'
    exact h'
  | cons hi hlen _ ih =>
    refine .cons hi hlen (ih ?_ (u32_lt _))
    rwa [segBlocks_cons, count_cons, ← Nat.add_assoc, ← Nat.add_assoc, ← u32_u32_add] at h'

theorem segWrites_append_subset : segWrites k gs ⊆ segWrites k (gs ++ gs') := by
  induction gs generalizing k with
  | nil => exact List.nil_subset _
  | cons g gs ih =>
    rw [List.cons_append, segWrites, segWrites]
    exact List.append_subset.2 ⟨List.subset_append_left _ _,
      List.Subset.trans (List.cons_subset_cons _ ih) (List.subset_append_right _ _)⟩

theorem SegItems.length (h : SegItems l k tid gs is) : is.length = gs.length := by
  induction h with
  | nil => rfl
  | cons _ _ _ ih => rw [List.length_cons, List.length_cons, ih]

theorem TagOf.mono {ws ws' : List (ℕ × Mem)} (hsub : ws ⊆ ws') {c : ℕ × TagRead} {buf : JbdBuf}
    (h : TagOf l ws c buf) : TagOf l ws' c buf := by
  obtain ⟨k, hk, hc⟩ := h.copy
  exact ⟨⟨k, hsub hk, hc⟩, h.block, h.escape⟩

theorem Says.mono {ws ws' : List (ℕ × Mem)} (hsub : ws ⊆ ws') {t : LoggedTrans}
    (h : Says l ws t is) : Says l ws' t is :=
  ⟨h.heads, h.tags.imp fun _ _ hc => hc.mono hsub, h.revoked⟩

/-- The header fields of a block. -/
theorem bhdr_fields {b stale : Mem} {blocktype : ℕ} (htid : tid < 2 ^ 32)
    (h : ∀ i < jbdBhdrSize, b i = jbdSetBhdr stale blocktype tid i) :
    getBE b 0 4 = jbdMagicNumber ∧ getBE b 4 4 = blocktype % 2 ^ 32 ∧ getBE b 8 4 = tid := by
  have hsize : jbdBhdrSize = 12 := rfl
  have hget (a : ℕ) (ha : a + 4 ≤ 12) :
      getBE b a 4 = getBE (jbdSetBhdr stale blocktype tid) a 4 :=
    getBE_congr fun i _ hi => h i (by omega)
  rw [hget 0 (by omega), hget 4 (by omega), hget 8 (by omega), jbdSetBhdr]
  refine ⟨?_, ?_, ?_⟩
  · rw [getBE_putBE_of_disjoint (.inl (by omega)), getBE_putBE_of_disjoint (.inl (by omega)),
      getBE_putBE]
    rfl
  · rw [getBE_putBE_of_disjoint (.inl (by omega)), getBE_putBE]
    rfl
  · rw [getBE_putBE]
    exact Nat.mod_eq_of_lt htid

/-- The blocks that tags stand for follow their descriptor block. -/
theorem place_tags (hr : l.Ring) {ws : List (ℕ × Mem)} {ts : List TagRead} {bufs : List JbdBuf}
    (hread : ts.map (fun t => (t.block, t.isEscape)) =
      bufs.map fun buf => (buf.lba, jbdIsEscape buf.data))
    (hws : ∀ i (hi : i < bufs.length), (k + 1 + i, jbdLogCopy bufs[i].data) ∈ ws) :
    List.Forall₂ (TagOf l ws) (l.place (l.at' k) ts) bufs := by
  induction bufs generalizing k ts with
  | nil =>
    rw [List.map_nil, List.map_eq_nil_iff] at hread
    rw [hread]
    exact .nil
  | cons buf bufs ih =>
    obtain ⟨t, ts, rfl, ht, hts⟩ := List.map_eq_cons_iff.1 hread
    obtain ⟨hblock, hesc⟩ := Prod.mk.inj ht
    rw [JbdLog.place, hr.next_at]
    refine .cons ⟨⟨k + 1, hws 0 (Nat.zero_lt_succ _), rfl⟩, hblock, hesc⟩ (ih hts fun i hi => ?_)
    have := hws (i + 1) (Nat.succ_lt_succ hi)
    rwa [List.getElem_cons_succ, ← Nat.add_assoc, Nat.add_right_comm _ i 1] at this

/-- The descriptor blocks of a transaction. -/
theorem descs_items {e : Endian} {s : Mem} (hp : l.Plain e s) (hr : l.Ring) (htid : tid < 2 ^ 32)
    {csum : Mem → ℕ} {ds : List DescBlk} {chunks : List (List JbdBuf)}
    (hread : List.Forall₂ (DescRead l.sb csum) ds chunks)
    (hhdr : ∀ d ∈ ds, ∃ stale, ∀ i < jbdBhdrSize,
      d.blk i = jbdSetBhdr stale jbdDescriptorBlock tid i)
    (hlba : ∀ buf ∈ chunks.flatten, buf.lba < if l.sb.is64 then 2 ^ 64 else 2 ^ 32) :
    let gs := ds.map fun d => (⟨d.close l.sb csum, d.data⟩ : Seg)
    ∃ is, SegItems l k tid gs is ∧ LogItem.count is = 0 ∧
      List.Forall₂ (TagOf l (segWrites k gs)) (is.flatMap LogItem.tags) chunks.flatten ∧
      is.flatMap (LogItem.revoked l.sb) = [] := by
  intro gs
  induction hread generalizing k with
  | nil => exact ⟨[], .nil, rfl, .nil, rfl⟩
  | @cons d chunk ds chunks hd hread ih =>
    have hbs := hp.min
    rw [List.flatten_cons] at hlba
    obtain ⟨is, his, hcount, htags, hrev⟩ := ih
      (k := k + (⟨d.close l.sb csum, d.data⟩ : Seg).blocks)
      (fun d hd => hhdr d (List.mem_cons_of_mem _ hd))
      (fun buf hbuf => hlba buf (List.mem_append_right _ hbuf))
    obtain ⟨stale, hstale⟩ := hhdr d List.mem_cons_self
    have hclose : d.close l.sb csum = d.blk := if_pos hp.csum
    obtain ⟨hdata, hmap⟩ := hd
    have hmap' : (jbdIterateBlockTable l.sb (d.close l.sb csum)).map
        (fun t => (t.block, t.isEscape)) =
          chunk.map fun buf => (buf.lba, jbdIsEscape buf.data) := by
      refine hmap.trans (List.map_congr_left fun buf hbuf => ?_)
      rw [Nat.mod_eq_of_lt (hlba buf (List.mem_append_left _ hbuf))]
    have hitem : l.readItem (d.close l.sb csum) (l.at' k) tid = some (.descriptor
        (l.place (l.at' k) (jbdIterateBlockTable l.sb (d.close l.sb csum)))) := by
      obtain ⟨h0, h4, h8⟩ := bhdr_fields (b := d.close l.sb csum) htid (by rwa [hclose])
      rw [JbdLog.readItem, if_neg (not_not.2 h0), if_neg (not_not.2 h8),
        if_pos (h4.trans (by decide)), if_pos (hp.metaOk _),
        iterateBlockTableT_val (by omega) hp.max]
    have hlen : (l.place (l.at' k) (jbdIterateBlockTable l.sb (d.close l.sb csum))).length =
        d.data.length := by
      have := congrArg List.length hmap
      rw [List.length_map, List.length_map] at this
      rw [place_length, this, hdata, List.length_map]
    refine ⟨.descriptor _ :: is, .cons hitem hlen ?_, by rw [count_cons, hcount]; rfl, ?_, hrev⟩
    · show SegItems l _ (u32 (tid + 0)) _ _
      rw [Nat.add_zero, u32_of_lt htid]
      exact his
    · rw [List.flatMap_cons, List.flatten_cons]
      have hhere := @place_tags _ k hr (segWrites k ((⟨d.close l.sb csum, d.data⟩ : Seg) ::
          ds.map fun d => (⟨d.close l.sb csum, d.data⟩ : Seg))) _ _ hmap' fun i hi => by
        rw [segWrites]
        refine List.mem_append_left _ (List.mem_mapIdx.2 ⟨i, ?_, ?_⟩)
        · show i < d.data.length
          rwa [hdata, List.length_map]
        · simp only [hdata, List.getElem_map]
      refine List.rel_append hhere (htags.imp fun c buf h => h.mono fun w hw => ?_)
      exact List.mem_append_right _ (List.mem_cons_of_mem _ hw)

/-- Every block that `jbd_journal_prepare_revoke` writes has its header. -/
theorem prepareRevoke_header {sb : JbdSb} {csum : Mem → ℕ} {stale : ℕ → Mem} {lbas : List ℕ}
    (hcsum : jbdHasCsum sb = 0) :
    ∀ {k : ℕ} {cur : Option RevokeBlk} {b : Mem},
    (∀ r, cur = some r → jbdBhdrSize ≤ r.blocksEntry ∧
      ∃ old, ∀ i < jbdBhdrSize, r.blk i = jbdSetBhdr old jbdRevokeBlock tid i) →
    b ∈ jbdPrepareRevoke sb csum tid stale lbas k cur →
      ∃ old, ∀ i < jbdBhdrSize, b i = jbdSetBhdr old jbdRevokeBlock tid i := by
  have hput (r : RevokeBlk) (lba : ℕ) (h : jbdBhdrSize ≤ r.blocksEntry ∧
      ∃ old, ∀ i < jbdBhdrSize, r.blk i = jbdSetBhdr old jbdRevokeBlock tid i) :
      jbdBhdrSize ≤ (r.put sb lba).blocksEntry ∧
      ∃ old, ∀ i < jbdBhdrSize, (r.put sb lba).blk i = jbdSetBhdr old jbdRevokeBlock tid i := by
    obtain ⟨hle, old, hold⟩ := h
    refine ⟨hle.trans (Nat.le_add_right _ _), old, fun i hi => ?_⟩
    rw [← hold i hi]
    exact putBE_of_lt (by omega)
  have hnew (m : Mem) (lba : ℕ) := hput (RevokeBlk.new sb tid m) lba
    ⟨show jbdBhdrSize ≤ jbdRevokeHeaderSize by decide, m, fun _ _ => rfl⟩
  have hclose (r : RevokeBlk) (h : jbdBhdrSize ≤ r.blocksEntry ∧
      ∃ old, ∀ i < jbdBhdrSize, r.blk i = jbdSetBhdr old jbdRevokeBlock tid i) :
      ∃ old, ∀ i < jbdBhdrSize, r.close sb csum i = jbdSetBhdr old jbdRevokeBlock tid i := by
    obtain ⟨-, old, hold⟩ := h
    refine ⟨old, fun i hi => ?_⟩
    rw [← hold i hi, RevokeBlk.close, jbdMetaCsumSet, if_pos hcsum]
    exact putBE_of_lt hi
  induction lbas with
  | nil =>
    intro k cur b hcur hb
    cases cur with
    | none => cases hb
    | some r =>
      obtain rfl := List.mem_singleton.1 hb
      exact hclose r (hcur r rfl)
  | cons lba lbas ih =>
    intro k cur b hcur hb
    have hfetch : ∀ r, some ((RevokeBlk.new sb tid (stale k)).put sb lba) = some r →
        jbdBhdrSize ≤ r.blocksEntry ∧
        ∃ old, ∀ i < jbdBhdrSize, r.blk i = jbdSetBhdr old jbdRevokeBlock tid i := by
      rintro r ⟨⟩
      exact hnew _ _
    cases cur with
    | none => exact ih hfetch hb
    | some r =>
      rw [jbdPrepareRevoke] at hb
      split_ifs at hb
      · rcases List.mem_cons.1 hb with rfl | hb
        · exact hclose r (hcur r rfl)
        · exact ih hfetch hb
      · refine ih ?_ hb
        rintro r' ⟨⟩
        exact hput r lba (hcur r rfl)

/-- The revoke blocks of a transaction. -/
theorem revokes_items {e : Endian} {s : Mem} (hp : l.Plain e s) (htid : tid < 2 ^ 32)
    {bs : List Mem}
    (hhdr : ∀ b ∈ bs, ∃ old, ∀ i < jbdBhdrSize, b i = jbdSetBhdr old jbdRevokeBlock tid i) :
    SegItems l k tid (bs.map fun b => (⟨b, []⟩ : Seg)) (bs.map LogItem.revoke) ∧
      LogItem.count (bs.map LogItem.revoke) = 0 ∧
      (bs.map LogItem.revoke).flatMap LogItem.tags = [] ∧
      (bs.map LogItem.revoke).flatMap (LogItem.revoked l.sb) =
        bs.flatMap (jbdRevokeEntries l.sb) := by
  induction bs generalizing k with
  | nil => exact ⟨.nil, rfl, rfl, rfl⟩
  | cons b bs ih =>
    obtain ⟨old, hold⟩ := hhdr b List.mem_cons_self
    obtain ⟨h0, h4, h8⟩ := bhdr_fields htid hold
    obtain ⟨his, hcount, htags, hrev⟩ := ih (k := k + (⟨b, []⟩ : Seg).blocks)
      fun b hb => hhdr b (List.mem_cons_of_mem _ hb)
    have hitem : l.readItem b (l.at' k) tid = some (.revoke b) := by
      rw [JbdLog.readItem, if_neg (not_not.2 h0), if_neg (not_not.2 h8),
        h4, if_neg (by decide), if_neg (by decide), if_pos (by decide), if_pos (hp.metaOk _)]
    refine ⟨.cons hitem rfl ?_, by rw [List.map_cons, count_cons, hcount]; rfl, htags, ?_⟩
    · show SegItems l _ (u32 (tid + 0)) _ _
      rw [Nat.add_zero, u32_of_lt htid]
      exact his
    · rw [List.map_cons, List.flatMap_cons, List.flatMap_cons, hrev]
      rfl

/-- **What the passes read of a transaction** is what it says. -/
theorem trans_items {e : Endian} {s : Mem} (hp : l.Plain e s) (hr : l.Ring) (htid : tid < 2 ^ 32)
    (bcsum : Mem → ℕ → ℕ) {t : LoggedTrans} (hfit : t.Fits l.sb) :
    ∃ is, SegItems l k tid (t.segs e s bcsum tid) is ∧
      Says l (segWrites k (t.segs e s bcsum tid)) t is := by
  have hsb := hp.sb
  have hmin := hp.min
  have hmax := hp.max
  unfold LoggedTrans.segs
  rw [← hsb]
  obtain ⟨is₁, his₁, hcount₁, htags₁, hrev₁⟩ : ∃ is, SegItems l k tid
      ((jbdJournalPrepare l.sb bcsum tid t.descStale t.bufs).map
        fun d => (⟨d.close l.sb (jbdMetaCsum e s), d.data⟩ : Seg)) is ∧ LogItem.count is = 0 ∧
      List.Forall₂ (TagOf l (segWrites k ((jbdJournalPrepare l.sb bcsum tid t.descStale t.bufs).map
        fun d => (⟨d.close l.sb (jbdMetaCsum e s), d.data⟩ : Seg)))) (is.flatMap LogItem.tags)
        (t.bufs.filter (·.dirty)) ∧ is.flatMap (LogItem.revoked l.sb) = [] := by
    rcases @journalPrepare_spec _ bcsum tid t.descStale hmin t.bufs with
      ⟨hnil, hdirty⟩ | ⟨chunks, hdescs, hflat⟩
    · rw [hnil, hdirty]
      exact ⟨[], .nil, rfl, .nil, rfl⟩
    · rw [← hflat]
      refine descs_items hp hr htid (hdescs.read hmin _) (fun d hd => ?_) fun buf hbuf => ?_
      · obtain ⟨i, hi, rfl⟩ := List.getElem_of_mem hd
        obtain ⟨chunk, infos, hh, -⟩ := hdescs.get i hi
        exact ⟨_, hh.header⟩
      · rw [hflat] at hbuf
        obtain ⟨hmem, hdirty⟩ := List.mem_filter.1 hbuf
        exact hfit.lba buf hmem hdirty
  obtain ⟨his₂, hcount₂, htags₂, hrev₂⟩ := @revokes_items _
    (k + segBlocks ((jbdJournalPrepare l.sb bcsum tid t.descStale t.bufs).map
      fun d => (⟨d.close l.sb (jbdMetaCsum e s), d.data⟩ : Seg))) _ _ _ hp htid
    (jbdPrepareRevoke l.sb (jbdMetaCsum e s) tid t.revokeStale t.revokes 0 none)
    fun b hb => prepareRevoke_header hp.csum (by rintro r ⟨⟩) hb
  have hcommit : ∀ k, l.readItem (jbdTransWriteCommitBlock e s tid t.dataCsum t.commitStale)
      (l.at' k) tid = some .commit := by
    intro k
    obtain ⟨h0, h4, h8⟩ := @bhdr_fields tid
      (jbdTransWriteCommitBlock e s tid t.dataCsum t.commitStale) t.commitStale jbdCommitBlock
      htid fun i hi =>
        commitHeader_frame (by
          have h12 : i < 12 := hi
          simp only [commitField, inField, Bool.or_eq_false_iff, decide_eq_false_iff_not]
          omega)
    rw [JbdLog.readItem, if_neg (not_not.2 h0), if_neg (not_not.2 h8),
      h4, if_neg (by decide), if_pos (by decide), if_pos (hp.commitOk _)]
  have hheads : LogItem.count (is₁ ++ (jbdPrepareRevoke l.sb (jbdMetaCsum e s) tid t.revokeStale
      t.revokes 0 none).map LogItem.revoke) = 0 := by
    rw [count_append, hcount₁, hcount₂]
  refine ⟨is₁ ++ (jbdPrepareRevoke l.sb (jbdMetaCsum e s) tid t.revokeStale t.revokes 0 none).map
    LogItem.revoke ++ [.commit], (his₁.append ?_ htid).append ?_ htid, ⟨_, rfl, hheads⟩, ?_, ?_⟩
  · rw [hcount₁, Nat.add_zero, u32_of_lt htid]
    exact his₂
  · rw [hheads, Nat.add_zero, u32_of_lt htid]
    exact .cons (hcommit _) rfl .nil
  · rw [List.flatMap_append, List.flatMap_append, htags₂, List.append_nil]
    show List.Forall₂ _ (_ ++ []) _
    rw [List.append_nil]
    refine htags₁.imp fun c buf h => h.mono ?_
    rw [List.append_assoc]
    exact segWrites_append_subset
  · intro b
    obtain ⟨chunks, hflat, hholds⟩ := (@prepareRevoke_holds _ (jbdMetaCsum e s) tid t.revokeStale
      hmin t.revokes).1 0
    obtain ⟨hmem, hback⟩ := mem_entries (by omega) hholds
    have hwidth : ∀ lba ∈ t.revokes, lba % 256 ^ jbdRecordLen l.sb = lba := by
      intro lba hlba
      have := hfit.revoke lba hlba
      refine Nat.mod_eq_of_lt ?_
      unfold jbdRecordLen
      split_ifs at this ⊢ <;> exact this
    rw [List.flatMap_append, List.flatMap_append, hrev₁, hrev₂, List.nil_append]
    show b ∈ _ ++ [] ↔ _
    rw [List.append_nil]
    constructor
    · intro hb
      rcases hback b hb with ⟨lba, hlba, rfl⟩ | ⟨htail, -⟩
      · rw [hflat] at hlba
        rwa [hwidth lba hlba]
      · rw [jbdTailSize, if_pos hp.csum, Nat.zero_div] at htail
        exact absurd rfl htail
    · intro hb
      rw [← hwidth b hb]
      exact hmem b (hflat ▸ hb)

end Read

/-! ## What is put back -/

/-- How many of the transactions have their commit block among the first `n` writes. -/
def committedCount (e : Endian) (s : Mem) (bcsum : Mem → ℕ → ℕ) : (n tid : ℕ) → List LoggedTrans → ℕ
  | _, _, [] => 0
  | n, tid, t :: ts =>
    let blocks := segBlocks (t.segs e s bcsum tid)
    if blocks ≤ n then committedCount e s bcsum (n - blocks) (u32 (tid + 1)) ts + 1 else 0

/-- What the log has for a block after one more transaction: nothing if the transaction revokes
    the block, else the last buffer of the block. -/
def LoggedTrans.replay (t : LoggedTrans) (has : ℕ → Option Mem) : ℕ → Option Mem := fun b =>
  if b ∈ t.revokes then none
  else (((t.bufs.filter (·.dirty)).filter (·.lba = b)).getLast?.map JbdBuf.data).or (has b)

/-- What the log has for a block after some transactions. -/
def logReplay (ts : List LoggedTrans) : ℕ → Option Mem :=
  ts.foldl (fun has t => t.replay has) fun _ => none

/-- The first `blocksize` bytes of a block are what the log has for it. -/
def overlay (blocksize : ℕ) : Option Mem → Mem → Mem
  | none, old => old
  | some data, old => fun i => if i < blocksize then data i else old i

theorem overlay_overlay (bs : ℕ) (has : Option Mem) (data old : Mem) :
    overlay bs (some data) (overlay bs has old) = overlay bs (some data) old := by
  funext i
  cases has with
  | none => rfl
  | some data' =>
    simp only [overlay]
    split_ifs <;> rfl

/-- The buffers that no later transaction revokes, nor their own. -/
def liveBufs : List LoggedTrans → List JbdBuf
  | [] => []
  | t :: ts =>
    (t.bufs.filter (·.dirty)).filter (fun buf => (t :: ts).all fun u => buf.lba ∉ u.revokes) ++
      liveBufs ts

section Live

variable {l : JbdLog} {ws : List (ℕ × Mem)} {ts : List LoggedTrans} {iss : List (List LogItem)}

/-- The last live buffer of a block is what the log has for it. -/
theorem foldl_logReplay (ts : List LoggedTrans) (has : ℕ → Option Mem) (b : ℕ) :
    ts.foldl (fun has t => t.replay has) has b =
      (((liveBufs ts).filter (·.lba = b)).getLast?.map JbdBuf.data).or
        (if ts.any (fun t => b ∈ t.revokes) then none else has b) := by
  induction ts generalizing has with
  | nil => rfl
  | cons t ts ih =>
    rw [List.foldl_cons, ih, liveBufs, List.filter_append, List.getLast?_append, List.filter_filter,
      List.any_cons]
    by_cases hb : b ∈ t.revokes ∨ ts.any (fun t => b ∈ t.revokes) = true
    · -- nothing of this transaction is live
      have hnil : (t.bufs.filter (·.dirty)).filter (fun buf => decide (buf.lba = b) &&
          (t :: ts).all fun u => decide (buf.lba ∉ u.revokes)) = [] := by
        refine List.filter_eq_nil_iff.2 fun buf _ hbuf => ?_
        obtain ⟨rfl, hlive⟩ := by simpa only [Bool.and_eq_true, decide_eq_true_eq] using hbuf
        rw [List.all_cons, Bool.and_eq_true, decide_eq_true_eq, List.all_eq_true] at hlive
        rcases hb with hb | hb
        · exact hlive.1 hb
        · obtain ⟨u, hu, hub⟩ := List.any_eq_true.1 hb
          exact of_decide_eq_true (hlive.2 u hu) (of_decide_eq_true hub)
      have hany : (decide (b ∈ t.revokes) || ts.any fun t => decide (b ∈ t.revokes)) = true := by
        rwa [Bool.or_eq_true, decide_eq_true_eq]
      rw [hnil, List.getLast?_nil, Option.or_none, if_pos hany]
      split_ifs with hts
      · rfl
      · unfold LoggedTrans.replay
        rw [if_pos (hb.resolve_right hts)]
    · obtain ⟨ht, hts⟩ := not_or.1 hb
      have hlive : (t.bufs.filter (·.dirty)).filter (fun buf => decide (buf.lba = b) &&
          (t :: ts).all fun u => decide (buf.lba ∉ u.revokes)) =
            (t.bufs.filter (·.dirty)).filter (·.lba = b) := by
        refine List.filter_congr fun buf _ => ?_
        by_cases hbuf : buf.lba = b
        · subst hbuf
          have hall : ((t :: ts).all fun u => decide (buf.lba ∉ u.revokes)) = true := by
            rw [List.all_cons, Bool.and_eq_true, decide_eq_true_eq, List.all_eq_true]
            refine ⟨ht, fun u hu => decide_eq_true fun hub => hts ?_⟩
            exact List.any_eq_true.2 ⟨u, hu, decide_eq_true hub⟩
          rw [hall, Bool.and_true]
        · rw [decide_eq_false hbuf, Bool.false_and]
      rw [hlive, if_neg hts, if_neg (by simpa using hb), LoggedTrans.replay, if_neg ht,
        Option.map_or, Option.or_assoc]

/-- The writes of buffers one after the other. -/
theorem foldl_overlay (bs : ℕ) (bufs : List JbdBuf) (dev : ℕ → Mem) (b : ℕ) :
    bufs.foldl (fun dev buf =>
      Function.update dev buf.lba (overlay bs (some buf.data) (dev buf.lba))) dev b =
      overlay bs ((bufs.filter (·.lba = b)).getLast?.map JbdBuf.data) (dev b) := by
  induction bufs using List.reverseRecOn with
  | nil => rfl
  | append_singleton bufs buf ih =>
    rw [List.foldl_append, List.foldl_cons, List.foldl_nil, List.filter_append]
    by_cases hb : buf.lba = b
    · subst hb
      rw [Function.update_self, ih, overlay_overlay, List.filter_cons_of_pos (by simp),
        List.filter_nil, List.getLast?_append]
      rfl
    · rw [Function.update_of_ne (Ne.symm hb), ih, List.filter_cons_of_neg (by simpa using hb),
        List.filter_nil, List.append_nil]

theorem putBE_getBE (m : Mem) : putBE m 0 4 (getBE m 0 4) = m := by
  have hbytes : beBytes 4 (getBE m 0 4) = m.read 0 4 := by
    have h := leBytes_leVal (m.read 0 4).reverse
    rw [List.length_reverse, Mem.length_read] at h
    rw [beBytes, getBE, beVal, h, List.reverse_reverse]
  rw [putBE, hbytes]
  funext i
  rcases Nat.lt_or_ge i 4 with hi | hi
  · rw [Mem.write_read_apply _ _ (Nat.zero_le i) (by omega), Nat.zero_add, Nat.sub_zero]
  · exact Mem.write_of_ge (by rwa [Mem.length_read])

/-- What a block holds when a tag has put it back, where the log holds `data`. -/
def JbdLog.restored (l : JbdLog) (t : TagRead) (data old : Mem) : Mem :=
  let data : Mem := fun i => if i < l.sb.blocksize then data i else old i
  if t.isEscape then putBE data 0 4 jbdMagicNumber else data

theorem restore_eq {t : TagRead} (h0 : t.block ≠ 0) (data : Mem) (dev : ℕ → Mem) :
    l.restore t data dev = Function.update dev t.block (l.restored t data (dev t.block)) := by
  unfold JbdLog.restore
  rw [if_neg h0]
  funext b
  by_cases hb : b = t.block
  · rw [hb, Function.update_self]
    exact if_pos rfl
  · rw [Function.update_of_ne hb]
    exact if_neg hb

theorem restored_of_ge {t : TagRead} {data old : Mem} {i : ℕ} (hbs : 4 ≤ l.sb.blocksize)
    (hi : l.sb.blocksize ≤ i) : l.restored t data old i = old i := by
  unfold JbdLog.restored
  split_ifs
  · rw [putBE_of_ge (by omega), if_neg (by omega)]
  · exact if_neg (by omega)

theorem restored_of_lt {t : TagRead} {data old : Mem} {i : ℕ} (hi : i < l.sb.blocksize) :
    l.restored t data old i = if t.isEscape then putBE data 0 4 jbdMagicNumber i else data i := by
  unfold JbdLog.restored
  split_ifs
  · rcases Nat.lt_or_ge i 4 with h4 | h4
    · exact putBE_congr (Nat.zero_le i) (by omega)
    · rw [putBE_of_ge (by omega), putBE_of_ge (by omega), if_pos hi]
  · exact if_pos hi

theorem restored_restored {t t' : TagRead} {data data' old : Mem} (hbs : 4 ≤ l.sb.blocksize) :
    l.restored t data (l.restored t' data' old) = l.restored t data old := by
  funext i
  rcases Nat.lt_or_ge i l.sb.blocksize with hi | hi
  · rw [restored_of_lt hi, restored_of_lt hi]
  · rw [restored_of_ge hbs hi, restored_of_ge hbs hi, restored_of_ge hbs hi]

/-- The first bytes of a copy are put back. -/
theorem logCopy_restored (data : Mem) :
    (fun i => if jbdIsEscape data then putBE (jbdLogCopy data) 0 4 jbdMagicNumber i
      else jbdLogCopy data i) = data := by
  funext i
  rcases hesc : jbdIsEscape data with - | -
  · rw [if_neg Bool.false_ne_true, jbdLogCopy, hesc, if_neg Bool.false_ne_true]
  · have hmagic : getBE data 0 4 = jbdMagicNumber := beq_iff_eq.1 hesc
    rw [if_pos rfl, jbdLogCopy, if_pos hesc]
    rcases Nat.lt_or_ge i 4 with h4 | h4
    · conv_rhs => rw [← putBE_getBE data, hmagic]
      exact putBE_congr (Nat.zero_le i) (by omega)
    · rw [putBE_of_ge (by omega), putBE_of_ge (by omega)]

/-- A block is put back as its buffer was. -/
theorem TagOf.putBack {dev₀ dev : ℕ → Mem} {c : ℕ × TagRead} {buf : JbdBuf} {p : ℕ}
    (h : TagOf l ws c buf) (hp : l.bmap dev₀ c.1 = some p) (hdata : dev₀ p = jbdLogCopy buf.data)
    (h0 : buf.lba ≠ 0) (hbs : 4 ≤ l.sb.blocksize) :
    l.putBack dev₀ dev c =
      Function.update dev buf.lba (overlay l.sb.blocksize (some buf.data) (dev buf.lba)) := by
  unfold JbdLog.putBack
  rw [hp]
  simp only
  rw [restore_eq (by rwa [h.block]), h.block, hdata]
  congr 1
  funext i
  show _ = if i < l.sb.blocksize then buf.data i else dev buf.lba i
  split_ifs with hi
  · rw [restored_of_lt hi, h.escape]
    exact congrFun (logCopy_restored buf.data) i
  · exact restored_of_ge hbs (Nat.not_lt.1 hi)

theorem records_heads (sb : JbdSb) (j : ℕ) {hs : List LogItem} (rest : List LogItem)
    (h : LogItem.count hs = 0) : LogItem.records sb j (hs ++ rest) =
      (hs.flatMap (LogItem.revoked sb)).map (Prod.mk j) ++ LogItem.records sb j rest := by
  induction hs with
  | nil => rfl
  | cons i hs ih =>
    rw [count_cons, Nat.add_eq_zero_iff] at h
    rw [List.cons_append, LogItem.records, h.1, Nat.add_zero, ih h.2, List.flatMap_cons,
      List.map_append, List.append_assoc]

theorem restores_heads (recs : List (ℕ × ℕ)) (j : ℕ) {hs : List LogItem} (rest : List LogItem)
    (h : LogItem.count hs = 0) : LogItem.restores recs j (hs ++ rest) =
      (hs.flatMap LogItem.tags).filter (LogItem.live recs j) ++ LogItem.restores recs j rest := by
  induction hs with
  | nil => rfl
  | cons i hs ih =>
    rw [count_cons, Nat.add_eq_zero_iff] at h
    rw [List.cons_append, LogItem.restores, h.1, Nat.add_zero, ih h.2, List.flatMap_cons,
      List.filter_append, List.append_assoc]

theorem committed_heads {hs : List LogItem} (rest : List LogItem) :
    LogItem.committed (hs ++ .commit :: rest) = hs ++ .commit :: LogItem.committed rest := by
  induction hs with
  | nil =>
    rw [List.nil_append, List.nil_append]
    exact committed_cons (by rw [count_cons]; exact Nat.succ_ne_zero _ ∘ (Nat.add_comm _ _).trans)
  | cons i hs ih =>
    rw [List.cons_append, List.cons_append, ← ih]
    refine committed_cons ?_
    rw [count_cons, count_append, count_cons]
    show _ + (_ + (1 + _)) ≠ 0
    omega

theorem Says.records_eq {t : LoggedTrans} {is : List LogItem} (h : Says l ws t is) (j : ℕ)
    (rest : List LogItem) : LogItem.records l.sb j (is ++ rest) =
      (is.flatMap (LogItem.revoked l.sb)).map (Prod.mk j) ++ LogItem.records l.sb (j + 1) rest := by
  obtain ⟨hs, rfl, hcount⟩ := h.heads
  rw [List.append_assoc, records_heads _ _ _ hcount, List.flatMap_append]
  show _ = (_ ++ []).map _ ++ _
  rw [List.append_nil]
  rfl

theorem Says.restores_eq {t : LoggedTrans} {is : List LogItem} (h : Says l ws t is)
    (recs : List (ℕ × ℕ)) (j : ℕ) (rest : List LogItem) : LogItem.restores recs j (is ++ rest) =
      (is.flatMap LogItem.tags).filter (LogItem.live recs j) ++
        LogItem.restores recs (j + 1) rest := by
  obtain ⟨hs, rfl, hcount⟩ := h.heads
  rw [List.append_assoc, restores_heads _ _ _ hcount, List.flatMap_append]
  show _ = (_ ++ []).filter _ ++ _
  rw [List.append_nil]
  rfl

/-- The records of some transactions, from the `m`-th on. -/
theorem Says.records (h : List.Forall₂ (Says l ws) ts iss) (j m b : ℕ) :
    (∃ r ∈ LogItem.records l.sb j iss.flatten, r.2 = b ∧ j + m ≤ r.1) ↔
      ∃ t ∈ ts.drop m, b ∈ t.revokes := by
  induction h generalizing j m with
  | nil => simp [LogItem.records]
  | @cons t is ts iss hd _ ih =>
    rw [List.flatten_cons, hd.records_eq]
    simp only [List.mem_append, List.mem_map, or_and_right, exists_or]
    cases m with
    | zero =>
      have hrest := ih (j + 1) 0
      have hbounds := (records_bounds l.sb iss.flatten (j + 1)).1
      rw [List.drop_zero, List.exists_mem_cons_iff, ← hd.revoked b, ← List.drop_zero (l := ts),
        ← hrest]
      refine or_congr ⟨?_, fun hb => ⟨(j, b), ⟨b, hb, rfl⟩, rfl, le_rfl⟩⟩ ?_
      · rintro ⟨r, ⟨b', hb', rfl⟩, rfl, -⟩
        exact hb'
      · refine exists_congr fun r => and_congr_right fun hr => and_congr_right fun _ => ?_
        have := (hbounds r hr).1
        omega
    | succ m =>
      have hrest := ih (j + 1) m
      rw [List.drop_succ_cons, ← hrest, show j + 1 + m = j + (m + 1) by omega]
      refine or_iff_right ?_
      rintro ⟨r, ⟨b', -, rfl⟩, -, hle⟩
      have : j + (m + 1) ≤ j := hle
      omega

/-- The blocks to be restored are those of the live buffers. -/
theorem Says.restores (h : List.Forall₂ (Says l ws) ts iss) (recs : List (ℕ × ℕ)) (j : ℕ)
    (hrecs : ∀ m b, (∃ r ∈ recs, r.2 = b ∧ j + m ≤ r.1) ↔ ∃ t ∈ ts.drop m, b ∈ t.revokes) :
    List.Forall₂ (TagOf l ws) (LogItem.restores recs j iss.flatten) (liveBufs ts) := by
  induction h generalizing j with
  | nil => exact .nil
  | @cons t is ts iss hd _ ih =>
    rw [List.flatten_cons, hd.restores_eq, liveBufs]
    refine List.rel_append (List.rel_filter ?_ hd.tags) (ih (j + 1) fun m b => ?_)
    · intro c buf hc
      have hj := hrecs 0 c.2.block
      rw [Nat.add_zero, List.drop_zero, hc.block] at hj
      unfold LogItem.live
      beta_reduce
      rw [Bool.not_eq_true', List.any_eq_false, List.all_eq_true]
      constructor
      · intro hno u hu
        refine decide_eq_true fun hub => ?_
        obtain ⟨r, hr, hrb, hle⟩ := hj.2 ⟨u, hu, hub⟩
        exact hno r hr (by simp [hrb, hle, hc.block])
      · intro hall r hr hlive
        simp only [Bool.and_eq_true, beq_iff_eq, decide_eq_true_eq, hc.block] at hlive
        obtain ⟨u, hu, hub⟩ := hj.1 ⟨r, hr, hlive.1, hlive.2⟩
        exact of_decide_eq_true (hall u hu) hub
    · have := hrecs (m + 1) b
      rwa [List.drop_succ_cons, show j + (m + 1) = j + 1 + m by omega] at this

end Live

/-! ## The whole session -/

section Session

variable {l : JbdLog} {map : ℕ → Option ℕ} {e : Endian} {s : Mem} {ts : List LoggedTrans} {tid : ℕ}

theorem segWrites_append (k : ℕ) (gs gs' : List Seg) :
    segWrites k (gs ++ gs') = segWrites k gs ++ segWrites (k + segBlocks gs) gs' := by
  induction gs generalizing k with
  | nil => rfl
  | cons g gs ih =>
    rw [List.cons_append, segWrites, segWrites, ih, segBlocks_cons, Nat.add_assoc,
      List.append_assoc, List.cons_append]

theorem Says.two_le {ws : List (ℕ × Mem)} {t : LoggedTrans} {is : List LogItem}
    (h : Says l ws t is) : 2 ≤ is.length := by
  obtain ⟨hs, rfl, -⟩ := h.heads
  rw [List.length_append, List.length_singleton]
  rcases hs with - | ⟨i, hs⟩
  · rcases t.nonempty with hne | ⟨buf, hbuf, hdirty⟩
    · obtain ⟨b, hb⟩ := List.exists_mem_of_ne_nil _ hne
      exact absurd ((h.revoked b).2 hb) List.not_mem_nil
    · have hlen : 0 = (t.bufs.filter (·.dirty)).length := h.tags.length_eq
      have hmem : buf ∈ t.bufs.filter (·.dirty) := List.mem_filter.2 ⟨hbuf, hdirty⟩
      exact absurd (List.length_pos_of_mem hmem) (by omega)
  · simp

/-- **What the passes read of a session** that was cut off after `n` writes. -/
theorem log_items (hp : l.Plain e s) (hr : l.Ring) (bcsum : Mem → ℕ → ℕ)
    (hfit : ∀ t ∈ ts, t.Fits l.sb) (htid : tid < 2 ^ 32) (k n : ℕ) :
    ∃ is iss, SegItems l k tid (logSegs e s bcsum tid ts) is ∧ LogItem.count is = ts.length ∧
      2 * ts.length ≤ is.length ∧
      LogItem.committed (is.take (segCount n (logSegs e s bcsum tid ts))) = List.flatten iss ∧
      List.Forall₂ (Says l ((segWrites k (logSegs e s bcsum tid ts)).take n))
        (ts.take (committedCount e s bcsum n tid ts)) iss := by
  induction ts generalizing k n tid with
  | nil => exact ⟨[], [], .nil, rfl, le_rfl, rfl, .nil⟩
  | cons t ts ih =>
    obtain ⟨is₁, his₁, htells⟩ := trans_items (k := k) hp hr htid bcsum (hfit t List.mem_cons_self)
    obtain ⟨hs, heq, hcount⟩ := htells.heads
    have hone : LogItem.count is₁ = 1 := by
      rw [heq, count_append, hcount]
      rfl
    obtain ⟨is, iss, his, hcnt, hlen, hcom, hall⟩ := ih
      (fun t ht => hfit t (List.mem_cons_of_mem _ ht)) (u32_lt (tid + 1))
      (k + segBlocks (t.segs e s bcsum tid)) (n - segBlocks (t.segs e s bcsum tid))
    have hlen₁ := his₁.length
    have htwo := htells.two_le
    rw [logSegs, committedCount]
    by_cases hn : segBlocks (t.segs e s bcsum tid) ≤ n
    · refine ⟨is₁ ++ is, is₁ :: iss, his₁.append (by rwa [hone]) htid, ?_, ?_, ?_, ?_⟩
      · rw [count_append, hone, hcnt, List.length_cons, Nat.add_comm]
      · rw [List.length_append, List.length_cons]
        omega
      · rw [segCount_append hn, ← hlen₁, List.take_length_add_append, List.flatten_cons, ← hcom,
          heq, List.append_assoc, List.append_assoc, List.singleton_append, List.singleton_append,
          committed_heads]
      · rw [if_pos hn, List.take_succ_cons, segWrites_append, List.take_append, segWrites_length,
          List.take_of_length_le (by rwa [segWrites_length])]
        exact .cons (htells.mono (List.subset_append_left _ _))
          (hall.imp fun t is h => h.mono (List.subset_append_right _ _))
    · refine ⟨is₁ ++ is, [], his₁.append (by rwa [hone]) htid, ?_, ?_, ?_, ?_⟩
      · rw [count_append, hone, hcnt, List.length_cons, Nat.add_comm]
      · rw [List.length_append, List.length_cons]
        omega
      · have hlt := @segCount_lt _ _ (logSegs e s bcsum (u32 (tid + 1)) ts) (Nat.not_le.1 hn)
        rw [← hlen₁, heq, List.length_append, List.length_singleton] at hlt
        rw [heq, List.append_assoc, List.take_append_of_le_length (by omega)]
        exact committed_of_count (count_take hcount)
      · rw [if_neg hn]
        exact .nil

theorem length_le_segBlocks (gs : List Seg) : gs.length ≤ segBlocks gs := by
  induction gs with
  | nil => exact le_rfl
  | cons g gs ih =>
    rw [List.length_cons, segBlocks_cons, Seg.blocks]
    omega

/-- Without errors all of a plan works. -/
theorem works_nil {dev : ℕ → Mem} {plan : List LogAccess}
    (h : ∀ c ∈ LogAccess.copies plan, (l.bmap dev c.1).isSome) : l.works dev plan [] = some [] := by
  induction plan with
  | nil => rfl
  | cons a plan ih =>
    cases a with
    | header => exact ih h
    | copy c =>
      obtain ⟨p, hp⟩ := Option.isSome_iff_exists.1 (h c List.mem_cons_self)
      have hrest := ih fun c hc => h c (List.mem_cons_of_mem _ hc)
      rw [JbdLog.works, hp]
      exact hrest

theorem mem_liveBufs {buf : JbdBuf} (h : buf ∈ liveBufs ts) :
    ∃ t ∈ ts, buf ∈ t.bufs ∧ buf.dirty = true := by
  induction ts with
  | nil => cases h
  | cons t ts ih =>
    rcases List.mem_append.1 h with h | h
    · obtain ⟨hmem, hdirty⟩ := List.mem_filter.1 (List.mem_filter.1 h).1
      exact ⟨t, List.mem_cons_self, hmem, hdirty⟩
    · obtain ⟨u, hu, hbuf⟩ := ih h
      exact ⟨u, List.mem_cons_of_mem _ hu, hbuf⟩

/-- The blocks are put back as their buffers were. -/
theorem foldl_putBack (hplaced : l.Placed map) {ws : List (ℕ × Mem)} {dev₀ : ℕ → Mem}
    (hws : ∀ w ∈ ws, dev₀ (l.blk map w.1) = w.2) (hbs : 4 ≤ l.sb.blocksize)
    {cs : List (ℕ × TagRead)} {bufs : List JbdBuf} (h : List.Forall₂ (TagOf l ws) cs bufs)
    (h0 : ∀ buf ∈ bufs, buf.lba ≠ 0) (dev : ℕ → Mem) :
    cs.foldl (l.putBack dev₀) dev = bufs.foldl (fun dev buf =>
      Function.update dev buf.lba (overlay l.sb.blocksize (some buf.data) (dev buf.lba))) dev := by
  induction h generalizing dev with
  | nil => rfl
  | cons hc _ ih =>
    obtain ⟨k, hk, hat⟩ := hc.copy
    rw [List.foldl_cons, List.foldl_cons, ← ih fun buf hbuf => h0 buf (List.mem_cons_of_mem _ hbuf)]
    congr 1
    refine hc.putBack ?_ (hws _ hk) (h0 _ List.mem_cons_self) hbs
    rw [hat]
    exact (hplaced.bmap _ _).trans (hplaced.map_at k)

/-- **Recovery after a crash.**  However many writes of a session have reached the log, recovery
    puts back what the transactions with a commit block among them say, all of it and nothing
    else. -/
theorem recover_replays (hp : l.Plain e s) (hplaced : l.Placed map) (hstart : l.start ≠ 0)
    (hseq : l.sequence < 2 ^ 32) (bcsum : Mem → ℕ → ℕ) (hfit : ∀ t ∈ ts, t.Fits l.sb)
    (hapart : ∀ t ∈ ts, ∀ buf ∈ t.bufs, buf.dirty → buf.lba ≠ 0 ∧ ∀ k, map k ≠ some buf.lba)
    (hroom : segBlocks (logSegs e s bcsum l.sequence ts) < l.size) {dev : ℕ → Mem}
    (hstale : ∀ j < l.size, ∀ i ≤ ts.length,
      l.readItem (dev (l.blk map j)) (l.at' j) (u32 (l.sequence + i)) = none)
    (n : ℕ) {fuel : ℕ} (hfuel : l.size ≤ fuel) :
    let crashed := l.crashed map n (logSegs e s bcsum l.sequence ts) dev
    ∃ r, l.jbdRecover fuel crashed [] = some (.ok (), r) ∧ r.start = 0 ∧
      ∀ b, (∀ j < l.size, b ≠ l.blk map j) → r.dev b = overlay l.sb.blocksize
        (logReplay (ts.take (committedCount e s bcsum n l.sequence ts)) b) (dev b) := by
  have hr := hplaced.ring
  have hmin := hp.min
  obtain ⟨is, iss, his, hcnt, hlen, hcom, hall⟩ := log_items hp hr bcsum hfit hseq 0 n
  generalize logSegs e s bcsum l.sequence ts = gs at *
  generalize committedCount e s bcsum n l.sequence ts = c at *
  intro crashed
  obtain ⟨hdone, hold, hout⟩ := @JbdLog.Placed.crashed_eq _ _ _ dev n hplaced hroom
  have hlen' := his.length
  have hblocks := length_le_segBlocks gs
  have hcount := @segCount_le n gs
  have hitems := @JbdLog.Placed.crash_items _ _ _ _ _ _ hplaced _ crashed his
    (by rwa [Nat.zero_add]) hdone
    (fun j _ hj hno i hi => by
      rw [show crashed (l.blk map j) = dev (l.blk map j) from hold j hj hno]
      exact hstale j hj i (hi.trans hcnt.le)) hseq
  rw [hr.at_zero] at hitems
  have hlive : List.Forall₂ (TagOf l ((segWrites 0 gs).take n))
      (l.mustRestore (is.take (segCount n gs))) (liveBufs (ts.take c)) := by
    unfold JbdLog.mustRestore
    rw [hcom]
    refine Says.restores hall _ 0 fun m b => ?_
    have := Says.records hall 0 m b
    exact this
  have hbuf : ∀ buf ∈ liveBufs (ts.take c),
      buf.lba ≠ 0 ∧ ∀ k, map k ≠ some buf.lba := by
    intro buf hmem
    obtain ⟨t, ht, hb, hdirty⟩ := mem_liveBufs hmem
    exact hapart t (List.mem_of_mem_take ht) buf hb hdirty
  have hreg : l.Regular crashed (is.take (segCount n gs)) := by
    refine ⟨fun c hc data dev' hsame k => ⟨?_, fun p hpk => ?_⟩, ?_⟩
    · rw [hplaced.bmap, hplaced.bmap]
    · obtain ⟨buf, hmem, hcb⟩ := exists_of_forall₂ hlive hc
      obtain ⟨h0, hne⟩ := hbuf buf hmem
      rw [← (hsame k).2 p hpk, JbdLog.restore, if_neg (by rwa [hcb.block])]
      refine if_neg ?_
      rintro rfl
      rw [hplaced.bmap, hcb.block] at hpk
      exact hne k hpk
    · have := count_take_le is (segCount n gs)
      have hsize : l.size < 2 ^ 32 := Nat.lt_of_le_of_lt (Nat.sub_le _ _) hr.maxlen_lt
      show LogItem.count _ < _
      omega
  obtain ⟨r, st, hrun, -, hx⟩ := recover_run_plan hstart hitems hseq hreg
    (show segCount n gs + 1 ≤ fuel by omega) []
  have hworks : l.works crashed (l.recoverPlan (is.take (segCount n gs))
      (segCount n gs + 1)) [] = some [] := by
    refine works_nil fun c hc => ?_
    rw [copies_recoverPlan] at hc
    obtain ⟨buf, -, hcb⟩ := exists_of_forall₂ hlive hc
    obtain ⟨k, -, hk⟩ := hcb.copy
    rw [hplaced.bmap, hk, hplaced.map_at]
    rfl
  obtain ⟨hres, -⟩ := run_works crashed hworks
  rw [hres, copies_recoverPlan] at hx
  rcases hx with ⟨hx, -⟩ | ⟨-, hdev, -, hzero, rfl⟩
  · cases hx
  refine ⟨st, hrun, hzero, fun b hb => ?_⟩
  rw [← hout b hb, hdev, foldl_putBack hplaced (fun w hw => hdone w hw) (by omega) hlive
    fun buf h => (hbuf buf h).1]
  refine (foldl_overlay _ _ _ b).trans ?_
  rw [logReplay, foldl_logReplay]
  split_ifs <;> rw [Option.or_none]

/-- A journal superblock with blocks of 1024 bytes and no features. -/
def sessionSb : Mem := putBE (fun _ => 0) 12 4 1024

/-- The journal of a session: the log lies in blocks 101 to 109 of the device. -/
def sessionLog : JbdLog where
  sb := jbdSbOf .big sessionSb
  first := 1
  maxlen := 10
  start := 8
  sequence := 7
  bmap := fun _ k => some (100 + k)
  metaCsumOk := fun _ => true
  commitCsumOk := fun _ => true
  sbWrite := fun _ dev => dev

/-- Block 50 is written, and then revoked. -/
def sessionTrans : List LoggedTrans :=
  [⟨[⟨50, fun _ => 9, true⟩], [], fun _ _ => 0, fun _ _ => 0, fun _ => 0, 0, .inr (by decide)⟩,
    ⟨[⟨51, fun _ => 8, true⟩], [50], fun _ _ => 0, fun _ _ => 0, fun _ => 0, 0, .inl (by decide)⟩]

theorem session_plain : sessionLog.Plain .big sessionSb where
  sb := rfl
  csum := by decide +kernel
  metaOk _ := rfl
  commitOk _ := rfl
  min := by decide +kernel
  max := by decide +kernel

theorem session_ring : sessionLog.Ring := ⟨by decide, by decide, by decide⟩

theorem session_placed : sessionLog.Placed fun k => some (100 + k) where
  ring := session_ring
  bmap _ _ := rfl
  mapped _ := rfl
  inj _ hi _ hj h := JbdLog.at_inj (Nat.add_left_cancel h) hi hj

/-- After three writes the first transaction is committed, and the second is not there. -/
theorem recover_replays_session :
    let crashed := sessionLog.crashed (fun k => some (100 + k)) 3
      (logSegs .big sessionSb (fun _ _ => 0) sessionLog.sequence sessionTrans) fun _ _ => 0
    ∃ r, sessionLog.jbdRecover 9 crashed [] = some (.ok (), r) ∧ r.start = 0 ∧ r.dev 50 0 = 9 ∧
      r.dev 51 0 = 0 := by
  have hstale (b tid : ℕ) : sessionLog.readItem (fun _ => 0) b tid = none := if_pos (by decide)
  have hfit : ∀ t ∈ sessionTrans, t.Fits sessionLog.sb := by
    have h64 : sessionLog.sb.is64 = false := by decide +kernel
    simp only [sessionTrans, List.forall_mem_cons, List.not_mem_nil, false_implies, implies_true,
      and_true]
    exact ⟨⟨by simp [h64], by simp⟩, ⟨by simp [h64], by simp [h64]⟩⟩
  have hapart : ∀ t ∈ sessionTrans, ∀ buf ∈ t.bufs, buf.dirty →
      buf.lba ≠ 0 ∧ ∀ k, some (100 + k) ≠ some buf.lba := by
    simp only [sessionTrans, List.forall_mem_cons, List.not_mem_nil, false_implies, implies_true,
      and_true, Option.some.injEq, ne_eq]
    exact ⟨fun _ => ⟨by decide, fun k => by omega⟩, fun _ => ⟨by decide, fun k => by omega⟩⟩
  obtain ⟨r, hrun, hstart, hdev⟩ := @recover_replays _ _ _ _ sessionTrans session_plain
    session_placed (by decide) (by decide) (fun _ _ => 0) hfit hapart (by decide +kernel)
    (fun _ _ => 0) (fun _ _ _ _ => hstale _ _) 3 9 (by decide)
  refine ⟨r, hrun, hstart, ?_, ?_⟩
  · rw [hdev 50 (by decide +kernel)]
    decide +kernel
  · rw [hdev 51 (by decide +kernel)]
    decide +kernel

end Session

/-! ## Crashes during recovery -/

section Resume

variable {l : JbdLog} {dev dev' : ℕ → Mem}

theorem JbdLog.Same.symm (h : l.Same dev dev') : l.Same dev' dev := by
  refine fun k => ⟨(h k).1.symm, fun p hp => ((h k).2 p ?_).symm⟩
  rwa [← (h k).1]

theorem JbdLog.Same.trans {dev'' : ℕ → Mem} (h : l.Same dev dev') (h' : l.Same dev' dev'') :
    l.Same dev dev'' := by
  refine fun k => ⟨(h' k).1.trans (h k).1, fun p hp => ?_⟩
  rw [(h' k).2 p ((h k).1.trans hp), (h k).2 p hp]

theorem JbdLog.Items.congr {block tid n : ℕ} {items : List LogItem}
    (h : l.Items dev block tid items n) (hsame : l.Same dev dev') :
    l.Items dev' block tid items n := by
  induction h with
  | stop hp hi => exact .stop ((hsame _).1.trans hp) (by rwa [(hsame _).2 _ hp])
  | last hp hi hend => exact .last ((hsame _).1.trans hp) (by rwa [(hsame _).2 _ hp]) hend
  | cons hp hi hnext _ ih => exact .cons ((hsame _).1.trans hp) (by rwa [(hsame _).2 _ hp]) hnext ih

theorem JbdLog.Regular.congr {items : List LogItem} (h : l.Regular dev items)
    (hsame : l.Same dev dev') : l.Regular dev' items where
  apart c hc data dev'' h' := hsame.symm.trans (h.apart c hc data dev'' (hsame.trans h'))
  few := h.few

theorem putBack_congr (hsame : l.Same dev dev') : l.putBack dev' = l.putBack dev := by
  funext d c
  unfold JbdLog.putBack
  rw [(hsame c.1).1]
  cases hp : l.bmap dev c.1 with
  | none => rfl
  | some p => simp only [(hsame c.1).2 p hp]

theorem foldl_putBack_same {items : List LogItem} (hreg : l.Regular dev items)
    {cs : List (ℕ × TagRead)} (hcs : cs ⊆ l.mustRestore items) {d : ℕ → Mem} (hd : l.Same dev d) :
    l.Same dev (cs.foldl (l.putBack dev) d) := by
  induction cs generalizing d with
  | nil => exact hd
  | cons c cs ih =>
    obtain ⟨hc, hcs⟩ := List.cons_subset.1 hcs
    refine ih hcs ?_
    unfold JbdLog.putBack
    cases l.bmap dev c.1 with
    | none => exact hd
    | some p => exact hreg.apart c hc _ _ hd

/-- A block that is put back holds nothing of what was put back before. -/
theorem putBack_absorbs {c c' : ℕ × TagRead} (hc : (l.bmap dev c.1).isSome) (h0 : c.2.block ≠ 0)
    (h0' : c'.2.block ≠ 0) (hbs : 4 ≤ l.sb.blocksize) (d : ℕ → Mem) :
    (c.2.block = c'.2.block → l.putBack dev (l.putBack dev d c') c = l.putBack dev d c) ∧
      (c.2.block ≠ c'.2.block →
        l.putBack dev (l.putBack dev d c') c = l.putBack dev (l.putBack dev d c) c') := by
  obtain ⟨p, hp⟩ := Option.isSome_iff_exists.1 hc
  unfold JbdLog.putBack
  cases l.bmap dev c'.1 with
  | none => exact ⟨fun _ => rfl, fun _ => rfl⟩
  | some p' =>
    rw [hp]
    simp only [restore_eq h0, restore_eq h0']
    constructor
    · intro heq
      rw [heq, Function.update_self, restored_restored hbs, Function.update_idem]
    · intro hne
      rw [Function.update_of_ne hne, Function.update_of_ne hne.symm, Function.update_comm hne]

/-- **Recovery can be cut off**: after any number of its writes, to begin again restores the
    same. -/
theorem recover_resumes {items : List LogItem} {n fuel : ℕ} (hstart : l.start ≠ 0)
    (h : l.Items dev l.start l.sequence items n) (hseq : l.sequence < 2 ^ 32)
    (hreg : l.Regular dev items) (hmap : ∀ c ∈ l.mustRestore items, (l.bmap dev c.1).isSome)
    (h0 : ∀ c ∈ l.mustRestore items, c.2.block ≠ 0) (hbs : 4 ≤ l.sb.blocksize) (hn : n ≤ fuel)
    (m : ℕ) :
    ∃ r r', l.jbdRecover fuel dev [] = some (.ok (), r) ∧
      l.jbdRecover fuel (((l.mustRestore items).take m).foldl (l.putBack dev) dev) [] =
        some (.ok (), r') ∧
      r'.dev = r.dev := by
  have hfirst {d : ℕ → Mem} (hsame : l.Same dev d) :
      ∃ r, l.jbdRecover fuel d [] = some (.ok (), r) ∧
      r.dev = (l.mustRestore items).foldl (l.putBack dev) d := by
    obtain ⟨r, st, hrun, -, hx⟩ := recover_run_plan hstart (h.congr hsame) hseq
      (hreg.congr hsame) hn []
    have hworks : l.works d (l.recoverPlan items n) [] = some [] := by
      refine works_nil fun c hc => ?_
      rw [copies_recoverPlan] at hc
      rw [(hsame c.1).1]
      exact hmap c hc
    obtain ⟨hres, -⟩ := run_works d hworks
    rw [hres, copies_recoverPlan, putBack_congr hsame] at hx
    rcases hx with ⟨hx, -⟩ | ⟨-, hdev, -, -, rfl⟩
    · cases hx
    · exact ⟨st, hrun, hdev⟩
  obtain ⟨r, hrun, hdev⟩ := hfirst (.refl dev)
  obtain ⟨r', hrun', hdev'⟩ := hfirst (foldl_putBack_same hreg (List.take_subset m _) (.refl dev))
  refine ⟨r, r', hrun, hrun', ?_⟩
  rw [hdev, hdev']
  refine foldl_absorb (fun c : ℕ × TagRead => c.2.block) (fun c hc c' hc' d heq => ?_)
    (fun c hc c' hc' d hne => ?_) (List.take_subset m _) dev
  · exact (putBack_absorbs (hmap c hc) (h0 c hc) (h0 c' hc') hbs d).1 heq
  · exact (putBack_absorbs (hmap c hc) (h0 c hc) (h0 c' hc') hbs d).2 hne

/-- Recovery of a log of one transaction, cut off after its write. -/
theorem recover_resumes_copy : ∃ t : TagRead, ∃ r r',
    copyLog.jbdRecover 2 copyDev [] = some (.ok (), r) ∧
      copyLog.jbdRecover 2 (copyLog.putBack copyDev copyDev (2, t)) [] = some (.ok (), r') ∧
      r'.dev = r.dev := by
  obtain ⟨t, ht, h⟩ := copy_items
  have hmust : copyLog.mustRestore [.descriptor [(2, t)], .commit] = [(2, t)] := rfl
  refine ⟨t, @recover_resumes _ _ _ _ 2 (by decide) h (by decide) (copy_regular _ _ h) ?_ ?_
    (by decide) le_rfl 1⟩
  · rw [hmust]
    exact List.forall_mem_singleton.2 rfl
  · rw [hmust]
    exact List.forall_mem_singleton.2 (by rw [ht]; decide)

end Resume

end Lwext4
