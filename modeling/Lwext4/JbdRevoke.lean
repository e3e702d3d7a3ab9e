/-
  Revoke blocks: `jbd_journal_prepare_revoke` writes them, and
  `jbd_build_revoke_tree` reads them when the journal is replayed.

  The writer fills a block with the numbers of a chunk of the set
  (`RevokeBlk.Holds`); what the reader makes of the block is
  `buildRevokeTree_of_holds`.  The count of bytes the writer stores includes
  the checksum tail, so with four-byte numbers the reader takes one number more
  than there are: `revokeCodec_exact_iff`.
-/
import Lwext4.Jbd

namespace Lwext4

open Lib

/-! ## The writer -/

/-- `record_len`. -/
def jbdRecordLen (sb : JbdSb) : ℕ := if sb.is64 then 8 else 4

/-- The revoke block being filled: its buffer, `blocks_entry` as an offset, and
    `tag_tbl_size`. -/
structure RevokeBlk where
  blk : Mem
  blocksEntry : ℕ
  tagTblSize : ℕ

namespace RevokeBlk

/-- A revoke block without numbers, in a buffer that holds `stale`. -/
def new (sb : JbdSb) (sequence : ℕ) (stale : Mem) : RevokeBlk where
  blk := jbdSetBhdr stale jbdRevokeBlock sequence
  blocksEntry := jbdRevokeHeaderSize
  tagTblSize := sb.blocksize - jbdRevokeHeaderSize - jbdTailSize sb

/-- Store a number in the block. -/
def put (sb : JbdSb) (r : RevokeBlk) (lba : ℕ) : RevokeBlk where
  blk := putBE r.blk r.blocksEntry (jbdRecordLen sb) lba
  blocksEntry := r.blocksEntry + jbdRecordLen sb
  tagTblSize := r.tagTblSize - jbdRecordLen sb

/-- Store the count of bytes and the checksum. -/
def close (sb : JbdSb) (csum : Mem → ℕ) (r : RevokeBlk) : Mem :=
  jbdMetaCsumSet sb csum (putBE r.blk jbdBhdrSize 4 (sb.blocksize - r.tagTblSize))

end RevokeBlk

/-- `jbd_journal_prepare_revoke` on the numbers of the revoke tree, in order.
    The buffer of the `k`-th block holds `stale k` when it is fetched.  A new
    block always has room for a number (`new_room`). -/
def jbdPrepareRevoke (sb : JbdSb) (csum : Mem → ℕ) (sequence : ℕ) (stale : ℕ → Mem) :
    List ℕ → (k : ℕ) → Option RevokeBlk → List Mem
  | [], _, none => []
  | [], _, some r => [r.close sb csum]
  | lba :: lbas, k, none =>
    jbdPrepareRevoke sb csum sequence stale lbas (k + 1)
      (some ((RevokeBlk.new sb sequence (stale k)).put sb lba))
  | lba :: lbas, k, some r =>
    if r.tagTblSize < jbdRecordLen sb then
      r.close sb csum :: jbdPrepareRevoke sb csum sequence stale lbas (k + 1)
        (some ((RevokeBlk.new sb sequence (stale k)).put sb lba))
    else jbdPrepareRevoke sb csum sequence stale lbas k (some (r.put sb lba))

/-! ## The reader -/

/-- The revoke tree: the transaction a block is revoked by. -/
abbrev RevokeTree := ℕ → Option ℕ

/-- `jbd_add_revoke_block_tags`. -/
def jbdAddRevokeBlockTags (transId : ℕ) (tree : RevokeTree) (block : ℕ) : RevokeTree := fun b =>
  if b = block then some transId else tree b

/-- The numbers `jbd_build_revoke_tree` takes from a revoke block. -/
def jbdRevokeEntries (sb : JbdSb) (b : Mem) : List ℕ :=
  let recordLen := jbdRecordLen sb
  let nrEntries := sub32 (getBE b jbdBhdrSize 4) jbdRevokeHeaderSize / recordLen
  (List.range nrEntries).map fun i => getBE b (jbdRevokeHeaderSize + i * recordLen) recordLen

/-- `jbd_build_revoke_tree`. -/
def jbdBuildRevokeTree (sb : JbdSb) (transId : ℕ) (tree : RevokeTree) (b : Mem) : RevokeTree :=
  (jbdRevokeEntries sb b).foldl (jbdAddRevokeBlockTags transId) tree

/-! ## What the blocks hold -/

section Codec

variable {sb : JbdSb} {csum : Mem → ℕ} {sequence : ℕ} {stale : ℕ → Mem}

theorem recordLen_pos : 0 < jbdRecordLen sb := by
  unfold jbdRecordLen
  split_ifs <;> decide

theorem new_room (hbs : 1024 ≤ sb.blocksize) (stale : Mem) :
    jbdRecordLen sb ≤ (RevokeBlk.new sb sequence stale).tagTblSize := by
  unfold RevokeBlk.new jbdRecordLen jbdTailSize jbdRevokeHeaderSize jbdBlockTailSize
  simp only
  split_ifs <;> omega

/-- The block holds the numbers `chunk` and is otherwise its old buffer. -/
structure RevokeBlk.Holds (sb : JbdSb) (stale : Mem) (r : RevokeBlk) (chunk : List ℕ) : Prop where
  entry : r.blocksEntry = jbdRevokeHeaderSize + jbdRecordLen sb * chunk.length
  size : r.tagTblSize + r.blocksEntry + jbdTailSize sb = sb.blocksize
  nums : ∀ i (h : i < chunk.length),
    getBE r.blk (jbdRevokeHeaderSize + i * jbdRecordLen sb) (jbdRecordLen sb) =
      chunk[i] % 256 ^ jbdRecordLen sb
  rest : ∀ i, r.blocksEntry ≤ i → r.blk i = stale i

theorem new_holds (hbs : 1024 ≤ sb.blocksize) (stale : Mem) :
    (RevokeBlk.new sb sequence stale).Holds sb stale [] where
  entry := rfl
  size := by
    unfold RevokeBlk.new jbdTailSize jbdRevokeHeaderSize jbdBlockTailSize
    simp only
    split_ifs <;> omega
  nums i h := absurd h (Nat.not_lt_zero i)
  rest _ h := jbdSetBhdr_of_ge (Nat.le_trans (show jbdBhdrSize ≤ jbdRevokeHeaderSize by decide) h)

/-- Storing one more number. -/
theorem RevokeBlk.Holds.put {stale : Mem} {r : RevokeBlk} {chunk : List ℕ}
    (h : r.Holds sb stale chunk) (hroom : jbdRecordLen sb ≤ r.tagTblSize) (lba : ℕ) :
    (r.put sb lba).Holds sb stale (chunk ++ [lba]) where
  entry := by
    rw [RevokeBlk.put, h.entry, List.length_append, List.length_singleton, Nat.mul_add, Nat.mul_one,
      Nat.add_assoc]
  size := by
    have := h.size
    unfold RevokeBlk.put
    simp only
    omega
  nums i hi := by
    have hentry := h.entry
    rw [Nat.mul_comm] at hentry
    rw [List.length_append, List.length_singleton] at hi
    rw [RevokeBlk.put]
    rcases Nat.lt_succ_iff_lt_or_eq.1 hi with hlt | rfl
    · have hle : (i + 1) * jbdRecordLen sb ≤ chunk.length * jbdRecordLen sb :=
        Nat.mul_le_mul_right _ hlt
      rw [Nat.succ_mul] at hle
      rw [getBE_putBE_of_disjoint (.inl (by omega)), h.nums i hlt, List.getElem_append_left hlt]
    · rw [← hentry, getBE_putBE, List.getElem_concat_length rfl]
  rest i hi := by
    have hge : r.blocksEntry + jbdRecordLen sb ≤ i := hi
    have hrest := h.rest i (by omega)
    rwa [← putBE_of_ge (m := r.blk) (n := lba) hge] at hrest

/-- Closing a block touches the count and the checksum only. -/
theorem RevokeBlk.close_apply {r : RevokeBlk} {i : ℕ} (h : jbdRevokeHeaderSize ≤ i)
    (hlt : i < sb.blocksize - jbdTailSize sb) : r.close sb csum i = r.blk i := by
  rw [RevokeBlk.close, jbdMetaCsumSet_of_lt hlt, putBE_of_ge h]

theorem RevokeBlk.Holds.count {stale : Mem} {r : RevokeBlk} {chunk : List ℕ}
    (h : r.Holds sb stale chunk) (hbs : sb.blocksize < 2 ^ 32) :
    sub32 (getBE (r.close sb csum) jbdBhdrSize 4) jbdRevokeHeaderSize =
      jbdRecordLen sb * chunk.length + jbdTailSize sb := by
  have hentry := h.entry
  have hsize := h.size
  have hhdr : jbdBhdrSize + 4 = jbdRevokeHeaderSize := rfl
  have hget : getBE (r.close sb csum) jbdBhdrSize 4 = sb.blocksize - r.tagTblSize := by
    rw [RevokeBlk.close, getBE_congr fun i _ hi => jbdMetaCsumSet_of_lt (by omega), getBE_putBE]
    exact Nat.mod_eq_of_lt (by omega)
  rw [hget, sub32_of_le (by omega) (by omega)]
  omega

/-- What the reader takes from a closed block: the numbers of the chunk, and as
    many numbers more as fit into the checksum tail. -/
theorem RevokeBlk.Holds.entries {stale : Mem} {r : RevokeBlk} {chunk : List ℕ}
    (h : r.Holds sb stale chunk) (hbs : sb.blocksize < 2 ^ 32) :
    jbdRevokeEntries sb (r.close sb csum) = chunk.map (· % 256 ^ jbdRecordLen sb) ++
      (List.range (jbdTailSize sb / jbdRecordLen sb)).map fun i =>
        getBE (r.close sb csum) (r.blocksEntry + i * jbdRecordLen sb) (jbdRecordLen sb) := by
  have hentry := h.entry
  have hsize := h.size
  rw [jbdRevokeEntries, h.count hbs, Nat.mul_add_div recordLen_pos, List.range_add,
    List.map_append, List.map_map]
  congr 1
  · refine List.ext_getElem (by simp) fun i h1 h2 => ?_
    rw [List.length_map, List.length_range] at h1
    have hle : (i + 1) * jbdRecordLen sb ≤ chunk.length * jbdRecordLen sb :=
      Nat.mul_le_mul_right _ h1
    rw [Nat.succ_mul, Nat.mul_comm chunk.length] at hle
    rw [List.getElem_map, List.getElem_range, List.getElem_map, ← h.nums i h1]
    exact getBE_congr fun j hj hj' => RevokeBlk.close_apply (by omega) (by omega)
  · refine List.map_congr_left fun i _ => ?_
    rw [Function.comp_apply, Nat.add_mul, ← Nat.add_assoc, Nat.mul_comm chunk.length, ← hentry]

/-- A block that `jbd_journal_prepare_revoke` wrote for the numbers `chunk`. -/
def RevokeHolds (sb : JbdSb) (csum : Mem → ℕ) (stale : ℕ → Mem) (chunk : List ℕ) (b : Mem) : Prop :=
  ∃ k r, RevokeBlk.Holds sb (stale k) r chunk ∧ b = r.close sb csum

/-- **The writer**: the blocks hold the numbers of the set, cut into chunks. -/
theorem prepareRevoke_holds (hbs : 1024 ≤ sb.blocksize) (lbas : List ℕ) :
    (∀ k, ∃ chunks : List (List ℕ), chunks.flatten = lbas ∧
      List.Forall₂ (RevokeHolds sb csum stale) chunks
        (jbdPrepareRevoke sb csum sequence stale lbas k none)) ∧
    ∀ k j r chunk, RevokeBlk.Holds sb (stale j) r chunk →
      ∃ chunks : List (List ℕ), chunks.flatten = chunk ++ lbas ∧
        List.Forall₂ (RevokeHolds sb csum stale) chunks
          (jbdPrepareRevoke sb csum sequence stale lbas k (some r)) := by
  induction lbas with
  | nil =>
    refine ⟨fun k => ⟨[], rfl, .nil⟩, fun k j r chunk h => ⟨[chunk], by simp, ?_⟩⟩
    exact .cons ⟨j, r, h, rfl⟩ .nil
  | cons lba lbas ih =>
    have hnew := fun k => (@new_holds _ sequence hbs (stale k)).put (new_room hbs _) lba
    refine ⟨fun k => ih.2 (k + 1) _ _ _ (hnew k), fun k j r chunk h => ?_⟩
    rw [jbdPrepareRevoke]
    by_cases hfull : r.tagTblSize < jbdRecordLen sb
    · obtain ⟨chunks, hflat, hall⟩ := ih.2 (k + 1) _ _ _ (hnew k)
      rw [if_pos hfull]
      exact ⟨chunk :: chunks, by rw [List.flatten_cons, hflat]; simp, .cons ⟨j, r, h, rfl⟩ hall⟩
    · obtain ⟨chunks, hflat, hall⟩ := ih.2 k _ _ _ (h.put (Nat.not_lt.1 hfull) lba)
      rw [if_neg hfull]
      exact ⟨chunks, by rw [hflat]; simp, hall⟩

/-! ## What the reader makes of them -/

theorem foldl_addRevokeBlockTags (transId : ℕ) (tree : RevokeTree) (bs : List ℕ) (b : ℕ) :
    bs.foldl (jbdAddRevokeBlockTags transId) tree b = if b ∈ bs then some transId else tree b := by
  induction bs generalizing tree with
  | nil => simp
  | cons x bs ih =>
    rw [List.foldl_cons, ih, jbdAddRevokeBlockTags]
    by_cases hb : b ∈ bs <;> by_cases hx : b = x <;> simp [hb, hx]

theorem foldl_buildRevokeTree (transId : ℕ) (tree : RevokeTree) (blocks : List Mem) (b : ℕ) :
    blocks.foldl (jbdBuildRevokeTree sb transId) tree b =
      if b ∈ blocks.flatMap (jbdRevokeEntries sb) then some transId else tree b := by
  induction blocks generalizing tree with
  | nil => simp
  | cons blk blocks ih =>
    rw [List.foldl_cons, ih, jbdBuildRevokeTree, foldl_addRevokeBlockTags, List.flatMap_cons]
    by_cases h1 : b ∈ blocks.flatMap (jbdRevokeEntries sb) <;>
      by_cases h2 : b ∈ jbdRevokeEntries sb blk <;> simp [h1, h2]

/-- The numbers of the set are read back, cut to the width of an entry; what is
    read besides is a number of that width, and there is none unless the
    checksum tail has room for it. -/
theorem mem_entries {chunks : List (List ℕ)} {blocks : List Mem} (hbs : sb.blocksize < 2 ^ 32)
    (h : List.Forall₂ (RevokeHolds sb csum stale) chunks blocks) :
    (∀ lba ∈ chunks.flatten, lba % 256 ^ jbdRecordLen sb ∈ blocks.flatMap (jbdRevokeEntries sb)) ∧
    ∀ b ∈ blocks.flatMap (jbdRevokeEntries sb),
      (∃ lba ∈ chunks.flatten, lba % 256 ^ jbdRecordLen sb = b) ∨
        jbdTailSize sb / jbdRecordLen sb ≠ 0 ∧ chunks ≠ [] ∧ b < 256 ^ jbdRecordLen sb := by
  induction h with
  | nil => simp
  | cons hd _ ih =>
    obtain ⟨k, r, hr, rfl⟩ := hd
    obtain ⟨ih1, ih2⟩ := ih
    simp only [List.flatten_cons, List.flatMap_cons, List.mem_append, hr.entries hbs, List.mem_map,
      List.mem_range]
    refine ⟨fun lba hlba => ?_, fun b hb => ?_⟩
    · rcases hlba with hlba | hlba
      · exact .inl (.inl ⟨lba, hlba, rfl⟩)
      · exact .inr (ih1 lba hlba)
    · rcases hb with (⟨lba, hlba, rfl⟩ | ⟨i, hi, rfl⟩) | hb
      · exact .inl ⟨lba, .inl hlba, rfl⟩
      · exact .inr ⟨by omega, List.cons_ne_nil _ _, getBE_lt _ _ _⟩
      · rcases ih2 b hb with ⟨lba, hlba, rfl⟩ | ⟨h1, _, h3⟩
        · exact .inl ⟨lba, .inr hlba, rfl⟩
        · exact .inr ⟨h1, List.cons_ne_nil _ _, h3⟩

/-- A buffer in which every aligned word is `v`. -/
def wordMem (v : ℕ) : Mem := fun i => (beBytes 4 v).getD (i % 4) 0

theorem getBE_wordMem {v a : ℕ} (hv : v < 2 ^ 32) (ha : 4 ∣ a) : getBE (wordMem v) a 4 = v := by
  obtain ⟨c, rfl⟩ := ha
  have h (j : ℕ) (hj : j < 4) : (4 * c + j) % 4 = j := by omega
  have hread : (wordMem v).read (4 * c) 4 = beBytes 4 v := by
    simp only [Mem.read, wordMem, Nat.add_assoc, h, Nat.mul_mod_right, Nat.reduceAdd,
      Nat.reduceLT]
    rfl
  rw [getBE, hread, beVal_beBytes]
  exact Nat.mod_eq_of_lt hv

/-- In a block with four-byte numbers and a checksum, the word behind the last
    number is read too: what the buffer held there before, or the checksum. -/
theorem RevokeBlk.Holds.extra {v : ℕ} {r : RevokeBlk} {chunk : List ℕ}
    (h : r.Holds sb (wordMem v) chunk) (hv : v < 2 ^ 32) (hbs : 4 ∣ sb.blocksize)
    (h64 : jbdRecordLen sb = 4) (hcsum : jbdHasCsum sb ≠ 0) :
    getBE (r.close sb fun _ => v) r.blocksEntry 4 = v := by
  have hentry := h.entry
  have hsize := h.size
  have htail : jbdTailSize sb = 4 := if_neg hcsum
  rw [h64, jbdRevokeHeaderSize] at hentry
  by_cases hfull : r.tagTblSize = 0
  · have hpos : sb.blocksize - jbdBlockTailSize = r.blocksEntry := by
      rw [jbdBlockTailSize]
      omega
    rw [RevokeBlk.close, jbdMetaCsumSet, if_neg hcsum, hpos, jbdBlockTailSize, getBE_putBE]
    exact Nat.mod_eq_of_lt hv
  · rw [← getBE_wordMem hv (show 4 ∣ r.blocksEntry by omega)]
    refine getBE_congr fun i h1 h2 => ?_
    rw [getBE_wordMem hv (show 4 ∣ r.blocksEntry by omega)]
    have hhdr : jbdRevokeHeaderSize = 16 := rfl
    rw [RevokeBlk.close_apply (by omega) (by omega), h.rest i h1]

/-- Reading back the blocks written for `lbas` gives exactly these numbers,
    whatever the buffers held before and whatever the checksums are. -/
def RevokeCodecExact (sb : JbdSb) (sequence : ℕ) (lbas : List ℕ) : Prop :=
  ∀ csum stale b,
    (jbdPrepareRevoke sb csum sequence stale lbas 0 none).foldl (jbdBuildRevokeTree sb sequence)
      (fun _ => none) b = if b ∈ lbas then some sequence else none

theorem revokeCodecExact_iff {lbas : List ℕ} : RevokeCodecExact sb sequence lbas ↔
    ∀ csum stale b, b ∈ (jbdPrepareRevoke sb csum sequence stale lbas 0 none).flatMap
      (jbdRevokeEntries sb) ↔ b ∈ lbas := by
  unfold RevokeCodecExact
  simp only [foldl_buildRevokeTree]
  refine forall_congr' fun csum => forall_congr' fun stale => forall_congr' fun b => ?_
  by_cases h1 : b ∈ lbas <;>
    by_cases h2 : b ∈ (jbdPrepareRevoke sb csum sequence stale lbas 0 none).flatMap
      (jbdRevokeEntries sb) <;> simp [h1, h2]

theorem exists_extra {lbas : List ℕ} {v : ℕ} (hmin : 1024 ≤ sb.blocksize)
    (hmax : sb.blocksize < 2 ^ 32) (hdvd : 4 ∣ sb.blocksize) (h64 : jbdRecordLen sb = 4)
    (hcsum : jbdHasCsum sb ≠ 0) (hne : lbas ≠ []) (hv : v < 2 ^ 32) :
    v ∈ (jbdPrepareRevoke sb (fun _ => v) sequence (fun _ => wordMem v) lbas 0 none).flatMap
      (jbdRevokeEntries sb) := by
  obtain ⟨chunks, hflat, hall⟩ := (@prepareRevoke_holds _ (fun _ => v) sequence
    (fun _ => wordMem v) hmin lbas).1 0
  generalize jbdPrepareRevoke sb _ sequence _ lbas 0 none = blocks at hall ⊢
  cases hall with
  | nil => exact absurd hflat.symm hne
  | cons hd _ =>
    obtain ⟨k, r, hr, hb⟩ := hd
    have htail : jbdTailSize sb = 4 := if_neg hcsum
    rw [List.flatMap_cons, hb, hr.entries hmax, htail, h64]
    refine List.mem_append_left _ (List.mem_append_right _ (List.mem_map.2 ⟨0, by simp, ?_⟩))
    rw [Nat.zero_mul, Nat.add_zero]
    exact hr.extra hv hdvd h64 hcsum

/-- **Revoke codec**: what is written is read back exactly iff the block numbers
    fit into the entries and there is no room in the checksum tail for an entry
    that nobody wrote. -/
theorem revokeCodec_exact_iff {lbas : List ℕ} (hmin : 1024 ≤ sb.blocksize)
    (hmax : sb.blocksize < 2 ^ 32) (hdvd : 4 ∣ sb.blocksize) (hlba : ∀ lba ∈ lbas, lba < 2 ^ 64) :
    RevokeCodecExact sb sequence lbas ↔
      sb.is64 = true ∨ (∀ lba ∈ lbas, lba < 2 ^ 32) ∧
        (jbdHasCsum sb = 0 ∨ lbas = [] ∨ ∀ v < 2 ^ 32, v ∈ lbas) := by
  rw [revokeCodecExact_iff]
  cases h64 : sb.is64 with
  | true =>
    have hlen : jbdRecordLen sb = 8 := by rw [jbdRecordLen, h64, if_pos rfl]
    have hpow : 256 ^ 8 = 2 ^ 64 := rfl
    have hnone : jbdTailSize sb / jbdRecordLen sb = 0 := by
      rw [hlen, jbdTailSize, jbdBlockTailSize]
      split_ifs <;> rfl
    refine iff_of_true (fun csum stale b => ?_) (.inl rfl)
    obtain ⟨chunks, hflat, hall⟩ := (prepareRevoke_holds hmin lbas).1 0
    obtain ⟨hmem, hof⟩ := mem_entries hmax hall
    rw [hflat, hlen, hpow] at hmem hof
    constructor
    · intro hb
      rcases hof b hb with ⟨lba, hl, rfl⟩ | ⟨hne, -⟩
      · rwa [Nat.mod_eq_of_lt (hlba lba hl)]
      · exact absurd (hlen ▸ hnone) hne
    · intro hb
      have h := hmem b hb
      rwa [Nat.mod_eq_of_lt (hlba b hb)] at h
  | false =>
    have hlen : jbdRecordLen sb = 4 := by rw [jbdRecordLen, h64, if_neg Bool.false_ne_true]
    have hpow : 256 ^ 4 = 2 ^ 32 := rfl
    rw [or_iff_right Bool.false_ne_true]
    constructor
    · intro h
      refine ⟨fun lba hl => ?_, ?_⟩
      · have hb := (h (fun _ => 0) (fun _ _ => 0) lba).2 hl
        obtain ⟨blk, -, hblk⟩ := List.mem_flatMap.1 hb
        obtain ⟨i, -, rfl⟩ := List.mem_map.1 hblk
        have hlt := getBE_lt blk (jbdRevokeHeaderSize + i * jbdRecordLen sb) (jbdRecordLen sb)
        rwa [hlen] at hlt ⊢
      · by_contra! hcon
        obtain ⟨hcsum, hne, v, hv, hnot⟩ := hcon
        exact hnot ((h _ _ v).1 (exists_extra hmin hmax hdvd hlen hcsum hne hv))
    · rintro ⟨hfit, hcond⟩ csum stale b
      obtain ⟨chunks, hflat, hall⟩ := (prepareRevoke_holds hmin lbas).1 0
      obtain ⟨hmem, hof⟩ := mem_entries hmax hall
      rw [hflat, hlen, hpow] at hmem hof
      constructor
      · intro hb
        rcases hof b hb with ⟨lba, hl, rfl⟩ | ⟨hne, hchunks, hlt⟩
        · rwa [Nat.mod_eq_of_lt (hfit lba hl)]
        · rcases hcond with hcsum | rfl | hall
          · rw [jbdTailSize, if_pos hcsum] at hne
            exact absurd (Nat.zero_div _) hne
          · exact absurd hb (by simp [jbdPrepareRevoke])
          · exact hall b hlt
      · intro hb
        have h := hmem b hb
        rwa [Nat.mod_eq_of_lt (hfit b hb)] at h

end Codec

/-- A journal with 64-bit block numbers and checksums. -/
theorem revokeCodec_exact_64bit :
    RevokeCodecExact ⟨1024, true, false, true, .replicate 16 0⟩ 5 [3, 2 ^ 40] :=
  (@revokeCodec_exact_iff ⟨1024, true, false, true, .replicate 16 0⟩ _ _ (by decide) (by decide) (by decide)
    (by simp)).2 (.inl rfl)

/-- With 32-bit block numbers and checksums, revoking block 7 revokes block 0 if
    the buffer was clear. -/
theorem revokeCodec_invents :
    ¬ RevokeCodecExact ⟨1024, false, true, false, .replicate 16 0⟩ 1 [7] := by
  intro h
  have h0 := h (fun _ => 0) (fun _ _ => 0) 0
  revert h0
  decide +kernel

end Lwext4
