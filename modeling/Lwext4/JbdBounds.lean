/-
  The bytes that recovery reads of descriptor and revoke blocks.

  The readers of `JbdTag` and `JbdRevoke` once more, with a log of their
  accesses.  The tags of a descriptor block are always read from its tag area;
  the numbers of a revoke block are read from its record area iff the count of
  bytes in its header is at least the size of the header and the numbers it
  leaves room for end before the tail (`parsesInside_iff`).
-/
import Lwext4.Lib.Traced
import Lwext4.JbdTag
import Lwext4.JbdRevoke

namespace Lwext4

open Lib

/-- A value stored as `int32_t`. -/
def int32 (x : ℤ) : ℤ := x.bmod (2 ^ 32)

section Readers

variable (sb : JbdSb)

/-- The tag `jbd_extract_block_tag` makes of what it has read. -/
def tagRead (block flags : ℕ) (uuid : Option (List Byte)) : TagRead where
  tagBytes := if uuid.isSome then jbdTagBytes sb + uuidSize else jbdTagBytes sb
  block := block
  isEscape := flags &&& jbdFlagEscape != 0
  uuid := uuid
  lastTag := flags &&& jbdFlagLastTag != 0

/-- The reads of `blocknr` and `blocknr_high`. -/
def jbdTagBlockT (b : Mem) (tag : ℕ) : Traced Unit ℕ := do
  let lo ← Traced.getBE () b tag 4
  if sb.is64 then do
    let hi ← Traced.getBE () b (tag + 8) 4
    pure (lo + hi * 2 ^ 32)
  else pure (lo + 0)

/-- `jbd_extract_block_tag`, with its accesses. -/
def jbdExtractBlockTagT (b : Mem) (tag : ℕ) (remainBufSize : ℤ) : Traced Unit (Option TagRead) := do
  let tagBytes := jbdTagBytes sb
  if remainBufSize - tagBytes < 0 then pure none
  else do
    let block ← jbdTagBlockT sb b tag
    let flags ← Traced.getBE () b (tag + (jbdTagLayout sb).flagsAt) (jbdTagLayout sb).flagsLen
    if flags &&& jbdFlagSameUuid != 0 then pure (some (tagRead sb block flags none))
    else if remainBufSize - tagBytes < uuidSize then pure none
    else do
      let uuid ← Traced.read () b (tag + tagBytes) uuidSize
      pure (some (tagRead sb block flags (some uuid)))

/-- The loop of `jbd_iterate_block_table`, with its accesses. -/
def jbdIterateTagsT (b : Mem) : (fuel tagPtr : ℕ) → (tagTblSize : ℤ) → Traced Unit (List TagRead)
  | 0, _, _ => pure []
  | fuel + 1, tagPtr, tagTblSize =>
    if tagTblSize = 0 then pure []
    else do
      match ← jbdExtractBlockTagT sb b tagPtr tagTblSize with
      | none => pure []
      | some t =>
        if t.lastTag then pure [t]
        else do
          let ts ← jbdIterateTagsT b fuel (tagPtr + t.tagBytes) (tagTblSize - t.tagBytes)
          pure (t :: ts)

/-- `tag_tbl_size` at the start of the loop. -/
def jbdTagTblSize : ℤ :=
  let size := int32 (sb.blocksize - jbdBhdrSize)
  if jbdHasCsum sb = 0 then size else int32 (size - jbdBlockTailSize)

/-- `jbd_iterate_block_table` on a descriptor block, with its accesses. -/
def jbdIterateBlockTableT (b : Mem) : Traced Unit (List TagRead) :=
  jbdIterateTagsT sb b (jbdTagArea sb) jbdBhdrSize (jbdTagTblSize sb)

/-- The loop of `jbd_build_revoke_tree`, with its accesses. -/
def jbdRevokeLoopT (b : Mem) : (n blocksEntry : ℕ) → Traced Unit (List ℕ)
  | 0, _ => pure []
  | n + 1, blocksEntry => do
    let block ← Traced.getBE () b blocksEntry (jbdRecordLen sb)
    let blocks ← jbdRevokeLoopT b n (blocksEntry + jbdRecordLen sb)
    pure (block :: blocks)

/-- The numbers `jbd_build_revoke_tree` takes from a revoke block, with its
    accesses. -/
def jbdRevokeEntriesT (b : Mem) : Traced Unit (List ℕ) := do
  let count ← Traced.getBE () b jbdBhdrSize 4
  jbdRevokeLoopT sb b (sub32 count jbdRevokeHeaderSize / jbdRecordLen sb) jbdRevokeHeaderSize

end Readers

section Spec

variable {sb : JbdSb} {b : Mem}

/-! ## The same readers -/

theorem tagBlockT_val (tag : ℕ) : (jbdTagBlockT sb b tag).val =
    getBE b tag 4 + if sb.is64 then getBE b (tag + 8) 4 * 2 ^ 32 else 0 := by
  unfold jbdTagBlockT
  by_cases h : sb.is64 = true
  · simp [h]
  · simp [h]

theorem extractBlockTagT_val (tag n : ℕ) :
    (jbdExtractBlockTagT sb b tag n).val = jbdExtractBlockTag sb b tag n := by
  unfold jbdExtractBlockTagT jbdExtractBlockTag
  simp only
  by_cases hn : n < jbdTagBytes sb
  · rw [if_pos hn, if_pos (by omega)]
    rfl
  rw [if_neg hn, if_neg (by omega), Traced.bind_val, tagBlockT_val, Traced.bind_val,
    Traced.getBE_val]
  generalize (getBE b tag 4 + if sb.is64 = true then getBE b (tag + 8) 4 * 2 ^ 32 else 0) = block
  rcases hsame : jbdTagFlag sb b tag jbdFlagSameUuid with - | -
  · have h := hsame
    unfold jbdTagFlag at h
    rw [if_neg (Bool.eq_false_iff.1 h)]
    by_cases hroom : n - jbdTagBytes sb < uuidSize
    · rw [if_pos (by omega), if_pos (by simpa using hroom)]
      rfl
    · rw [if_neg (by omega), if_neg (by simpa using hroom)]
      rfl
  · have h := hsame
    unfold jbdTagFlag at h
    rw [if_pos h]
    rfl

/-- A tag takes no more than the room there is. -/
theorem extractBlockTag_le {tag n : ℕ} {t : TagRead} (h : jbdExtractBlockTag sb b tag n = some t) :
    jbdTagBytes sb ≤ t.tagBytes ∧ t.tagBytes ≤ n := by
  unfold jbdExtractBlockTag at h
  simp only at h
  by_cases hn : n < jbdTagBytes sb
  · rw [if_pos hn] at h
    cases h
  rw [if_neg hn] at h
  rcases hsame : jbdTagFlag sb b tag jbdFlagSameUuid with - | -
  · by_cases hroom : n - jbdTagBytes sb < uuidSize
    · rw [if_pos (by simp [hsame, hroom])] at h
      cases h
    · rw [if_neg (by simp [hroom])] at h
      cases h
      rw [hsame]
      exact ⟨Nat.le_add_right _ _, by simp only [Bool.false_eq_true, if_false]; omega⟩
  · rw [if_neg (by simp [hsame])] at h
    cases h
    rw [hsame]
    exact ⟨le_rfl, by simp only [if_true]; omega⟩

theorem iterateTagsT_val : ∀ (fuel tagPtr n : ℕ),
    (jbdIterateTagsT sb b fuel tagPtr n).val = jbdIterateTags sb b fuel tagPtr n
  | 0, _, _ => rfl
  | fuel + 1, tagPtr, n => by
    unfold jbdIterateTagsT jbdIterateTags
    by_cases hn : n = 0
    · rw [if_pos hn, if_pos (by omega)]
      rfl
    · rw [if_neg hn, if_neg (by omega), Traced.bind_val, extractBlockTagT_val]
      rcases ht : jbdExtractBlockTag sb b tagPtr n with - | t
      · rfl
      · simp only
        by_cases hlast : t.lastTag = true
        · rw [if_pos hlast, if_pos hlast]
          rfl
        · rw [if_neg hlast, if_neg hlast, Traced.bind_val, ← Int.ofNat_sub (extractBlockTag_le ht).2,
            iterateTagsT_val]
          rfl

/-- The room for tags, when a block is no smaller than its header and tail. -/
theorem tagTblSize_eq (h1 : 16 ≤ sb.blocksize) (h2 : sb.blocksize < 2 ^ 31) :
    jbdTagTblSize sb = jbdTagArea sb := by
  have hbmod {x : ℤ} (h0 : 0 ≤ x) (h : x < 2 ^ 31) : int32 x = x := by
    unfold int32
    rw [Int.bmod_def, Int.emod_eq_of_lt h0 (by omega), if_pos (by omega)]
  unfold jbdTagTblSize jbdTagArea jbdTailSize jbdBhdrSize jbdBlockTailSize
  simp only
  rw [hbmod (by omega) (by omega)]
  split_ifs
  · omega
  · rw [hbmod (by omega) (by omega)]
    omega

theorem iterateBlockTableT_val (h1 : 16 ≤ sb.blocksize) (h2 : sb.blocksize < 2 ^ 31) :
    (jbdIterateBlockTableT sb b).val = jbdIterateBlockTable sb b := by
  unfold jbdIterateBlockTableT
  rw [tagTblSize_eq h1 h2, iterateTagsT_val]
  rfl

theorem revokeLoopT_val : ∀ (n blocksEntry : ℕ), (jbdRevokeLoopT sb b n blocksEntry).val =
    (List.range n).map fun i => getBE b (blocksEntry + i * jbdRecordLen sb) (jbdRecordLen sb)
  | 0, _ => rfl
  | n + 1, blocksEntry => by
    rw [List.range_succ_eq_map, List.map_cons, List.map_map, Nat.zero_mul, Nat.add_zero]
    unfold jbdRevokeLoopT
    rw [Traced.bind_val, Traced.bind_val, revokeLoopT_val n, Traced.getBE_val, Traced.pure_val]
    refine congrArg _ (List.map_congr_left fun i _ => ?_)
    show _ = getBE b (blocksEntry + (i + 1) * jbdRecordLen sb) _
    rw [Nat.succ_mul, Nat.add_assoc, Nat.add_comm (jbdRecordLen sb)]

/-- What is read of a revoke block with `n count` numbers. -/
theorem revokeLoopT_count_val (n : ℕ → ℕ) : (Traced.getBE () b jbdBhdrSize 4 >>= fun count =>
    jbdRevokeLoopT sb b (n count) jbdRevokeHeaderSize).val =
    (List.range (n (getBE b jbdBhdrSize 4))).map fun i =>
      getBE b (jbdRevokeHeaderSize + i * jbdRecordLen sb) (jbdRecordLen sb) := by
  rw [Traced.bind_val, Traced.getBE_val, revokeLoopT_val]

theorem revokeEntriesT_eq : jbdRevokeEntriesT sb b = (Traced.getBE () b jbdBhdrSize 4 >>= fun count =>
    jbdRevokeLoopT sb b (sub32 count jbdRevokeHeaderSize / jbdRecordLen sb)
      jbdRevokeHeaderSize) := by
  unfold jbdRevokeEntriesT
  with_reducible rfl

theorem revokeEntriesT_val : (jbdRevokeEntriesT sb b).val = jbdRevokeEntries sb b := by
  rw [revokeEntriesT_eq]
  exact revokeLoopT_count_val fun count => sub32 count jbdRevokeHeaderSize / jbdRecordLen sb

/-! ## Their accesses -/

theorem tagBlockT_in {tag lo hi : ℕ} (hlo : lo ≤ tag) (hhi : tag + jbdTagBytes sb ≤ hi) :
    (jbdTagBlockT sb b tag).All (Access.In lo hi) := by
  obtain ⟨h8, -, h12⟩ := tagBytes_bounds sb
  unfold jbdTagBlockT
  rw [Traced.all_bind, Traced.all_getBE]
  refine ⟨⟨hlo, by show tag + 4 ≤ hi; omega⟩, ?_⟩
  by_cases h : sb.is64 = true
  · have := h12 h
    rw [if_pos h, Traced.all_bind, Traced.all_getBE]
    refine ⟨⟨by show lo ≤ tag + 8; omega, ?_⟩, (Traced.all_pure _).2 trivial⟩
    show tag + 8 + 4 ≤ hi
    omega
  · rw [if_neg h]
    exact (Traced.all_pure _).2 trivial

/-- **A tag is read from the room it is given.** -/
theorem extractBlockTagT_in {tag n lo hi : ℕ} (hlo : lo ≤ tag) (hhi : tag + n ≤ hi) :
    (jbdExtractBlockTagT sb b tag n).All (Access.In lo hi) := by
  have hflags : (jbdTagLayout sb).flagsAt + (jbdTagLayout sb).flagsLen ≤ jbdTagBytes sb := by
    rcases tagBytes_cases sb with ⟨-, h1, h2⟩ | ⟨-, h1, -, -, h2⟩
    · rw [h1, h2]
      decide
    · rw [h2]
      exact h1
  unfold jbdExtractBlockTagT
  simp only
  by_cases hn : n < jbdTagBytes sb
  · rw [if_pos (by omega)]
    exact (Traced.all_pure _).2 trivial
  rw [if_neg (by omega), Traced.all_bind, Traced.all_bind, Traced.all_getBE]
  refine ⟨tagBlockT_in hlo (by omega), ⟨by show lo ≤ tag + _; omega, ?_⟩, ?_⟩
  · show tag + (jbdTagLayout sb).flagsAt + (jbdTagLayout sb).flagsLen ≤ hi
    omega
  · generalize (Traced.getBE () b (tag + (jbdTagLayout sb).flagsAt) (jbdTagLayout sb).flagsLen).val =
      flags
    split_ifs with hsame hroom
    · exact (Traced.all_pure _).2 trivial
    · exact (Traced.all_pure _).2 trivial
    · rw [Traced.all_bind, Traced.all_read]
      refine ⟨⟨by show lo ≤ tag + _; omega, ?_⟩, (Traced.all_pure _).2 trivial⟩
      show tag + jbdTagBytes sb + uuidSize ≤ hi
      omega

/-- **The tags of a descriptor block are read from its tag area.** -/
theorem iterateTagsT_in {lo hi : ℕ} : ∀ {fuel tagPtr n : ℕ}, lo ≤ tagPtr → tagPtr + n ≤ hi →
    (jbdIterateTagsT sb b fuel tagPtr n).All (Access.In lo hi)
  | 0, _, _, _, _ => (Traced.all_pure _).2 trivial
  | fuel + 1, tagPtr, n, hlo, hhi => by
    unfold jbdIterateTagsT
    by_cases hn : n = 0
    · rw [if_pos (by omega)]
      exact (Traced.all_pure _).2 trivial
    rw [if_neg (by omega), Traced.all_bind, extractBlockTagT_val]
    refine ⟨extractBlockTagT_in hlo hhi, ?_⟩
    rcases ht : jbdExtractBlockTag sb b tagPtr n with - | t
    · exact (Traced.all_pure _).2 trivial
    · have hle := (extractBlockTag_le ht).2
      simp only
      by_cases hlast : t.lastTag = true
      · rw [if_pos hlast]
        exact (Traced.all_pure _).2 trivial
      · rw [if_neg hlast, Traced.all_bind, ← Int.ofNat_sub hle]
        exact ⟨iterateTagsT_in (by omega) (by omega), (Traced.all_pure _).2 trivial⟩

/-- The numbers of a revoke block are read one behind the other. -/
theorem revokeLoopT_all {P : Access Unit → Prop} {lo hi : ℕ}
    (hP : ∀ off, lo ≤ off → (P ⟨(), off, jbdRecordLen sb⟩ ↔ off + jbdRecordLen sb ≤ hi)) :
    ∀ {n blocksEntry : ℕ}, lo ≤ blocksEntry → ((jbdRevokeLoopT sb b n blocksEntry).All P ↔
      n = 0 ∨ blocksEntry + n * jbdRecordLen sb ≤ hi)
  | 0, _, _ => iff_of_true ((Traced.all_pure _).2 trivial) (.inl rfl)
  | n + 1, blocksEntry, hlo => by
    unfold jbdRevokeLoopT
    rw [Traced.all_bind, Traced.all_bind, Traced.all_getBE, revokeLoopT_all hP (by omega), hP _ hlo,
      Nat.succ_mul]
    simp only [Traced.all_pure, and_true, Nat.add_eq_zero_iff, Nat.one_ne_zero, and_false, false_or]
    constructor
    · rintro ⟨h, rfl | h'⟩
      · omega
      · omega
    · intro h
      exact ⟨by omega, by omega⟩

/-! ## Reading a block -/

/-- **Reading block `b` stays in bounds**: as a descriptor block all bytes read
    lie in the tag area, as a revoke block they are the count of bytes or lie
    in the record area. -/
structure ParsesInside (sb : JbdSb) (b : Mem) : Prop where
  tags : (jbdIterateBlockTableT sb b).All (Access.In jbdBhdrSize (sb.blocksize - jbdTailSize sb))
  records : (jbdRevokeEntriesT sb b).All fun a => a = ⟨(), jbdBhdrSize, 4⟩ ∨
    a.In jbdRevokeHeaderSize (sb.blocksize - jbdTailSize sb)

/-- `nr_entries`: counts below the size of the header wrap. -/
theorem nrEntries_cases {count len : ℕ} (h : count < 2 ^ 32) (hlen : 0 < len) (h8 : len ≤ 8) :
    jbdRevokeHeaderSize ≤ count ∧
      sub32 count jbdRevokeHeaderSize / len = (count - jbdRevokeHeaderSize) / len ∨
    count < jbdRevokeHeaderSize ∧ 2 ^ 31 ≤ sub32 count jbdRevokeHeaderSize / len * len := by
  rcases Nat.lt_or_ge count jbdRevokeHeaderSize with hlt | hge
  · refine .inr ⟨hlt, ?_⟩
    have hval : sub32 count jbdRevokeHeaderSize = count + (2 ^ 32 - 16) := by
      unfold sub32 jbdRevokeHeaderSize
      unfold jbdRevokeHeaderSize at hlt
      exact Nat.mod_eq_of_lt (by omega)
    have hdiv := Nat.div_add_mod (sub32 count jbdRevokeHeaderSize) len
    have hmod := Nat.mod_lt (sub32 count jbdRevokeHeaderSize) hlen
    rw [Nat.mul_comm] at hdiv
    omega
  · exact .inl ⟨hge, by rw [sub32_of_le hge h]⟩

/-- The count of bytes is read from the header, the numbers from behind it. -/
theorem revokeLoopT_count_all (n : ℕ → ℕ) {hi : ℕ} (h16 : jbdRevokeHeaderSize ≤ hi) :
    ((Traced.getBE () b jbdBhdrSize 4 >>= fun count =>
      jbdRevokeLoopT sb b (n count) jbdRevokeHeaderSize).All fun a =>
        a = ⟨(), jbdBhdrSize, 4⟩ ∨ a.In jbdRevokeHeaderSize hi) ↔
      jbdRevokeHeaderSize + n (getBE b jbdBhdrSize 4) * jbdRecordLen sb ≤ hi := by
  have hP (off : ℕ) (hoff : jbdRevokeHeaderSize ≤ off) :
      ((⟨(), off, jbdRecordLen sb⟩ : Access Unit) = ⟨(), jbdBhdrSize, 4⟩ ∨
        Access.In jbdRevokeHeaderSize hi ⟨(), off, jbdRecordLen sb⟩) ↔
      off + jbdRecordLen sb ≤ hi := by
    constructor
    · rintro (h | h)
      · rw [Access.mk.injEq] at h
        rw [h.2.1] at hoff
        exact absurd hoff (by decide)
      · exact h.2
    · exact fun h => .inr ⟨hoff, h⟩
  rw [Traced.all_bind, Traced.all_getBE, Traced.getBE_val, revokeLoopT_all hP le_rfl]
  constructor
  · rintro ⟨-, h | h⟩
    · rw [h]
      omega
    · exact h
  · exact fun h => ⟨.inl rfl, .inr h⟩

/-- **Log block parsing stays in bounds** iff the count of bytes of a revoke
    block is no smaller than its header and the numbers there are by it end
    before the tail. -/
theorem parsesInside_iff (h1 : 1024 ≤ sb.blocksize) (h2 : sb.blocksize < 2 ^ 31) :
    ParsesInside sb b ↔
      let count := getBE b jbdBhdrSize 4
      jbdRevokeHeaderSize ≤ count ∧ jbdRevokeHeaderSize +
        (count - jbdRevokeHeaderSize) / jbdRecordLen sb * jbdRecordLen sb ≤
          sb.blocksize - jbdTailSize sb := by
  have htail : jbdTailSize sb ≤ 4 := by
    unfold jbdTailSize jbdBlockTailSize
    split_ifs <;> omega
  have hlen8 : jbdRecordLen sb ≤ 8 := by
    unfold jbdRecordLen
    split_ifs <;> omega
  have htags : (jbdIterateBlockTableT sb b).All
      (Access.In jbdBhdrSize (sb.blocksize - jbdTailSize sb)) := by
    unfold jbdIterateBlockTableT
    rw [tagTblSize_eq (by omega) h2]
    refine iterateTagsT_in le_rfl ?_
    unfold jbdTagArea jbdBhdrSize
    omega
  have hall := @revokeLoopT_count_all sb b (fun count =>
    sub32 count jbdRevokeHeaderSize / jbdRecordLen sb) _
      (show jbdRevokeHeaderSize ≤ sb.blocksize - jbdTailSize sb by unfold jbdRevokeHeaderSize; omega)
  rw [← revokeEntriesT_eq] at hall
  have hcount : getBE b jbdBhdrSize 4 < 2 ^ 32 := getBE_lt b jbdBhdrSize 4
  have hcases := nrEntries_cases hcount (@recordLen_pos sb) hlen8
  simp only
  constructor
  · rintro ⟨-, hrec⟩
    have hend := hall.1 hrec
    rcases hcases with ⟨hge, heq⟩ | ⟨-, hbig⟩
    · rw [heq] at hend
      exact ⟨hge, hend⟩
    · omega
  · rintro ⟨hge, hend⟩
    refine ⟨htags, hall.2 ?_⟩
    rcases hcases with ⟨-, heq⟩ | ⟨hlt, -⟩
    · rw [heq]
      exact hend
    · omega

/-- A journal without checksums and with four-byte block numbers. -/
def plainSb : JbdSb where
  blocksize := 1024
  is64 := false
  csumV2 := false
  csumV3 := false
  uuid := Vector.replicate 16 0

/-- A block with a count of bytes. -/
def countBlock (count : ℕ) : Mem := putBE (fun _ => 0) jbdBhdrSize 4 count

/-- A revoke block with two numbers. -/
theorem two_numbers_inside : ParsesInside plainSb (countBlock 24) :=
  (parsesInside_iff (by decide) (by decide)).2 (by decide)

/-- A count of 2000 bytes in a block of 1024. -/
theorem count_overrun : ¬ (jbdRevokeEntriesT plainSb (countBlock 2000)).All
    fun a => a.off + a.len ≤ plainSb.blocksize := by
  decide +kernel

end Spec

end Lwext4
