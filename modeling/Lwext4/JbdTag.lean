/-
  The tags of a descriptor block: `jbd_write_block_tag`,
  `jbd_extract_block_tag` and `jbd_iterate_block_table`.

  A tag is written over a fixed header (`TagLayout`) whose flags all lie in the
  byte at offset 7 (`tagFlag_eq`).  What the writer leaves behind is
  `writeBlockTag_spec`, what the reader makes of it `extractBlockTag_spec`.
-/
import Lwext4.Jbd

namespace Lwext4

open Lib

/-! ## Tags -/

/-- `JBD_FLAG_ESCAPE`. -/
def jbdFlagEscape : ℕ := 1

/-- `JBD_FLAG_SAME_UUID`. -/
def jbdFlagSameUuid : ℕ := 2

/-- `JBD_FLAG_LAST_TAG`. -/
def jbdFlagLastTag : ℕ := 8

/-- `UUID_SIZE`. -/
def uuidSize : ℕ := 16

/-- `jbd_tag_bytes`: the size of a tag without the UUID. -/
def jbdTagBytes (sb : JbdSb) : ℕ :=
  if sb.csumV3 then 16
  else
    let size := if sb.csumV2 then 12 + 2 else 12
    if sb.is64 then size else size - 4

/-- The structure a tag is accessed through: its size, and the place and width
    of its flags. -/
structure TagLayout where
  size : ℕ
  flagsAt : ℕ
  flagsLen : ℕ

/-- `struct jbd_block_tag3` with `CSUM_V3`, else `struct jbd_block_tag`. -/
def jbdTagLayout (sb : JbdSb) : TagLayout :=
  if sb.csumV3 then ⟨16, 4, 4⟩ else ⟨12, 6, 2⟩

/-- `struct tag_info` as it is passed to the writer. -/
structure TagInfo where
  block : ℕ
  isEscape : Bool
  uuidExist : Bool
  lastTag : Bool
  checksum : ℕ

/-- `struct tag_info` as the reader fills it. -/
structure TagRead where
  tagBytes : ℕ
  block : ℕ
  isEscape : Bool
  uuid : Option (List Byte)
  lastTag : Bool

section Tag

variable (sb : JbdSb)

/-- `tag->flags & flag`. -/
def jbdTagFlag (b : Mem) (tag flag : ℕ) : Bool :=
  getBE b (tag + (jbdTagLayout sb).flagsAt) (jbdTagLayout sb).flagsLen &&& flag != 0

/-- `tag->flags |= flag`. -/
def jbdTagSetFlag (b : Mem) (tag flag : ℕ) : Mem :=
  putBE b (tag + (jbdTagLayout sb).flagsAt) (jbdTagLayout sb).flagsLen
    (getBE b (tag + (jbdTagLayout sb).flagsAt) (jbdTagLayout sb).flagsLen ||| flag)

/-- `jbd_block_tag_csum_set`: `(uint16_t)to_be32(checksum)` keeps the two high
    bytes of the checksum. -/
def jbdBlockTagCsumSet (b : Mem) (tag checksum : ℕ) : Mem :=
  if jbdHasCsum sb = 0 then b
  else if jbdHasCsum sb = 2 then putBE b (tag + 4) 2 (checksum / 2 ^ 16)
  else putBE b (tag + 12) 4 checksum

/-- The stores of the block number into a cleared tag. -/
def jbdTagSetBlock (b : Mem) (tag block : ℕ) : Mem :=
  let b := b.write tag (List.replicate (jbdTagLayout sb).size 0)
  let b := putBE b tag 4 block
  if sb.is64 then putBE b (tag + 8) 4 (block / 2 ^ 32) else b

/-- `jbd_write_block_tag`: the block and the size of the tag, or nothing when
    the tag does not fit (`EINVAL`). -/
def jbdWriteBlockTag (b : Mem) (tag remainBufSize : ℕ) (info : TagInfo) : Option (Mem × ℕ) :=
  let tagBytes := jbdTagBytes sb
  if remainBufSize < tagBytes then none
  else if info.uuidExist && decide (remainBufSize - tagBytes < uuidSize) then none
  else
    let b := jbdTagSetBlock sb b tag info.block
    let b :=
      if info.uuidExist then b.write (tag + tagBytes) sb.uuid.toList
      else jbdTagSetFlag sb b tag jbdFlagSameUuid
    let b := jbdBlockTagCsumSet sb b tag info.checksum
    let b := if info.lastTag then jbdTagSetFlag sb b tag jbdFlagLastTag else b
    let b := if info.isEscape then jbdTagSetFlag sb b tag jbdFlagEscape else b
    some (b, if info.uuidExist then tagBytes + uuidSize else tagBytes)

/-- `jbd_extract_block_tag`. -/
def jbdExtractBlockTag (b : Mem) (tag remainBufSize : ℕ) : Option TagRead :=
  let tagBytes := jbdTagBytes sb
  if remainBufSize < tagBytes then none
  else
    let same := jbdTagFlag sb b tag jbdFlagSameUuid
    if !same && decide (remainBufSize - tagBytes < uuidSize) then none
    else some {
      tagBytes := if same then tagBytes else tagBytes + uuidSize
      block := getBE b tag 4 + if sb.is64 then getBE b (tag + 8) 4 * 2 ^ 32 else 0
      isEscape := jbdTagFlag sb b tag jbdFlagEscape
      uuid := if same then none else some (b.read (tag + tagBytes) uuidSize)
      lastTag := jbdTagFlag sb b tag jbdFlagLastTag }

/-- The loop of `jbd_iterate_block_table`; a tag takes room, so `fuel` is
    never short when it starts as the room. -/
def jbdIterateTags (b : Mem) : (fuel tagPtr tagTblSize : ℕ) → List TagRead
  | 0, _, _ => []
  | fuel + 1, tagPtr, tagTblSize =>
    if tagTblSize = 0 then []
    else match jbdExtractBlockTag sb b tagPtr tagTblSize with
      | none => []
      | some t =>
        if t.lastTag then [t]
        else t :: jbdIterateTags b fuel (tagPtr + t.tagBytes) (tagTblSize - t.tagBytes)

/-- The room for tags in a descriptor block. -/
def jbdTagArea : ℕ := sb.blocksize - jbdBhdrSize - jbdTailSize sb

/-- `jbd_iterate_block_table` on a descriptor block. -/
def jbdIterateBlockTable (b : Mem) : List TagRead :=
  jbdIterateTags sb b (jbdTagArea sb) jbdBhdrSize (jbdTagArea sb)

end Tag

/-! ## What a tag holds -/

/-- The flags the writer gives a tag. -/
def TagInfo.flags (info : TagInfo) : Byte :=
  (if info.uuidExist then 0 else 2) ||| (if info.lastTag then 8 else 0) |||
    (if info.isEscape then 1 else 0)

/-- The size of a tag with what is stored in it. -/
def TagInfo.bytes (sb : JbdSb) (info : TagInfo) : ℕ :=
  if info.uuidExist then jbdTagBytes sb + uuidSize else jbdTagBytes sb

section Spec

variable {sb : JbdSb} {b b' : Mem} {tag block remain flag : ℕ} {flags : Byte}

theorem tagBytes_cases (sb : JbdSb) :
    (sb.csumV3 = true ∧ jbdTagBytes sb = 16 ∧ jbdTagLayout sb = ⟨16, 4, 4⟩) ∨
    (sb.csumV3 = false ∧ 8 ≤ jbdTagBytes sb ∧ jbdTagBytes sb ≤ 14 ∧
      (sb.is64 = true → 12 ≤ jbdTagBytes sb) ∧ jbdTagLayout sb = ⟨12, 6, 2⟩) := by
  unfold jbdTagBytes jbdTagLayout
  cases sb.csumV3 <;> cases sb.csumV2 <;> cases sb.is64 <;> simp

theorem tagBytes_bounds (sb : JbdSb) : 8 ≤ jbdTagBytes sb ∧ jbdTagBytes sb ≤ 16 ∧
    (sb.is64 = true → 12 ≤ jbdTagBytes sb) := by
  rcases tagBytes_cases sb with ⟨-, h, -⟩ | ⟨-, h1, h2, h3, -⟩
  · omega
  · exact ⟨h1, by omega, h3⟩

theorem and_eq_and_mod (x : ℕ) {c : ℕ} (h : c < 256) : x &&& c = (x % 256) &&& c := by
  have hx : x &&& 255 = x % 256 := Nat.and_two_pow_sub_one_eq_mod x 8
  have hc : c &&& 255 = c := (Nat.and_two_pow_sub_one_eq_mod c 8).trans (Nat.mod_eq_of_lt h)
  calc x &&& c = x &&& (255 &&& c) := by rw [Nat.and_comm 255, hc]
    _ = (x % 256) &&& c := by rw [← Nat.and_assoc, hx]

/-- The flags of a tag are in its byte 7, whatever the layout. -/
theorem tagFlag_eq (hflag : flag < 256) :
    jbdTagFlag sb b tag flag = ((b (tag + 7)).toNat &&& flag != 0) := by
  rw [jbdTagFlag]
  rcases tagBytes_cases sb with ⟨-, -, h⟩ | ⟨-, -, -, -, h⟩
  · rw [h, and_eq_and_mod _ hflag, getBE_mod b (tag + 4) 3]
  · rw [h, and_eq_and_mod _ hflag, getBE_mod b (tag + 6) 1]

theorem tagSetFlag_flags : jbdTagSetFlag sb b tag flag (tag + 7) =
    b (tag + 7) ||| BitVec.ofNat 8 flag := by
  have hlow (x : ℕ) (h : x % 256 = (b (tag + 7)).toNat) : BitVec.ofNat 8 x = b (tag + 7) :=
    BitVec.eq_of_toNat_eq ((BitVec.toNat_ofNat ..).trans h)
  rw [jbdTagSetFlag]
  rcases tagBytes_cases sb with ⟨-, -, h⟩ | ⟨-, -, -, -, h⟩
  · rw [h, show tag + 7 = tag + 4 + 3 by rfl, putBE_last, BitVec.ofNat_or,
      hlow _ (getBE_mod b (tag + 4) 3)]
  · rw [h, show tag + 7 = tag + 6 + 1 by rfl, putBE_last, BitVec.ofNat_or,
      hlow _ (getBE_mod b (tag + 6) 1)]

theorem tagSetFlag_frame {i : ℕ} (h : i < tag + 4 ∨ tag + 8 ≤ i) :
    jbdTagSetFlag sb b tag flag i = b i := by
  rw [jbdTagSetFlag]
  rcases tagBytes_cases sb with ⟨-, -, hl⟩ | ⟨-, -, -, -, hl⟩
  all_goals
    rw [hl]
    rcases h with h | h
    · exact putBE_of_lt (by simp only; omega)
    · exact putBE_of_ge (by simp only; omega)

/-- The checksum of a tag lies beside its flags and its block number. -/
theorem blockTagCsumSet_frame {i checksum : ℕ}
    (h : i < tag + 4 ∨ tag + 6 ≤ i ∧ i < tag + 12 ∨ tag + jbdTagBytes sb ≤ i) :
    jbdBlockTagCsumSet sb b tag checksum i = b i := by
  have hbounds := tagBytes_bounds sb
  rw [jbdBlockTagCsumSet, jbdHasCsum]
  by_cases hv2 : sb.csumV2 = true
  · rw [if_pos hv2, if_neg (by decide), if_pos rfl]
    rcases h with h | h | h
    · exact putBE_of_lt h
    · exact putBE_of_ge (by omega)
    · exact putBE_of_ge (by omega)
  · rw [if_neg hv2]
    rcases tagBytes_cases sb with ⟨hv3, ht, -⟩ | ⟨hv3, -⟩
    · rw [if_pos hv3, if_neg (by decide), if_neg (by decide)]
      rcases h with h | h | h
      · exact putBE_of_lt (by omega)
      · exact putBE_of_lt (by omega)
      · exact putBE_of_ge (by omega)
    · rw [hv3, if_neg Bool.false_ne_true, if_pos rfl]

/-- A tag holds a block number and flags. -/
structure TagHolds (sb : JbdSb) (b : Mem) (tag block : ℕ) (flags : Byte) : Prop where
  low : getBE b tag 4 = block % 2 ^ 32
  high : sb.is64 = true → getBE b (tag + 8) 4 = block / 2 ^ 32 % 2 ^ 32
  flag : b (tag + 7) = flags

theorem TagHolds.congr (h : TagHolds sb b tag block flags)
    (heq : ∀ i, tag ≤ i → i < tag + jbdTagBytes sb → b' i = b i) :
    TagHolds sb b' tag block flags := by
  have hbounds := tagBytes_bounds sb
  refine ⟨?_, fun h64 => ?_, ?_⟩
  · rw [← h.low]
    exact getBE_congr fun i h1 h2 => heq i h1 (by omega)
  · rw [← h.high h64]
    have := hbounds.2.2 h64
    exact getBE_congr fun i h1 h2 => heq i (by omega) (by omega)
  · rw [← h.flag]
    exact heq _ (by omega) (by omega)

theorem TagHolds.setFlag (h : TagHolds sb b tag block flags) (flag : ℕ) :
    TagHolds sb (jbdTagSetFlag sb b tag flag) tag block (flags ||| BitVec.ofNat 8 flag) where
  low := by
    rw [← h.low]
    exact getBE_congr fun i _ h2 => tagSetFlag_frame (.inl h2)
  high h64 := by
    rw [← h.high h64]
    exact getBE_congr fun i h1 _ => tagSetFlag_frame (.inr h1)
  flag := by rw [tagSetFlag_flags, h.flag]

theorem TagHolds.csumSet (h : TagHolds sb b tag block flags) (checksum : ℕ) :
    TagHolds sb (jbdBlockTagCsumSet sb b tag checksum) tag block flags where
  low := by
    rw [← h.low]
    exact getBE_congr fun i _ h2 => blockTagCsumSet_frame (.inl h2)
  high h64 := by
    rw [← h.high h64]
    exact getBE_congr fun i h1 h2 => blockTagCsumSet_frame (.inr (.inl ⟨by omega, by omega⟩))
  flag := by rw [blockTagCsumSet_frame (.inr (.inl ⟨by omega, by omega⟩)), h.flag]

theorem tagSetBlock_frame {i : ℕ} (h : i < tag ∨ tag + (jbdTagLayout sb).size ≤ i) :
    jbdTagSetBlock sb b tag block i = b i := by
  have hsize : 12 ≤ (jbdTagLayout sb).size := by
    rcases tagBytes_cases sb with ⟨-, -, hl⟩ | ⟨-, -, -, -, hl⟩ <;> rw [hl]
    decide
  have hclear : b.write tag (List.replicate (jbdTagLayout sb).size 0) i = b i := by
    rcases h with h | h
    · exact Mem.write_of_lt _ h
    · exact Mem.write_of_ge (by rwa [List.length_replicate])
  rw [jbdTagSetBlock]
  split_ifs
  · rcases h with h | h
    · rw [putBE_of_lt (by omega), putBE_of_lt (by omega), hclear]
    · rw [putBE_of_ge (by omega), putBE_of_ge (by omega), hclear]
  · rcases h with h | h
    · rw [putBE_of_lt (by omega), hclear]
    · rw [putBE_of_ge (by omega), hclear]

/-- What a tag has besides the block number is cleared. -/
theorem tagSetBlock_clear {i : ℕ} (h1 : tag ≤ i) (h2 : i < tag + (jbdTagLayout sb).size)
    (h : tag + 4 ≤ i ∧ i < tag + 8 ∨ tag + jbdTagBytes sb ≤ i) :
    jbdTagSetBlock sb b tag block i = 0 := by
  have hbounds := tagBytes_bounds sb
  have hclear : b.write tag (List.replicate (jbdTagLayout sb).size 0) i = 0 := by
    rw [Mem.write, if_pos h1, List.getElem?_replicate, if_pos (by omega), Option.getD_some]
  rw [jbdTagSetBlock]
  split_ifs with h64
  · have := hbounds.2.2 h64
    rcases h with h | h
    · rw [putBE_of_lt (by omega), putBE_of_ge (by omega), hclear]
    · rw [putBE_of_ge (by omega), putBE_of_ge (by omega), hclear]
  · rw [putBE_of_ge (by omega), hclear]

theorem tagSetBlock_holds : TagHolds sb (jbdTagSetBlock sb b tag block) tag block 0 where
  low := by
    rw [show 2 ^ 32 = 256 ^ 4 by rfl, jbdTagSetBlock]
    split_ifs
    · rw [getBE_putBE_of_disjoint (.inl (by omega)), getBE_putBE]
    · rw [getBE_putBE]
  high h64 := by rw [jbdTagSetBlock, if_pos h64, getBE_putBE, show 256 ^ 4 = 2 ^ 32 by rfl]
  flag := by
    rcases tagBytes_cases sb with ⟨-, -, hl⟩ | ⟨-, -, -, -, hl⟩
    all_goals exact tagSetBlock_clear (by omega) (by rw [hl]; simp) (.inl ⟨by omega, by omega⟩)

/-- What the writer has done to the block so far. -/
structure TagWritten (sb : JbdSb) (b b' : Mem) (tag : ℕ) (info : TagInfo) (flags : Byte) : Prop where
  holds : TagHolds sb b' tag info.block flags
  frame : ∀ i, i < tag ∨ tag + info.bytes sb ≤ i ∧ tag + (jbdTagLayout sb).size ≤ i → b' i = b i
  spill : info.uuidExist = false → ∀ i, tag + jbdTagBytes sb ≤ i →
    i < tag + (jbdTagLayout sb).size → b' i = 0

theorem TagInfo.le_bytes (info : TagInfo) : jbdTagBytes sb ≤ info.bytes sb := by
  unfold TagInfo.bytes
  split_ifs <;> omega

theorem TagWritten.setFlag {info : TagInfo} (h : TagWritten sb b b' tag info flags) (flag : ℕ) :
    TagWritten sb b (jbdTagSetFlag sb b' tag flag) tag info (flags ||| BitVec.ofNat 8 flag) where
  holds := h.holds.setFlag flag
  frame i hi := by
    have hbounds := tagBytes_bounds sb
    have hle := @TagInfo.le_bytes sb info
    rw [tagSetFlag_frame (by omega), h.frame i hi]
  spill hu i h1 h2 := by
    have hbounds := tagBytes_bounds sb
    rw [tagSetFlag_frame (by omega), h.spill hu i h1 h2]

theorem TagWritten.setFlagIf {info : TagInfo} (h : TagWritten sb b b' tag info flags) (c : Bool)
    (flag : ℕ) : TagWritten sb b (if c then jbdTagSetFlag sb b' tag flag else b') tag info
      (flags ||| if c then BitVec.ofNat 8 flag else 0) := by
  cases c with
  | false =>
    have hor : flags ||| (0 : Byte) = flags := BitVec.or_zero
    simpa [hor] using h
  | true => simpa using h.setFlag flag

theorem TagWritten.csumSet {info : TagInfo} (h : TagWritten sb b b' tag info flags) :
    TagWritten sb b (jbdBlockTagCsumSet sb b' tag info.checksum) tag info flags where
  holds := h.holds.csumSet info.checksum
  frame i hi := by
    have hle := @TagInfo.le_bytes sb info
    rw [blockTagCsumSet_frame (by omega), h.frame i hi]
  spill hu i h1 h2 := by rw [blockTagCsumSet_frame (by omega), h.spill hu i h1 h2]

/-- The block number, and the UUID or the flag that says there is none. -/
theorem tagWritten_start (sb : JbdSb) (b : Mem) (tag : ℕ) (info : TagInfo) :
    TagWritten sb b
      (if info.uuidExist then
        (jbdTagSetBlock sb b tag info.block).write (tag + jbdTagBytes sb) sb.uuid.toList
      else jbdTagSetFlag sb (jbdTagSetBlock sb b tag info.block) tag jbdFlagSameUuid)
      tag info (if info.uuidExist then 0 else 2) := by
  have hbounds := tagBytes_bounds sb
  have hlen : sb.uuid.toList.length = uuidSize := Vector.length_toList
  cases hu : info.uuidExist with
  | true =>
    have hbytes : info.bytes sb = jbdTagBytes sb + uuidSize := by rw [TagInfo.bytes, hu, if_pos rfl]
    refine ⟨?_, fun i hi => ?_, fun h => absurd (hu.symm.trans h) (by decide)⟩
    · exact tagSetBlock_holds.congr fun i _ h2 => Mem.write_of_lt _ h2
    · rw [if_pos rfl]
      rcases hi with hi | ⟨h1, h2⟩
      · rw [Mem.write_of_lt _ (by omega), tagSetBlock_frame (.inl hi)]
      · rw [Mem.write_of_ge (by omega), tagSetBlock_frame (.inr h2)]
  | false =>
    have hbytes : info.bytes sb = jbdTagBytes sb := by
      rw [TagInfo.bytes, hu, if_neg Bool.false_ne_true]
    refine ⟨?_, fun i hi => ?_, fun _ i h1 h2 => ?_⟩
    · exact tagSetBlock_holds.setFlag jbdFlagSameUuid
    · rw [if_neg Bool.false_ne_true, tagSetFlag_frame (by omega), tagSetBlock_frame (by omega)]
    · rw [if_neg Bool.false_ne_true, tagSetFlag_frame (by omega),
        tagSetBlock_clear (by omega) h2 (.inr h1)]

/-- **The writer of a tag.** -/
theorem writeBlockTag_spec {info : TagInfo} (hroom : info.bytes sb ≤ remain) :
    ∃ b', jbdWriteBlockTag sb b tag remain info = some (b', info.bytes sb) ∧
      TagWritten sb b b' tag info info.flags := by
  have hbounds := tagBytes_bounds sb
  have hfit : ¬ (info.uuidExist && decide (remain - jbdTagBytes sb < uuidSize)) = true := by
    unfold TagInfo.bytes at hroom
    cases hu : info.uuidExist with
    | false => simp
    | true =>
      rw [hu, if_pos rfl] at hroom
      simp only [Bool.true_and, decide_eq_true_eq]
      omega
  rw [jbdWriteBlockTag]
  simp only [if_neg (Nat.not_lt.2 (info.le_bytes.trans hroom)), if_neg hfit]
  refine ⟨_, rfl, ?_⟩
  exact ((tagWritten_start sb b tag info).csumSet.setFlagIf info.lastTag jbdFlagLastTag).setFlagIf
    info.isEscape jbdFlagEscape

/-- A tag that does not fit. -/
theorem writeBlockTag_none {info : TagInfo}
    (hroom : remain < jbdTagBytes sb) : jbdWriteBlockTag sb b tag remain info = none := by
  rw [jbdWriteBlockTag]
  exact if_pos hroom

/-- What the reader makes of a tag: the block number, cut to 32 bits unless the
    journal has 64-bit numbers, and the flags. -/
def TagInfo.Read (sb : JbdSb) (info : TagInfo) (t : TagRead) : Prop :=
  t.tagBytes = info.bytes sb ∧ t.block = info.block % (if sb.is64 then 2 ^ 64 else 2 ^ 32) ∧
    t.isEscape = info.isEscape ∧ t.lastTag = info.lastTag

theorem TagHolds.flag_eq {info : TagInfo} (h : TagHolds sb b tag info.block info.flags) :
    jbdTagFlag sb b tag jbdFlagSameUuid = !info.uuidExist ∧
    jbdTagFlag sb b tag jbdFlagEscape = info.isEscape ∧
    jbdTagFlag sb b tag jbdFlagLastTag = info.lastTag := by
  rw [tagFlag_eq (by decide), tagFlag_eq (by decide), tagFlag_eq (by decide), h.flag,
    TagInfo.flags]
  cases info.uuidExist <;> cases info.isEscape <;> cases info.lastTag <;> decide

theorem TagHolds.block_eq (h : TagHolds sb b tag block flags) :
    (getBE b tag 4 + if sb.is64 then getBE b (tag + 8) 4 * 2 ^ 32 else 0) =
      block % (if sb.is64 then 2 ^ 64 else 2 ^ 32) := by
  rw [h.low]
  split_ifs with h64
  · rw [h.high h64, Nat.mul_comm, ← Nat.mod_mul, ← Nat.pow_add]
  · rw [Nat.add_zero]

/-- **The reader of a tag.** -/
theorem extractBlockTag_spec {info : TagInfo} (h : TagHolds sb b tag info.block info.flags)
    (hroom : info.bytes sb ≤ remain) :
    ∃ t, jbdExtractBlockTag sb b tag remain = some t ∧ info.Read sb t := by
  obtain ⟨hsame, hesc, hlast⟩ := h.flag_eq
  have hfit : ¬ (!(!info.uuidExist) && decide (remain - jbdTagBytes sb < uuidSize)) = true := by
    unfold TagInfo.bytes at hroom
    cases hu : info.uuidExist with
    | false => simp
    | true =>
      rw [hu, if_pos rfl] at hroom
      simp only [Bool.not_not, Bool.true_and, decide_eq_true_eq]
      omega
  rw [jbdExtractBlockTag]
  simp only [hsame, hesc, hlast, h.block_eq, if_neg (Nat.not_lt.2 (info.le_bytes.trans hroom)),
    if_neg hfit]
  refine ⟨_, rfl, ?_, rfl, rfl, rfl⟩
  rw [TagInfo.bytes]
  cases info.uuidExist <;> rfl

/-- There is no tag where there is no room for one. -/
theorem extractBlockTag_none (hroom : remain < jbdTagBytes sb) :
    jbdExtractBlockTag sb b tag remain = none := by
  rw [jbdExtractBlockTag]
  exact if_pos hroom

end Spec

end Lwext4
