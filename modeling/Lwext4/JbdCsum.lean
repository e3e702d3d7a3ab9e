/-
  The checksums of the journal (`ext4_journal.c`), on hosts of either byte
  order.

  A field of type `uint32_t` is loaded and stored in the byte order of the
  host, and `to_be32` turns it round where that is not big-endian.  Setters and
  verifiers agree on the bytes they cover and on the seed (`metaCsum_covered`
  and the like).  The setter of the commit block stores its checksum without
  `to_be32`, so on a little-endian host the block is accepted only if the
  checksum reads the same both ways (`checksums_roundTrip_iff`).
-/
import Lwext4.Crc32
import Lwext4.JbdDescriptor
import Lwext4.JbdRevoke

namespace Lwext4

open Lib

/-! ## Byte order -/

/-- The byte order of the host, `CONFIG_BIG_ENDIAN` or not. -/
inductive Endian where
  | little
  | big
  deriving DecidableEq

/-- `reorder32`. -/
def reorder32 (n : ℕ) : ℕ :=
  (n &&& 0xff) <<< 24 ||| (n &&& 0xff00) <<< 8 ||| (n &&& 0xff0000) >>> 8 |||
    (n &&& 0xff000000) >>> 24

namespace Endian

/-- Load a `uint32_t`. -/
def load (e : Endian) (m : Mem) (a : ℕ) : ℕ :=
  match e with
  | little => getLE m a 4
  | big => getBE m a 4

/-- Store a `uint32_t`. -/
def store (e : Endian) (m : Mem) (a v : ℕ) : Mem :=
  match e with
  | little => putLE m a 4 v
  | big => putBE m a 4 v

/-- `to_be32`. -/
def toBe32 (e : Endian) (n : ℕ) : ℕ :=
  match e with
  | little => reorder32 n
  | big => n

end Endian

/-- `jbd_get32`. -/
def jbdGet32 (e : Endian) (m : Mem) (a : ℕ) : ℕ := e.toBe32 (e.load m a)

/-- `jbd_set32`. -/
def jbdSet32 (e : Endian) (m : Mem) (a v : ℕ) : Mem := e.store m a (e.toBe32 v)

/-! ## The journal superblock -/

/-- `JBD_HAS_INCOMPAT_FEATURE` on a superblock. -/
def jbdHasIncompatFeature (e : Endian) (s : Mem) (mask : ℕ) : Bool :=
  decide (e.toBe32 2 ≤ e.load s 4) && (e.load s 40 &&& e.toBe32 mask != 0)

/-- What the codecs read of a superblock. -/
def jbdSbOf (e : Endian) (s : Mem) : JbdSb where
  blocksize := jbdGet32 e s 12
  is64 := jbdHasIncompatFeature e s 2
  csumV2 := jbdHasIncompatFeature e s 8
  csumV3 := jbdHasIncompatFeature e s 16
  uuid := Vector.ofFn fun i => s (48 + i)

section Csum

variable (e : Endian) (s : Mem)

/-- `jbd_sb_csum`. -/
def jbdSbCsum : ℕ :=
  if jbdHasCsum (jbdSbOf e s) = 0 then 0
  else ext4Crc32c ext4Crc32Init ((jbdSet32 e s 252 0).read 0 1024)

/-- `jbd_sb_csum_set`. -/
def jbdSbCsumSet : Mem :=
  if jbdHasCsum (jbdSbOf e s) = 0 then s else jbdSet32 e s 252 (jbdSbCsum e s)

/-- `jbd_verify_sb_csum`. -/
def jbdVerifySbCsum : Bool :=
  if jbdHasCsum (jbdSbOf e s) = 0 then true else jbdSbCsum e s == jbdGet32 e s 252

/-- `jbd_verify_sb`. -/
def jbdVerifySb : Bool :=
  if jbdGet32 e s 0 ≠ jbdMagicNumber then false
  else if jbdGet32 e s 4 ≠ 3 ∧ jbdGet32 e s 4 ≠ 4 then false
  else jbdVerifySbCsum e s

/-! ## The blocks of the log -/

/-- The checksum of the UUID. -/
def jbdUuidCsum : ℕ := ext4Crc32c ext4Crc32Init (jbdSbOf e s).uuid.toList

/-- `jbd_meta_csum`. -/
def jbdMetaCsum (b : Mem) : ℕ :=
  if jbdHasCsum (jbdSbOf e s) = 0 then 0
  else
    let blockSize := (jbdSbOf e s).blocksize
    ext4Crc32c (jbdUuidCsum e s)
      ((e.store b (blockSize - jbdBlockTailSize) 0).read 0 blockSize)

/-- `jbd_verify_meta_csum`. -/
def jbdVerifyMetaCsum (b : Mem) : Bool :=
  if jbdHasCsum (jbdSbOf e s) = 0 then true
  else jbdMetaCsum e s b ==
    e.toBe32 (e.load b ((jbdSbOf e s).blocksize - jbdBlockTailSize))

/-- `chksum_type`, `chksum_size` and `chksum[0]` of a commit header set to 0. -/
def jbdCommitClear (b : Mem) : Mem := e.store ((b.write 12 [0]).write 13 [0]) 16 0

/-- `jbd_commit_csum`. -/
def jbdCommitCsum (b : Mem) : ℕ :=
  if jbdHasCsum (jbdSbOf e s) = 0 then 0
  else ext4Crc32c (jbdUuidCsum e s) ((jbdCommitClear e b).read 0 (jbdSbOf e s).blocksize)

/-- `jbd_commit_csum_set`. -/
def jbdCommitCsumSet (b : Mem) : Mem :=
  if jbdHasCsum (jbdSbOf e s) = 0 then b
  else
    let b := jbdCommitClear e b
    e.store b 16 (jbdCommitCsum e s b)

/-- `jbd_verify_commit_csum`. -/
def jbdVerifyCommitCsum (b : Mem) : Bool :=
  if jbdHasCsum (jbdSbOf e s) = 0 then true
  else e.load b 16 == e.toBe32 (jbdCommitCsum e s b)

/-- The header of the commit block of `jbd_trans_write_commit_block`, in a
    buffer that holds `stale`. -/
def jbdCommitHeader (transId : ℕ) (stale : Mem) : Mem := jbdSetBhdr stale jbdCommitBlock transId

/-- `jbd_trans_write_commit_block`: the block it writes.  The source takes the
    bit of `JBD_FEATURE_COMPAT_CHECKSUM` from the incompatible features. -/
def jbdTransWriteCommitBlock (transId dataCsum : ℕ) (stale : Mem) : Mem :=
  let b := jbdCommitHeader transId stale
  let b := if jbdHasIncompatFeature e s 1 then
    jbdSet32 e ((b.write 12 [1]).write 13 [4]) 16 dataCsum
  else b
  jbdCommitCsumSet e s b

end Csum

/-! ## Bytes turned round -/

theorem and_mask_shift (n k : ℕ) : n &&& (0xff * 2 ^ k) = n / 2 ^ k % 256 * 2 ^ k := by
  refine Nat.eq_of_testBit_eq fun i => ?_
  rw [Nat.testBit_and, Nat.testBit_mul_two_pow, Nat.testBit_mul_two_pow,
    show (255 : ℕ) = 2 ^ 8 - 1 from rfl, show (256 : ℕ) = 2 ^ 8 from rfl,
    Nat.testBit_two_pow_sub_one, Nat.testBit_mod_two_pow, Nat.testBit_div_two_pow]
  by_cases h : k ≤ i
  · simp [h, Nat.sub_add_cancel h, Bool.and_comm]
  · simp [h]

/-- `reorder32` turns the four bytes round. -/
theorem reorder32_eq (n : ℕ) : reorder32 n = beVal (leBytes 4 n) := by
  have h0 : n &&& 0xff = n % 256 := by simpa using and_mask_shift n 0
  have h1 : n &&& 0xff00 = n / 2 ^ 8 % 256 * 2 ^ 8 := and_mask_shift n 8
  have h2 : n &&& 0xff0000 = n / 2 ^ 16 % 256 * 2 ^ 16 := and_mask_shift n 16
  have h3 : n &&& 0xff000000 = n / 2 ^ 24 % 256 * 2 ^ 24 := and_mask_shift n 24
  have hval : beVal (leBytes 4 n) =
      2 ^ 24 * (n % 256) + (2 ^ 16 * (n / 2 ^ 8 % 256) +
        (2 ^ 8 * (n / 2 ^ 16 % 256) + n / 2 ^ 24 % 256)) := by
    simp only [beVal, leBytes, List.reverse_cons, List.reverse_nil, List.nil_append,
      List.cons_append, leVal, BitVec.toNat_ofNat, Nat.div_div_eq_div_mul, Nat.reducePow, Nat.reduceMul]
    omega
  have hb (k : ℕ) : n / k % 256 < 2 ^ 8 := Nat.mod_lt _ (by decide)
  have hb1 := hb (2 ^ 8)
  have hb2 := hb (2 ^ 16)
  have hb3 := hb (2 ^ 24)
  rw [hval, Nat.two_pow_add_eq_or_of_lt (by omega), Nat.two_pow_add_eq_or_of_lt (by omega),
    Nat.two_pow_add_eq_or_of_lt (by omega), reorder32, h0, h1, h2, h3]
  simp only [Nat.shiftLeft_eq, Nat.shiftRight_eq_div_pow, ← Nat.or_assoc]
  congr 1
  · congr 1
    · rw [Nat.mul_comm, Nat.mul_assoc, ← Nat.pow_add, Nat.mul_comm (n / 2 ^ 8 % 256)]
    · omega
  · omega

theorem leBytes_leVal (bs : List Byte) : leBytes bs.length (leVal bs) = bs := by
  induction bs with
  | nil => rfl
  | cons b bs ih =>
    have hb := b.isLt
    have hdiv : leVal (b :: bs) / 256 = leVal bs := by
      rw [leVal]
      omega
    rw [List.length_cons, leBytes, hdiv, ih]
    congr 1
    refine BitVec.eq_of_toNat_eq ?_
    rw [BitVec.toNat_ofNat, leVal]
    omega

theorem jbdGet32_eq (e : Endian) (m : Mem) (a : ℕ) : jbdGet32 e m a = getBE m a 4 := by
  cases e with
  | big => rfl
  | little =>
    rw [jbdGet32, Endian.load, Endian.toBe32, reorder32_eq, getLE, getBE]
    congr 1
    have h := leBytes_leVal (m.read a 4)
    rwa [Mem.length_read] at h

theorem jbdSet32_eq (e : Endian) (m : Mem) (a v : ℕ) : jbdSet32 e m a v = putBE m a 4 v := by
  cases e with
  | big => rfl
  | little =>
    rw [jbdSet32, Endian.store, Endian.toBe32, reorder32_eq, putLE, putBE]
    congr 1
    have h := leBytes_leVal (leBytes 4 v).reverse
    rwa [List.length_reverse, length_leBytes] at h

/-- The bytes of a field of `n` bytes at `a`. -/
def inField (a n i : ℕ) : Bool := decide (a ≤ i ∧ i < a + n)

namespace Endian

theorem load_store (e : Endian) (m : Mem) (a : ℕ) {v : ℕ} (hv : v < 2 ^ 32) :
    e.load (e.store m a v) a = v := by
  cases e with
  | little => exact (getLE_putLE m a 4 v).trans (Nat.mod_eq_of_lt hv)
  | big => exact (getBE_putBE m a 4 v).trans (Nat.mod_eq_of_lt hv)

theorem store_frame (e : Endian) (m : Mem) (a v : ℕ) {i : ℕ} (h : i < a ∨ a + 4 ≤ i) :
    e.store m a v i = m i := by
  cases e with
  | little => exact h.elim putLE_of_lt putLE_of_ge
  | big => exact h.elim putBE_of_lt putBE_of_ge

theorem load_congr (e : Endian) {m m' : Mem} {a : ℕ} (h : ∀ i, a ≤ i → i < a + 4 → m i = m' i) :
    e.load m a = e.load m' a := by
  cases e with
  | little => exact getLE_congr h
  | big => exact getBE_congr h

theorem store_zero (e : Endian) (m : Mem) (a : ℕ) :
    e.store m a 0 = fun i => if inField a 4 i then 0 else m i := by
  have hbytes : e.store m a 0 = m.write a [0, 0, 0, 0] := by
    cases e <;> rfl
  funext i
  by_cases hi : a ≤ i ∧ i < a + 4
  · rw [show inField a 4 i = true from decide_eq_true hi, if_pos rfl, hbytes]
    obtain rfl | rfl | rfl | rfl : i = a ∨ i = a + 1 ∨ i = a + 2 ∨ i = a + 3 := by omega
    all_goals simp [Mem.write]
  · rw [if_neg (by simpa [inField] using hi), e.store_frame m a 0 (by omega)]

end Endian

/-! ## What the checksums cover -/

/-- The first `n` bytes of a block, with the bytes of the fields `skip` taken
    as 0. -/
def covered (skip : ℕ → Bool) (n : ℕ) (b : Mem) : List Byte :=
  Mem.read (fun i => if skip i then 0 else b i) 0 n

theorem covered_congr {skip : ℕ → Bool} {b b' : Mem} (h : ∀ i, skip i = false → b i = b' i)
    (n : ℕ) : covered skip n b = covered skip n b' := by
  refine Mem.read_congr fun i _ _ => ?_
  cases hs : skip i with
  | true => rfl
  | false => simpa [hs] using h i hs

/-- `struct jbd_block_tail` of a block. -/
def tailField (blockSize : ℕ) : ℕ → Bool := inField (blockSize - jbdBlockTailSize) 4

/-- `chksum_type`, `chksum_size` and `chksum[0]` of `struct jbd_commit_header`. -/
def commitField (i : ℕ) : Bool := inField 12 2 i || inField 16 4 i

/-- `checksum` of `struct jbd_sb`. -/
def sbField : ℕ → Bool := inField 252 4

section Csum

variable {e : Endian} {s : Mem}

/-- The CRC of the UUID and of a block without the fields `skip`. -/
def blockCrc (e : Endian) (s : Mem) (skip : ℕ → Bool) (b : Mem) : ℕ :=
  let sb := jbdSbOf e s
  ext4Crc32c ext4Crc32Init (sb.uuid.toList ++ covered skip sb.blocksize b)

/-- The CRC of a journal superblock without its checksum. -/
def sbCrc (s : Mem) : ℕ := ext4Crc32c ext4Crc32Init (covered sbField 1024 s)

theorem blockCrc_lt (skip : ℕ → Bool) (b : Mem) : blockCrc e s skip b < 2 ^ 32 :=
  ext4Crc32c_lt (by decide) _

theorem blockCrc_congr {skip : ℕ → Bool} {b b' : Mem} (h : ∀ i, skip i = false → b i = b' i) :
    blockCrc e s skip b = blockCrc e s skip b' := by
  rw [blockCrc, blockCrc, covered_congr h]

theorem metaCsum_eq (h : jbdHasCsum (jbdSbOf e s) ≠ 0) (b : Mem) :
    jbdMetaCsum e s b = blockCrc e s (tailField (jbdSbOf e s).blocksize) b := by
  rw [jbdMetaCsum, if_neg h, blockCrc, jbdUuidCsum, ext4Crc32c, ext4Crc32c, ext4Crc32c,
    crc32_append, covered, e.store_zero]
  rfl

theorem typeSize_frame (b : Mem) (x y : Byte) {i : ℕ} (h : inField 12 2 i = false) :
    (b.write 12 [x]).write 13 [y] i = b i := by
  have hi := of_decide_eq_false h
  rcases Nat.lt_or_gt_of_ne (show i ≠ 13 by omega) with h13 | h13
  · rw [Mem.write_of_lt _ h13, Mem.write_of_lt _ (by omega)]
  · rw [Mem.write_of_ge (Nat.succ_le_of_lt h13), Mem.write_of_ge (Nat.succ_le_of_lt (by omega))]

theorem commitClear_eq (b : Mem) :
    jbdCommitClear e b = fun i => if commitField i then 0 else b i := by
  have hwrite : ∀ i, (b.write 12 [0]).write 13 [0] i = if inField 12 2 i then 0 else b i := by
    intro i
    cases h : inField 12 2 i with
    | false => exact typeSize_frame b 0 0 h
    | true =>
      have hi := of_decide_eq_true h
      obtain rfl | rfl : i = 12 ∨ i = 13 := by omega
      all_goals rfl
  rw [jbdCommitClear, e.store_zero]
  funext i
  simp only [hwrite, commitField, Bool.or_eq_true]
  by_cases h12 : inField 12 2 i = true
  · simp [h12]
  · simp [h12]

theorem commitCsum_eq (h : jbdHasCsum (jbdSbOf e s) ≠ 0) (b : Mem) :
    jbdCommitCsum e s b = blockCrc e s commitField b := by
  rw [jbdCommitCsum, if_neg h, blockCrc, jbdUuidCsum, ext4Crc32c, ext4Crc32c, ext4Crc32c,
    crc32_append, covered, commitClear_eq]

theorem sbCsum_eq (h : jbdHasCsum (jbdSbOf e s) ≠ 0) : jbdSbCsum e s = sbCrc s := by
  have hzero : jbdSet32 e s 252 0 = fun i => if sbField i then 0 else s i :=
    (jbdSet32_eq e s 252 0).trans (Endian.big.store_zero s 252)
  rw [jbdSbCsum, if_neg h, sbCrc, covered, hzero]

/-! ## Setters and verifiers -/

theorem metaCsumSet_frame (csum : Mem → ℕ) (b : Mem) {i : ℕ}
    (h : tailField (jbdSbOf e s).blocksize i = false) :
    jbdMetaCsumSet (jbdSbOf e s) csum b i = b i := by
  have hi := of_decide_eq_false h
  unfold jbdMetaCsumSet
  split_ifs
  · rfl
  · exact Endian.big.store_frame b _ _ (by omega)

/-- The tail `jbd_meta_csum_set` stores. -/
theorem metaCsumSet_stored (h : jbdHasCsum (jbdSbOf e s) ≠ 0) (b : Mem) :
    getBE (jbdMetaCsumSet (jbdSbOf e s) (jbdMetaCsum e s) b)
      ((jbdSbOf e s).blocksize - jbdBlockTailSize) 4 =
      blockCrc e s (tailField (jbdSbOf e s).blocksize) b := by
  rw [jbdMetaCsumSet, if_neg h, metaCsum_eq h]
  exact Endian.big.load_store b _ (blockCrc_lt _ b)

theorem verifyMetaCsum_iff (h : jbdHasCsum (jbdSbOf e s) ≠ 0) (b : Mem) :
    jbdVerifyMetaCsum e s b = true ↔
      getBE b ((jbdSbOf e s).blocksize - jbdBlockTailSize) 4 =
        blockCrc e s (tailField (jbdSbOf e s).blocksize) b := by
  rw [jbdVerifyMetaCsum, if_neg h, beq_iff_eq, metaCsum_eq h, eq_comm, ← jbdGet32_eq e]
  rfl

/-- **A block with a tail is accepted.** -/
theorem verifyMetaCsum_set (h : jbdHasCsum (jbdSbOf e s) ≠ 0) (b : Mem) :
    jbdVerifyMetaCsum e s (jbdMetaCsumSet (jbdSbOf e s) (jbdMetaCsum e s) b) = true := by
  rw [verifyMetaCsum_iff h, metaCsumSet_stored h]
  exact (blockCrc_congr fun i hi => metaCsumSet_frame _ b hi).symm

/-- Every revoke block gets its checksum last. -/
theorem mem_prepareRevoke {sb : JbdSb} {csum : Mem → ℕ} {sequence : ℕ} {stale : ℕ → Mem}
    {lbas : List ℕ} : ∀ {k : ℕ} {cur : Option RevokeBlk} {b : Mem},
    b ∈ jbdPrepareRevoke sb csum sequence stale lbas k cur →
      ∃ b', b = jbdMetaCsumSet sb csum b' := by
  induction lbas with
  | nil =>
    intro k cur b hb
    cases cur with
    | none => exact absurd hb (List.not_mem_nil)
    | some r => exact ⟨_, List.mem_singleton.1 hb⟩
  | cons lba lbas ih =>
    intro k cur b hb
    cases cur with
    | none => exact ih hb
    | some r =>
      rw [jbdPrepareRevoke] at hb
      split_ifs at hb
      · rcases List.mem_cons.1 hb with rfl | hb
        · exact ⟨_, rfl⟩
        · exact ih hb
      · exact ih hb

theorem commitClear_frame {b : Mem} {i : ℕ} (h : commitField i = false) :
    jbdCommitClear e b i = b i := by
  simp only [commitClear_eq, h, if_neg Bool.false_ne_true]

theorem commitCsumSet_frame {b : Mem} {i : ℕ} (h : commitField i = false) :
    jbdCommitCsumSet e s b i = b i := by
  unfold jbdCommitCsumSet
  split_ifs
  · rfl
  · have h16 := of_decide_eq_false (Bool.or_eq_false_iff.1 h).2
    rw [e.store_frame _ _ _ (by omega), commitClear_frame h]

/-- The checksum `jbd_commit_csum_set` stores, in the order of the host. -/
theorem commitCsumSet_stored (h : jbdHasCsum (jbdSbOf e s) ≠ 0) (b : Mem) :
    e.load (jbdCommitCsumSet e s b) 16 = blockCrc e s commitField b := by
  rw [jbdCommitCsumSet, if_neg h]
  simp only [commitCsum_eq h]
  rw [e.load_store _ _ (blockCrc_lt _ _)]
  exact blockCrc_congr fun i hi => commitClear_frame hi

theorem verifyCommitCsum_iff (h : jbdHasCsum (jbdSbOf e s) ≠ 0) (b : Mem) :
    jbdVerifyCommitCsum e s b = true ↔
      e.load b 16 = e.toBe32 (blockCrc e s commitField b) := by
  rw [jbdVerifyCommitCsum, if_neg h, beq_iff_eq, commitCsum_eq h]

theorem commitHeader_frame {transId dataCsum : ℕ} {stale : Mem} {i : ℕ}
    (h : commitField i = false) :
    jbdTransWriteCommitBlock e s transId dataCsum stale i =
      jbdCommitHeader transId stale i := by
  rw [jbdTransWriteCommitBlock, commitCsumSet_frame h]
  split_ifs
  · have h16 := of_decide_eq_false (Bool.or_eq_false_iff.1 h).2
    rw [jbdSet32, e.store_frame _ _ _ (by omega), typeSize_frame _ _ _ (Bool.or_eq_false_iff.1 h).1]
  · rfl

theorem sbCsumSet_frame {i : ℕ} (h : sbField i = false) : jbdSbCsumSet e s i = s i := by
  unfold jbdSbCsumSet
  split_ifs
  · rfl
  · have hi := of_decide_eq_false h
    rw [jbdSet32, e.store_frame _ _ _ (by omega)]

/-- The fields of a superblock in front of its checksum stay. -/
theorem sbCsumSet_load {a : ℕ} (h : a + 4 ≤ 252) :
    e.load (jbdSbCsumSet e s) a = e.load s a :=
  e.load_congr fun _ _ hi => sbCsumSet_frame (decide_eq_false (by omega))

theorem sbCsumSet_hasCsum : jbdHasCsum (jbdSbOf e (jbdSbCsumSet e s)) = jbdHasCsum (jbdSbOf e s) := by
  have hfeature (mask : ℕ) : jbdHasIncompatFeature e (jbdSbCsumSet e s) mask =
      jbdHasIncompatFeature e s mask := by
    rw [jbdHasIncompatFeature, jbdHasIncompatFeature, sbCsumSet_load (by decide),
      sbCsumSet_load (by decide)]
  have hV2 : (jbdSbOf e (jbdSbCsumSet e s)).csumV2 = (jbdSbOf e s).csumV2 := hfeature 8
  have hV3 : (jbdSbOf e (jbdSbCsumSet e s)).csumV3 = (jbdSbOf e s).csumV3 := hfeature 16
  rw [jbdHasCsum, jbdHasCsum, hV2, hV3]

theorem sbCsumSet_stored (h : jbdHasCsum (jbdSbOf e s) ≠ 0) :
    getBE (jbdSbCsumSet e s) 252 4 = sbCrc s := by
  rw [jbdSbCsumSet, if_neg h, jbdSet32_eq, sbCsum_eq h]
  exact Endian.big.load_store s 252 (ext4Crc32c_lt (by decide) _)

theorem verifySbCsum_iff (h : jbdHasCsum (jbdSbOf e s) ≠ 0) :
    jbdVerifySbCsum e s = true ↔ getBE s 252 4 = sbCrc s := by
  rw [jbdVerifySbCsum, if_neg h, beq_iff_eq, sbCsum_eq h, jbdGet32_eq, eq_comm]

/-- **A superblock with its checksum is accepted.** -/
theorem verifySbCsum_set (h : jbdHasCsum (jbdSbOf e s) ≠ 0) :
    jbdVerifySbCsum e (jbdSbCsumSet e s) = true := by
  rw [verifySbCsum_iff (by rwa [sbCsumSet_hasCsum]), sbCsumSet_stored h, sbCrc, sbCrc,
    covered_congr fun i hi => sbCsumSet_frame hi]

end Csum

/-! ## The round trip -/

/-- The superblock of a journal with `JBD_FEATURE_INCOMPAT_CSUM_V2` or
    `JBD_FEATURE_INCOMPAT_CSUM_V3`. -/
structure CsumJournal (e : Endian) (s : Mem) : Prop where
  magic : jbdGet32 e s 0 = jbdMagicNumber
  version : jbdGet32 e s 4 = 3 ∨ jbdGet32 e s 4 = 4
  csum : jbdHasCsum (jbdSbOf e s) ≠ 0

/-- Every block the writer makes of a transaction is accepted, and so is the
    superblock; setters and verifiers check the same bytes, those outside the
    checksum's own fields. -/
structure ChecksumsRoundTrip (e : Endian) (s : Mem) (bcsum : Mem → ℕ → ℕ) (bufs : List JbdBuf)
    (lbas : List ℕ) (transId dataCsum : ℕ) (stale : ℕ → Mem) : Prop where
  descriptor : ∀ d ∈ jbdJournalPrepare (jbdSbOf e s) bcsum transId stale bufs,
    jbdVerifyMetaCsum e s (d.close (jbdSbOf e s) (jbdMetaCsum e s)) = true
  revoke : ∀ b ∈ jbdPrepareRevoke (jbdSbOf e s) (jbdMetaCsum e s) transId stale lbas 0 none,
    jbdVerifyMetaCsum e s b = true
  commit : ∀ k, jbdVerifyCommitCsum e s
    (jbdTransWriteCommitBlock e s transId dataCsum (stale k)) = true
  superblock : jbdVerifySb e (jbdSbCsumSet e s) = true
  metaRange : ∀ b, getBE (jbdMetaCsumSet (jbdSbOf e s) (jbdMetaCsum e s) b)
      ((jbdSbOf e s).blocksize - jbdBlockTailSize) 4 =
        blockCrc e s (tailField (jbdSbOf e s).blocksize) b ∧
    (jbdVerifyMetaCsum e s b = true ↔
      getBE b ((jbdSbOf e s).blocksize - jbdBlockTailSize) 4 =
        blockCrc e s (tailField (jbdSbOf e s).blocksize) b)
  commitRange : ∀ b, e.load (jbdCommitCsumSet e s b) 16 = blockCrc e s commitField b ∧
    (jbdVerifyCommitCsum e s b = true ↔
      e.load b 16 = e.toBe32 (blockCrc e s commitField b))
  sbRange : getBE (jbdSbCsumSet e s) 252 4 = sbCrc s ∧
    (jbdVerifySbCsum e s = true ↔ getBE s 252 4 = sbCrc s)

section RoundTrip

variable {e : Endian} {s : Mem} {bcsum : Mem → ℕ → ℕ} {bufs : List JbdBuf} {lbas : List ℕ}
  {transId dataCsum : ℕ} {stale : ℕ → Mem}

/-- A commit block is accepted if `to_be32` leaves its checksum alone. -/
theorem verifyCommitCsum_write (h : jbdHasCsum (jbdSbOf e s) ≠ 0) (stale : Mem) :
    jbdVerifyCommitCsum e s (jbdTransWriteCommitBlock e s transId dataCsum stale) = true ↔
      e.toBe32 (blockCrc e s commitField (jbdCommitHeader transId stale)) =
        blockCrc e s commitField (jbdCommitHeader transId stale) := by
  have hcrc : blockCrc e s commitField (jbdTransWriteCommitBlock e s transId dataCsum stale) =
      blockCrc e s commitField (jbdCommitHeader transId stale) :=
    blockCrc_congr fun i hi => commitHeader_frame hi
  have hstored : e.load (jbdTransWriteCommitBlock e s transId dataCsum stale) 16 =
      blockCrc e s commitField (jbdTransWriteCommitBlock e s transId dataCsum stale) := by
    rw [jbdTransWriteCommitBlock, commitCsumSet_stored h]
    exact (blockCrc_congr fun i hi => commitCsumSet_frame hi).symm
  rw [verifyCommitCsum_iff h, hstored, hcrc, eq_comm]

/-- **The checksums of a journal round-trip** on a big-endian host, and
    elsewhere as long as the checksums of the commit blocks read the same both
    ways. -/
theorem checksums_roundTrip_iff (h : CsumJournal e s) :
    ChecksumsRoundTrip e s bcsum bufs lbas transId dataCsum stale ↔
      e = .big ∨ ∀ k, reorder32 (blockCrc e s commitField (jbdCommitHeader transId (stale k))) =
        blockCrc e s commitField (jbdCommitHeader transId (stale k)) := by
  have hcommit : (∀ k, jbdVerifyCommitCsum e s
      (jbdTransWriteCommitBlock e s transId dataCsum (stale k)) = true) ↔
      e = .big ∨ ∀ k, reorder32 (blockCrc e s commitField (jbdCommitHeader transId (stale k))) =
        blockCrc e s commitField (jbdCommitHeader transId (stale k)) := by
    simp only [verifyCommitCsum_write h.csum]
    cases e with
    | little => simp [Endian.toBe32]
    | big => simp [Endian.toBe32]
  rw [← hcommit]
  constructor
  · intro hr
    exact hr.commit
  · intro hc
    refine ⟨fun d _ => verifyMetaCsum_set h.csum d.blk, fun b hb => ?_, hc, ?_,
      fun b => ⟨metaCsumSet_stored h.csum b, verifyMetaCsum_iff h.csum b⟩,
      fun b => ⟨commitCsumSet_stored h.csum b, verifyCommitCsum_iff h.csum b⟩,
      sbCsumSet_stored h.csum, verifySbCsum_iff h.csum⟩
    · obtain ⟨b', rfl⟩ := mem_prepareRevoke hb
      exact verifyMetaCsum_set h.csum b'
    · have hmagic : jbdGet32 e (jbdSbCsumSet e s) 0 = jbdMagicNumber := by
        rw [jbdGet32, sbCsumSet_load (by decide)]
        exact h.magic
      have hversion : jbdGet32 e (jbdSbCsumSet e s) 4 = jbdGet32 e s 4 := by
        rw [jbdGet32, sbCsumSet_load (by decide)]
        rfl
      rw [jbdVerifySb, if_neg (not_not.2 hmagic), hversion, if_neg (by have := h.version; omega),
        verifySbCsum_set h.csum]

/-- A journal superblock for blocks of 1024 bytes. -/
def sbExample : Mem :=
  putBE (putBE (putBE (putBE (fun _ => 0) 0 4 jbdMagicNumber) 4 4 4) 12 4 1024) 40 4 16

theorem sbExample_csum (e : Endian) : CsumJournal e sbExample := by
  constructor
  · cases e <;> decide +kernel
  · cases e <;> decide +kernel
  · cases e <;> decide +kernel

theorem checksums_big : CsumJournal .big sbExample ∧
    ChecksumsRoundTrip .big sbExample (fun _ c => c) [⟨7, fun _ => 1, true⟩] [9] 1 0 (fun _ _ => 0) :=
  ⟨sbExample_csum _, (checksums_roundTrip_iff (sbExample_csum _)).2 (.inl rfl)⟩

/-- On a little-endian host the journal rejects its own commit block. -/
theorem commit_rejected : CsumJournal .little sbExample ∧
    ¬ ChecksumsRoundTrip .little sbExample (fun _ c => c) [⟨7, fun _ => 1, true⟩] [9] 1 0
      (fun _ _ => 0) := by
  refine ⟨sbExample_csum _, fun h => ?_⟩
  exact absurd (h.commit 0) (by decide +kernel)

end RoundTrip

end Lwext4
