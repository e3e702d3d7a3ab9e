/-
  On-disk structures of the journal (`ext4_journal.c`): features, block headers
  and checksum tails.

  A block is a memory; only its first `blocksize` bytes are on disk.  A buffer
  fetched with `jbd_block_get_noread` holds whatever it held before.  The
  checksum of a block is a parameter of the functions that store it.
-/
import Lwext4.Basic
import Lwext4.Lib.Bytes

namespace Lwext4

open Lib

/-- What the codecs read of `struct jbd_sb`. -/
structure JbdSb where
  blocksize : ℕ
  /-- `JBD_FEATURE_INCOMPAT_64BIT`. -/
  is64 : Bool
  /-- `JBD_FEATURE_INCOMPAT_CSUM_V2`. -/
  csumV2 : Bool
  /-- `JBD_FEATURE_INCOMPAT_CSUM_V3`. -/
  csumV3 : Bool
  uuid : Vector Byte 16

def jbdMagicNumber : ℕ := 0xc03b3998

def jbdDescriptorBlock : ℕ := 1

def jbdCommitBlock : ℕ := 2

def jbdRevokeBlock : ℕ := 5

/-- `sizeof(struct jbd_bhdr)`. -/
def jbdBhdrSize : ℕ := 12

/-- `sizeof(struct jbd_revoke_header)`. -/
def jbdRevokeHeaderSize : ℕ := 16

/-- `sizeof(struct jbd_block_tail)`. -/
def jbdBlockTailSize : ℕ := 4

/-- `jbd_has_csum`. -/
def jbdHasCsum (sb : JbdSb) : ℕ := if sb.csumV2 then 2 else if sb.csumV3 then 3 else 0

/-- The room the checksum tail takes in a block. -/
def jbdTailSize (sb : JbdSb) : ℕ := if jbdHasCsum sb = 0 then 0 else jbdBlockTailSize

/-- The stores of `magic`, `blocktype` and `sequence` into a block header. -/
def jbdSetBhdr (b : Mem) (blocktype sequence : ℕ) : Mem :=
  putBE (putBE (putBE b 0 4 jbdMagicNumber) 4 4 blocktype) 8 4 sequence

/-- `jbd_meta_csum_set`, where `csum` is `jbd_meta_csum`. -/
def jbdMetaCsumSet (sb : JbdSb) (csum : Mem → ℕ) (b : Mem) : Mem :=
  if jbdHasCsum sb = 0 then b else putBE b (sb.blocksize - jbdBlockTailSize) jbdBlockTailSize (csum b)

/-- The header lies in front of everything else. -/
theorem jbdSetBhdr_of_ge {b : Mem} {blocktype sequence i : ℕ} (h : jbdBhdrSize ≤ i) :
    jbdSetBhdr b blocktype sequence i = b i := by
  rw [jbdBhdrSize] at h
  rw [jbdSetBhdr, putBE_of_ge (by omega), putBE_of_ge (by omega), putBE_of_ge (by omega)]

/-- The checksum lies behind everything else. -/
theorem jbdMetaCsumSet_of_lt {sb : JbdSb} {csum : Mem → ℕ} {b : Mem} {i : ℕ}
    (h : i < sb.blocksize - jbdTailSize sb) : jbdMetaCsumSet sb csum b i = b i := by
  unfold jbdMetaCsumSet
  unfold jbdTailSize at h
  split_ifs at h ⊢ with hc
  · rfl
  · exact putBE_of_lt h

end Lwext4
