/-
  Block addresses and group indexes on large devices.

  The conversions of `ext4_balloc.c` and `ext4_fs.h` mix 64-bit addresses with
  32-bit products.  Converting an address to a group and an index and back
  yields its low 32 bits (`fsBgIdxToAddr_locate`), and the first block of a
  group loses the bits above 32 that `ext4_fs_first_bg_block_no` keeps
  (`ballocGetBlockOfBgid_eq_iff`).  So the conversions are exact on the file
  systems of at most `2 ^ 32` blocks.
-/
import Lwext4.Super

namespace Lwext4

/-- A superblock with the fields that only `ext4_sb_check` reads. -/
structure Superblock extends SBlock where
  magic : ℕ
  firstInode : ℕ
  metadataCsum : Bool
  checksumType : ℕ
  checksum : ℕ

namespace Superblock
variable (sbCsum : Superblock → ℕ) (s : Superblock)

/-- `ext4_sb_verify_csum`; `sbCsum` is `ext4_sb_csum`, and
    `EXT4_CHECKSUM_CRC32C` is 1. -/
def verifyCsum : Bool :=
  if !s.metadataCsum then true
  else if s.checksumType ≠ 1 then false
  else s.checksum = sbCsum s

/-- `ext4_sb_check`. -/
def check : Bool :=
  if s.magic ≠ 0xEF53 then false
  else if s.inodesCount = 0 then false
  else if s.blocksCount = 0 then false
  else if s.blocksPerGroup = 0 then false
  else if s.inodesPerGroup = 0 then false
  else if s.inodeSize < 128 then false
  else if s.firstInode < 11 then false
  else if s.getDescSize < 32 then false
  else if s.getDescSize > 64 then false
  else if !s.verifyCsum sbCsum then false
  else true

variable {sbCsum s}

theorem check_blocksPerGroup (h : s.check sbCsum = true) : 0 < s.blocksPerGroup := by
  by_contra hn
  have h0 : s.blocksPerGroup = 0 := by omega
  simp [check, h0] at h

end Superblock

namespace SBlock
variable {s : SBlock}

/-! ## The conversions modulo `2 ^ 32` -/

theorem u32_mul_u32 (a b : ℕ) : u32 (a * u32 b) = u32 (a * b) := by
  unfold u32
  exact Nat.mul_mod_mod a b (2 ^ 32)

theorem u32_add_congr {a b c d : ℕ} (h₁ : u32 a = u32 b) (h₂ : u32 c = u32 d) :
    u32 (a + c) = u32 (b + d) := by
  unfold u32 at *
  rw [Nat.add_mod, h₁, h₂, ← Nat.add_mod]

theorem u32_u32 (a : ℕ) : u32 (u32 a) = u32 a := u32_of_lt (u32_lt a)

theorem fsBgIdxToAddr_eq (hf : s.firstDataBlock ≤ 1) (i g : ℕ) :
    s.fsBgIdxToAddr i g = u32 (s.blocksPerGroup * g + i + s.firstDataBlock) := by
  unfold fsBgIdxToAddr
  split_ifs with h0
  · rw [u32_add_congr rfl (u32_u32 (i + 1)), show s.firstDataBlock = 1 by omega, Nat.add_assoc]
  · rw [show s.firstDataBlock = 0 by omega, Nat.add_zero]

/-- The address relative to `first_data_block`. -/
theorem rel_eq (hf : s.firstDataBlock ≤ 1) {baddr : ℕ} (hb : s.firstDataBlock ≤ baddr) :
    (if s.firstDataBlock ≠ 0 ∧ baddr ≠ 0 then baddr - 1 else baddr) =
      baddr - s.firstDataBlock := by
  split_ifs <;> omega

/-- **There and back is the low half of the address.** -/
theorem fsBgIdxToAddr_locate (hf : s.firstDataBlock ≤ 1) {baddr : ℕ}
    (hb : s.firstDataBlock ≤ baddr) :
    s.fsBgIdxToAddr (s.fsAddrToIdxBg baddr) (s.ballocGetBgidOfBlock baddr) = u32 baddr := by
  have hdm := Nat.div_add_mod (baddr - s.firstDataBlock) s.blocksPerGroup
  have hprod : u32 (s.blocksPerGroup * u32 ((baddr - s.firstDataBlock) / s.blocksPerGroup)) =
      u32 (s.blocksPerGroup * ((baddr - s.firstDataBlock) / s.blocksPerGroup)) := u32_mul_u32 _ _
  rw [fsBgIdxToAddr_eq hf, fsAddrToIdxBg, ballocGetBgidOfBlock, rel_eq hf hb, Nat.add_assoc,
    u32_add_congr hprod rfl, ← Nat.add_assoc, hdm, Nat.sub_add_cancel hb]

/-- The two helpers for the first block of a group agree on the products
    below `2 ^ 32`. -/
theorem ballocGetBlockOfBgid_eq_iff (hf : s.firstDataBlock ≤ 1) (g : ℕ) :
    s.ballocGetBlockOfBgid g = s.fsFirstBgBlockNo g ↔ g * s.blocksPerGroup < 2 ^ 32 := by
  have hfirst : (if s.firstDataBlock ≠ 0 then 1 else 0) = s.firstDataBlock := by
    split_ifs <;> omega
  rw [ballocGetBlockOfBgid, fsFirstBgBlockNo, hfirst, Nat.add_comm s.firstDataBlock,
    Nat.add_right_cancel_iff]
  constructor
  · intro h
    rw [← h]
    exact u32_lt _
  · exact u32_of_lt

/-! ## The last group -/

/-- The group count of a file system of at most `2 ^ 32` blocks, which is 0
    when there are `2 ^ 32` groups. -/
theorem blockGroupCnt_eq (hpos : 0 < s.blocksPerGroup) (hc : s.blocksCount ≤ 2 ^ 32)
    (h0 : 0 < s.blocksCount) :
    sub32 s.blockGroupCnt 1 = (s.blocksCount - 1) / s.blocksPerGroup := by
  have hdm := Nat.div_add_mod s.blocksCount s.blocksPerGroup
  have hml := Nat.mod_lt s.blocksCount hpos
  have hlt : (s.blocksCount - 1) / s.blocksPerGroup < 2 ^ 32 := by
    have := Nat.div_le_self (s.blocksCount - 1) s.blocksPerGroup
    omega
  have hcnt : s.blockGroupCnt = u32 ((s.blocksCount - 1) / s.blocksPerGroup + 1) := by
    unfold blockGroupCnt
    split_ifs with hr
    · have hq : (s.blocksCount - 1) / s.blocksPerGroup = s.blocksCount / s.blocksPerGroup := by
        have h1 : s.blocksCount - 1 = s.blocksCount % s.blocksPerGroup - 1 +
            s.blocksPerGroup * (s.blocksCount / s.blocksPerGroup) := by omega
        rw [h1, Nat.add_mul_div_left _ _ hpos, Nat.div_eq_of_lt (by omega), Nat.zero_add]
      rw [hq, u32_add_congr (u32_u32 _) rfl]
    · have hq1 : s.blocksCount / s.blocksPerGroup ≠ 0 := by
        intro hz
        rw [hz] at hdm
        omega
      have hq : (s.blocksCount - 1) / s.blocksPerGroup + 1 = s.blocksCount / s.blocksPerGroup := by
        obtain ⟨q, hq⟩ := Nat.exists_eq_succ_of_ne_zero hq1
        have h1 : s.blocksCount - 1 = s.blocksPerGroup - 1 + s.blocksPerGroup * q := by
          rw [hq, Nat.mul_succ] at hdm
          omega
        rw [h1, Nat.add_mul_div_left _ _ hpos, Nat.div_eq_of_lt (by omega), hq]
        omega
      rw [hq]
  rw [hcnt]
  generalize (s.blocksCount - 1) / s.blocksPerGroup = q at hlt
  by_cases hq : q + 1 < 2 ^ 32
  · rw [u32_of_lt hq, sub32_of_le (by omega) hq, Nat.add_sub_cancel]
  · -- `2 ^ 32` groups: the count is 0 and one less is the last group again
    have : q = 2 ^ 32 - 1 := by omega
    subst this
    decide +kernel

/-- The index of a block is below the block count of its group. -/
theorem idx_lt_blocksInGroupCnt (hpos : 0 < s.blocksPerGroup) (hw : s.blocksPerGroup < 2 ^ 32)
    (hf : s.firstDataBlock ≤ 1) (hc : s.blocksCount ≤ 2 ^ 32) {baddr : ℕ}
    (hb : s.firstDataBlock ≤ baddr) (hlt : baddr < s.blocksCount) :
    s.fsAddrToIdxBg baddr < s.blocksInGroupCnt (s.ballocGetBgidOfBlock baddr) := by
  have hdm := Nat.div_add_mod (baddr - s.firstDataBlock) s.blocksPerGroup
  have hml := Nat.mod_lt (baddr - s.firstDataBlock) hpos
  have hle : (baddr - s.firstDataBlock) / s.blocksPerGroup ≤
      (s.blocksCount - 1) / s.blocksPerGroup := Nat.div_le_div_right (by omega)
  have hlast := Nat.div_add_mod (s.blocksCount - 1) s.blocksPerGroup
  have hlast' := Nat.mod_lt (s.blocksCount - 1) hpos
  have hq : (baddr - s.firstDataBlock) / s.blocksPerGroup < 2 ^ 32 := by
    have := Nat.div_le_self (baddr - s.firstDataBlock) s.blocksPerGroup
    omega
  rw [ballocGetBgidOfBlock, fsAddrToIdxBg, rel_eq hf hb, u32_of_lt hq, blocksInGroupCnt,
    blockGroupCnt_eq hpos hc (by omega)]
  split_ifs with hg
  · exact hml
  · have heq : (baddr - s.firstDataBlock) / s.blocksPerGroup =
        (s.blocksCount - 1) / s.blocksPerGroup := by omega
    rw [heq] at hdm
    rw [Nat.mul_comm _ s.blocksPerGroup]
    generalize s.blocksPerGroup * ((s.blocksCount - 1) / s.blocksPerGroup) = p at hdm hlast ⊢
    rw [u32_of_lt (by omega : p < 2 ^ 32)]
    unfold sub32
    omega

/-! ## Exactness -/

/-- The conversions of a file system are exact: an address comes back from its
    group and index, the index lies in the group, and both helpers give the
    same first block for every group that has blocks. -/
structure ConversionExact (s : SBlock) : Prop where
  roundTrip : ∀ baddr, s.firstDataBlock ≤ baddr → baddr < s.blocksCount →
    s.fsBgIdxToAddr (s.fsAddrToIdxBg baddr) (s.ballocGetBgidOfBlock baddr) = baddr
  index_lt : ∀ baddr, s.firstDataBlock ≤ baddr → baddr < s.blocksCount →
    s.fsAddrToIdxBg baddr < s.blocksInGroupCnt (s.ballocGetBgidOfBlock baddr)
  groupStart : ∀ bgid, bgid < 2 ^ 32 → bgid * s.blocksPerGroup < s.blocksCount →
    s.ballocGetBlockOfBgid bgid = s.fsFirstBgBlockNo bgid

end SBlock

/-- **The conversions of an accepted superblock are exact if and only if the
    file system has at most `2 ^ 32` blocks.** -/
theorem addressConversion_exact_iff (sbCsum : Superblock → ℕ) (s : Superblock)
    (hck : s.check sbCsum = true) (hw : s.blocksPerGroup < 2 ^ 32) (hf : s.firstDataBlock ≤ 1) :
    s.toSBlock.ConversionExact ↔ s.blocksCount ≤ 2 ^ 32 := by
  have hpos := Superblock.check_blocksPerGroup hck
  constructor
  · intro h
    by_contra hn
    have hback := h.roundTrip (2 ^ 32) (by omega) (by omega)
    rw [SBlock.fsBgIdxToAddr_locate hf (by omega)] at hback
    have := u32_lt (2 ^ 32)
    omega
  · intro hc
    refine ⟨?_, ?_, ?_⟩
    · intro baddr hb hlt
      rw [SBlock.fsBgIdxToAddr_locate hf hb]
      exact u32_of_lt (by omega)
    · intro baddr hb hlt
      exact SBlock.idx_lt_blocksInGroupCnt hpos hw hf hc hb hlt
    · intro bgid _ hg
      exact (SBlock.ballocGetBlockOfBgid_eq_iff hf bgid).2 (by omega)

/-- A superblock of 4 KiB blocks in groups of 32768. -/
def Superblock.ofBlocks (blocksCount : ℕ) : Superblock :=
  { blocksCount := blocksCount, firstDataBlock := 0, blocksPerGroup := 32768,
    inodesPerGroup := 8192, inodesCount := 8192, logBlockSize := 2, inodeSize := 256,
    descSize := 64, reservedGdtBlocks := 0, firstMetaBg := 0, sparseSuper := true,
    hugeFile := false, flexBg := false, metaBg := false, magic := 0xEF53, firstInode := 11,
    metadataCsum := false, checksumType := 0, checksum := 0 }

theorem addressConversion_exact_full :
    (Superblock.ofBlocks (2 ^ 32)).check (fun _ => 0) = true ∧
      (Superblock.ofBlocks (2 ^ 32)).toSBlock.ConversionExact := by
  have hck : (Superblock.ofBlocks (2 ^ 32)).check (fun _ => 0) = true := by decide
  exact ⟨hck, (addressConversion_exact_iff (fun _ => 0) _ hck (by decide) (by decide)).2
    (Nat.le_refl _)⟩

/-- Block `2 ^ 32` of a file system of `2 ^ 32 + 1` blocks is converted back
    to block 0, and its group is said to start at block 0. -/
theorem addressConversion_wrong :
    (Superblock.ofBlocks (2 ^ 32 + 1)).check (fun _ => 0) = true ∧
      let s := (Superblock.ofBlocks (2 ^ 32 + 1)).toSBlock
      s.ballocGetBgidOfBlock (2 ^ 32) = 131072 ∧
        s.fsBgIdxToAddr (s.fsAddrToIdxBg (2 ^ 32)) (s.ballocGetBgidOfBlock (2 ^ 32)) = 0 ∧
        s.ballocGetBlockOfBgid 131072 = 0 ∧ s.fsFirstBgBlockNo 131072 = 2 ^ 32 ∧
        ¬ s.ConversionExact := by
  refine ⟨by decide, by decide +kernel, by decide +kernel, by decide +kernel, by decide, ?_⟩
  intro h
  exact absurd (h.groupStart 131072 (by decide) (by decide)) (by decide +kernel)

end Lwext4
