/-
  The block bitmap that lazy initialisation gives a group, bit by bit.

  Without `flex_bg` and `meta_bg` a bit is set if it belongs to the copies of
  the superblock and the descriptors, to one of the two bitmaps, to the inode
  table, or to what lies past the end of the group (`isBitSet_initial`).  Where
  these follow one another the bits left clear are counted by
  `clearBits_initial`.
-/
import Lwext4.BallocInv

namespace Lwext4

theorem isBitSet_memset (b : Bmap) (p : ℕ) (v : BitVec 8) (n i : ℕ) :
    bmapIsBitSet (memset b p v n) i =
      if p ≤ i / 8 ∧ i / 8 < p + n then v.getLsbD (i % 8) else bmapIsBitSet b i := by
  rw [bmapIsBitSet_eq, bmapIsBitSet_eq, memset]
  by_cases h : p ≤ i / 8 ∧ i / 8 < p + n
  · rw [if_pos h, if_pos h]
  · rw [if_neg h, if_neg h]

@[simp] theorem isBitSet_setBits (b : Bmap) (i n j : ℕ) :
    bmapIsBitSet (setBits b i n) j = (decide (i ≤ j ∧ j < i + n) || bmapIsBitSet b j) := by
  induction n generalizing b i with
  | zero =>
    rw [setBits, decide_eq_false (by omega), Bool.false_or]
  | succ n ih =>
    rw [setBits, ih, isBitSet_bitSet, ← Bool.or_assoc, ← Bool.decide_or]
    congr 1
    rw [decide_eq_decide]
    omega

theorem getLsbD_ff {k : ℕ} (hk : k < 8) : (0xFF#8).getLsbD k = true := by
  have h : ∀ k : Fin 8, (0xFF#8).getLsbD k.1 = true := by decide
  exact h ⟨k, hk⟩

/-- The end of a bitmap is set from the first bit past the group on. -/
theorem isBitSet_markEnd (b : Bmap) {s e i : ℕ} (he : 8 ∣ e) (hi : i < e) :
    bmapIsBitSet (fsMarkBitmapEnd s e b) i = (decide (s ≤ i) || bmapIsBitSet b i) := by
  have hmod : i % 8 < 8 := Nat.mod_lt _ (by decide)
  rw [fsMarkBitmapEnd]
  by_cases hse : e ≤ s
  · rw [if_pos hse, decide_eq_false (by omega), Bool.false_or]
  · rw [if_neg hse]
    simp only [shr_three]
    by_cases hlt : (s + 7) / 8 * 8 < e
    · rw [if_pos hlt, isBitSet_memset]
      by_cases hin : (s + 7) / 8 * 8 / 8 ≤ i / 8 ∧
          i / 8 < (s + 7) / 8 * 8 / 8 + (e - (s + 7) / 8 * 8) / 8
      · rw [if_pos hin, getLsbD_ff hmod, decide_eq_true (by omega), Bool.true_or]
      · rw [if_neg hin, isBitSet_setBits]
        congr 1
        rw [decide_eq_decide]
        omega
    · rw [if_neg hlt, isBitSet_setBits]
      congr 1
      rw [decide_eq_decide]
      omega

/-- The bits of the inode table. -/
theorem isBitSet_markTable {s : SBlock} (hflex : s.flexBg = false) (g first n : ℕ) :
    ∀ (b : Bmap) (i t : ℕ), (∀ j < n, sub32 (i + j) (u32 first) = t + j) → ∀ k,
      bmapIsBitSet (markInodeTable s g first b i n) k =
        (decide (t ≤ k ∧ k < t + n) || bmapIsBitSet b k) := by
  induction n with
  | zero =>
    intro b i t _ k
    rw [markInodeTable, decide_eq_false (by omega), Bool.false_or]
  | succ n ih =>
    intro b i t h k
    have h0 : sub32 i (u32 first) = t := h 0 (Nat.succ_pos n)
    have hrest (j : ℕ) (hj : j < n) : sub32 (i + 1 + j) (u32 first) = t + 1 + j := by
      have := h (j + 1) (Nat.succ_lt_succ hj)
      rwa [show i + (j + 1) = i + 1 + j by omega, show t + (j + 1) = t + 1 + j by omega] at this
    rw [markInodeTable]
    simp only [hflex, Bool.not_false, Bool.true_or, if_true]
    rw [ih _ (i + 1) (t + 1) hrest, h0, isBitSet_bitSet, ← Bool.or_assoc, ← Bool.decide_or]
    congr 1
    rw [decide_eq_decide]
    omega

/-- The blocks of the superblock and descriptor copies of a group. -/
def SBlock.copyBlocks (s : SBlock) (g : ℕ) : ℕ :=
  if s.isSuperInBg g then 1 + s.bgNumGdb g + s.reservedGdtBlocks else 0

/-- The number of blocks that lazy initialisation sees in a group. -/
def SBlock.initBlocks (s : SBlock) (g : ℕ) : ℕ :=
  if g = sub32 s.blockGroupCnt 1 then
    sub32 (sub32 s.blocksCount s.firstDataBlock) (u32 (s.blocksPerGroup * sub32 s.blockGroupCnt 1))
  else s.blocksPerGroup

/-- The number of inode table blocks that lazy initialisation marks. -/
def SBlock.initTable (s : SBlock) : ℕ := u32 (s.inodesPerGroup * s.inodeSize) / s.getBlockSize

/-- Where the bitmaps and the inode table of a group lie, from its first
    block on. -/
structure Placed (s : SBlock) (bg : BGroup) (g r : ℕ) : Prop where
  noFlex : s.flexBg = false
  noMeta : s.metaBg = false
  block : sub32 bg.blockBitmap (u32 (s.ballocGetBlockOfBgid g)) = r
  inode : sub32 bg.inodeBitmap (u32 (s.ballocGetBlockOfBgid g)) = r + 1
  table : ∀ j < s.initTable, sub32 (bg.inodeTable + j) (u32 (s.ballocGetBlockOfBgid g)) = r + 2 + j

section

variable {s : SBlock} {bg : BGroup} {g r : ℕ}

/-- **The bits set by lazy initialisation.** -/
theorem isBitSet_initial (h : Placed s bg g r) (buf : Bmap) {i : ℕ} (hi : i < 8 * s.getBlockSize) :
    bmapIsBitSet (initialBlockBitmap s bg g buf) i = decide (s.initBlocks g ≤ i ∨
      (r ≤ i ∧ i < r + 2 + s.initTable) ∨ i < s.copyBlocks g) := by
  have hmod : i % 8 < 8 := Nat.mod_lt _ (by decide)
  have hzero : bmapIsBitSet (memset buf 0 0#8 s.getBlockSize) i = false := by
    rw [isBitSet_memset, if_pos ⟨Nat.zero_le _, by omega⟩]
    exact BitVec.getLsbD_zero
  have hcopy : (if (if s.isSuperInBg g = true then 1 else 0) ≠ 0 then
      (if s.isSuperInBg g = true then 1 else 0) + s.bgNumGdb g + s.reservedGdtBlocks
      else if s.isSuperInBg g = true then 1 else 0) = s.copyBlocks g := by
    rw [SBlock.copyBlocks]
    by_cases hs : s.isSuperInBg g = true
    · simp [hs]
    · simp [hs]
  rw [initialBlockBitmap]
  simp only [h.noFlex, h.noMeta, Bool.not_false, Bool.true_or, if_true, hcopy]
  change bmapIsBitSet (fsMarkBitmapEnd (s.initBlocks g) (s.getBlockSize * 8)
    (markInodeTable s g (s.ballocGetBlockOfBgid g) _ bg.inodeTable s.initTable)) i = _
  rw [isBitSet_markEnd _ (Nat.dvd_mul_left 8 _) (by omega),
    isBitSet_markTable h.noFlex _ _ _ _ _ _ h.table, h.block, h.inode, isBitSet_bitSet,
    isBitSet_bitSet, isBitSet_setBits, hzero, Bool.or_false, ← Bool.decide_or, ← Bool.decide_or,
    ← Bool.decide_or, ← Bool.decide_or, decide_eq_decide]
  omega

/-- **The bits left clear** by lazy initialisation where the copies, the
    bitmaps and the table follow one another within the group. -/
theorem clearBits_initial (h : Placed s bg g r) (buf : Bmap) (hcopy : s.copyBlocks g ≤ r)
    (hend : r + 2 + s.initTable ≤ s.initBlocks g) (hle : s.initBlocks g ≤ 8 * s.getBlockSize) :
    clearBits (initialBlockBitmap s bg g buf) (8 * s.getBlockSize) + s.copyBlocks g + 2 +
      s.initTable = s.initBlocks g := by
  have hset : ((Finset.range (8 * s.getBlockSize)).filter fun i =>
      bmapIsBitSet (initialBlockBitmap s bg g buf) i = false) =
        Finset.Ico (s.copyBlocks g) r ∪ Finset.Ico (r + 2 + s.initTable) (s.initBlocks g) := by
    ext i
    simp only [Finset.mem_filter, Finset.mem_range, Finset.mem_union, Finset.mem_Ico]
    constructor
    · rintro ⟨hi, hc⟩
      rw [isBitSet_initial h buf hi, decide_eq_false_iff_not] at hc
      omega
    · intro hc
      have hi : i < 8 * s.getBlockSize := by omega
      refine ⟨hi, ?_⟩
      rw [isBitSet_initial h buf hi, decide_eq_false_iff_not]
      omega
  have hdisj : Disjoint (Finset.Ico (s.copyBlocks g) r)
      (Finset.Ico (r + 2 + s.initTable) (s.initBlocks g)) := by
    rw [Finset.disjoint_left]
    intro i h1 h2
    rw [Finset.mem_Ico] at h1 h2
    omega
  rw [clearBits, hset, Finset.card_union_of_disjoint hdisj, Nat.card_Ico, Nat.card_Ico]
  omega

end

end Lwext4
