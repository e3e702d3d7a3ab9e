/-
  Where mkfs puts the copies of the superblock and of the descriptors.

  `descWrites` and `sblockWrites` are the writes of `write_bgroup_block` and
  `write_sblocks` in their order.  A group holds a copy if its number is 0 or a
  power of 3, 5 or 7 (`sparse_iff`).  The offset of a superblock is computed in
  32 bits; and `write_bgroup_block` writes to every group, and once more after a
  last block that is full.

  Main result: `copiesPlaced_iff`.
-/
import Lwext4.MkfsExact

namespace Lwext4

/-! ## Sparse superblocks -/

/-- **`is_power_of`** is exact. -/
theorem isPowerOf_iff {b : ℕ} (hb : 1 < b) : ∀ {fuel a : ℕ}, a ≤ fuel →
    (SBlock.isPowerOf b fuel a = true ↔ ∃ n, a = b ^ (n + 1))
  | 0, a, hle => by
    obtain rfl : a = 0 := Nat.le_zero.1 hle
    refine iff_of_false Bool.false_ne_true ?_
    rintro ⟨n, hn⟩
    exact absurd hn.symm (Nat.pow_pos (Nat.zero_lt_of_lt hb)).ne'
  | fuel + 1, a, hle => by
    have hpow : ∀ n, b ^ (n + 1) = b * b ^ n := fun n => by rw [Nat.pow_succ, Nat.mul_comm]
    unfold SBlock.isPowerOf
    split_ifs with hlt heq hmod
    · refine iff_of_false not_false ?_
      rintro ⟨n, rfl⟩
      rw [hpow] at hlt
      exact absurd hlt (Nat.not_lt.2 (Nat.le_mul_of_pos_right b (Nat.pow_pos (by omega))))
    · exact iff_of_true rfl ⟨0, by rw [heq, Nat.zero_add, Nat.pow_one]⟩
    · refine iff_of_false not_false ?_
      rintro ⟨n, rfl⟩
      rw [hpow, Nat.mul_mod_right] at hmod
      exact hmod rfl
    · -- divide once: the power is one less
      have hdiv : b * (a / b) = a := Nat.mul_div_cancel' (Nat.dvd_of_mod_eq_zero (by omega))
      have hsmall : a / b < a := Nat.div_lt_self (by omega) hb
      rw [isPowerOf_iff hb (by omega)]
      constructor
      · rintro ⟨n, hn⟩
        exact ⟨n + 1, by rw [hpow, ← hn, hdiv]⟩
      · rintro ⟨n, hn⟩
        rcases n with - | n
        · rw [Nat.zero_add, Nat.pow_one] at hn
          omega
        · refine ⟨n, ?_⟩
          rw [hn, hpow (n + 1), Nat.mul_div_cancel_left _ (by omega)]

/-- **`ext4_sb_sparse`**: 0 and the powers of 3, 5 and 7. -/
theorem sparse_iff (g : ℕ) :
    SBlock.sparse g = true ↔ g = 0 ∨ ∃ n, g = 3 ^ n ∨ g = 5 ^ n ∨ g = 7 ^ n := by
  have hodd : ∀ {b n : ℕ}, b % 2 = 1 → b ^ n % 2 = 1 := by
    intro b n hb
    rw [Nat.pow_mod, hb, Nat.one_pow]
  unfold SBlock.sparse
  split_ifs with h1 h2
  · refine iff_of_true rfl ?_
    obtain rfl | rfl : g = 0 ∨ g = 1 := by omega
    · exact .inl rfl
    · exact .inr ⟨0, .inl rfl⟩
  · refine iff_of_false not_false ?_
    rintro (rfl | ⟨n, rfl | rfl | rfl⟩)
    · omega
    · have := hodd (b := 3) (n := n) rfl
      omega
    · have := hodd (b := 5) (n := n) rfl
      omega
    · have := hodd (b := 7) (n := n) rfl
      omega
  · rw [Bool.or_eq_true, Bool.or_eq_true, isPowerOf_iff (by decide) le_rfl,
      isPowerOf_iff (by decide) le_rfl, isPowerOf_iff (by decide) le_rfl]
    constructor
    · rintro ((⟨n, h⟩ | ⟨n, h⟩) | ⟨n, h⟩)
      · exact .inr ⟨n + 1, .inr (.inr h)⟩
      · exact .inr ⟨n + 1, .inr (.inl h)⟩
      · exact .inr ⟨n + 1, .inl h⟩
    · rintro (rfl | ⟨- | n, h | h | h⟩)
      · omega
      · rw [Nat.pow_zero] at h; omega
      · rw [Nat.pow_zero] at h; omega
      · rw [Nat.pow_zero] at h; omega
      · exact .inr ⟨n, h⟩
      · exact .inl (.inr ⟨n, h⟩)
      · exact .inl (.inl ⟨n, h⟩)

namespace MkfsInfo

/-! ## The writes -/

/-- A write of a superblock copy of 1024 bytes. -/
structure SblockWrite where
  group : ℕ
  offset : ℕ

/-- A write of a descriptor block; `data` is what the slots of the block
    hold. -/
structure DescWrite where
  group : ℕ
  block : ℕ
  data : ℕ → BGroup

/-- The state of `write_bgroups`: the buffer of descriptors, its next slot, and
    the blocks written. -/
structure DescLoop where
  bgDescBlk : ℕ → BGroup
  k : ℕ
  writes : List DescWrite

section Writes

variable (info : MkfsInfo)

/-- `dsc_per_block`. -/
def dscPerBlock : ℕ := info.fillSb.getBlockSize / info.fillSb.getDescSize

/-- `write_bgroup_block`. -/
def writeBgroupBlock (data : ℕ → BGroup) (blk : ℕ) : List DescWrite :=
  (List.range info.createFsAuxInfo.groups).map fun j => ⟨j, info.bgroupBlock j blk, data⟩

/-- The loop of `write_bgroups` after `n` groups, as far as the descriptor
    blocks go.  The buffer is not cleared between two blocks. -/
def writeBgroupsDesc : ℕ → DescLoop
  | 0 => ⟨fun _ => ⟨0, 0, 0, 0, 0, false, false, false⟩, 0, []⟩
  | i + 1 =>
    let st := writeBgroupsDesc i
    let bgDescBlk := fun s => if s = st.k then info.bgroup i else st.bgDescBlk s
    if st.k + 1 ≠ info.dscPerBlock then ⟨bgDescBlk, st.k + 1, st.writes⟩
    else ⟨bgDescBlk, 0, st.writes ++ info.writeBgroupBlock bgDescBlk (i / info.dscPerBlock)⟩

/-- The descriptor blocks written by `write_bgroups`. -/
def descWrites : List DescWrite :=
  let groups := info.createFsAuxInfo.groups
  let st := info.writeBgroupsDesc groups
  st.writes ++ info.writeBgroupBlock st.bgDescBlk (groups / info.dscPerBlock)

/-- `write_sblocks`: the backups, then the primary superblock. -/
def sblockWrites : List SblockWrite :=
  ((List.range' 1 (info.createFsAuxInfo.groups - 1)).filter info.hasSuperblock).map
    (fun i => ⟨i, info.sblockOffset i⟩) ++ [⟨0, info.sblockOffset 0⟩]

/-! ## Where they belong -/

/-- The groups that hold copies. -/
def HoldsCopy (g : ℕ) : Prop :=
  info.sparseSuper = true → g = 0 ∨ ∃ n, g = 3 ^ n ∨ g = 5 ^ n ∨ g = 7 ^ n

/-- The byte offset of the superblock of group `g`. -/
def sblockPlace (g : ℕ) : ℕ := if g = 0 then 1024 else info.blockSize * info.base g

/-- The bytes of the copies in group `g`. -/
def copyBytes (g : ℕ) : Set ℕ :=
  Set.Ico (info.sblockPlace g) (info.sblockPlace g + 1024) ∪
    Set.Ico (info.blockSize * (info.base g + 1))
      (info.blockSize * (info.base g + 1 + info.descBlocks info.createFsAuxInfo.groups))

/-- The copies are where they belong.  Every group that holds a copy gets its
    superblock, and right after it all descriptor blocks with the descriptors
    they are for; nothing else is written; and mounting decides the same way
    which groups hold copies and reads the primary descriptors where they
    are. -/
structure CopiesPlaced : Prop where
  sblock : ∀ g < info.createFsAuxInfo.groups, info.HoldsCopy g →
    ⟨g, info.sblockPlace g⟩ ∈ info.sblockWrites
  desc : ∀ g < info.createFsAuxInfo.groups, info.HoldsCopy g →
    ∀ k < info.descBlocks info.createFsAuxInfo.groups, ∃ data,
      ⟨g, info.base g + 1 + k, data⟩ ∈ info.descWrites ∧
        ∀ i < info.createFsAuxInfo.groups, i / info.dscPerBlock = k →
          data (i % info.dscPerBlock) = info.bgroup i
  onlySblock : ∀ w ∈ info.sblockWrites, info.HoldsCopy w.group ∧
    Set.Ico w.offset (w.offset + 1024) ⊆ info.copyBytes w.group
  onlyDesc : ∀ w ∈ info.descWrites, info.HoldsCopy w.group ∧
    Set.Ico (info.blockSize * w.block) (info.blockSize * (w.block + 1)) ⊆ info.copyBytes w.group
  mount : ∀ g < info.createFsAuxInfo.groups,
    (info.fillSb.isSuperInBg g = true ↔ info.HoldsCopy g) ∧
      info.fillSb.fsGetDescriptorBlock g info.dscPerBlock = info.base 0 + 1 + g / info.dscPerBlock

/-- When they are: no backup superblock lies at 4 GiB or later, every group
    holds a copy, and the last descriptor block is not full. -/
structure CopiesExact : Prop where
  noWrap : ∀ g < info.createFsAuxInfo.groups, 0 < g → info.HoldsCopy g →
    info.blockSize * info.base g < 2 ^ 32
  all : ∀ g < info.createFsAuxInfo.groups, info.HoldsCopy g
  notFull : 0 < info.createFsAuxInfo.groups →
    info.createFsAuxInfo.groups % info.dscPerBlock ≠ 0

end Writes

variable {info : MkfsInfo} {g k n : ℕ}

theorem hasSuperblock_iff (info : MkfsInfo) (g : ℕ) :
    info.hasSuperblock g = true ↔ info.HoldsCopy g := by
  rw [hasSuperblock, Bool.or_eq_true, Bool.not_eq_true', sparse_iff, HoldsCopy]
  cases info.sparseSuper <;> simp

theorem holdsCopy_zero (info : MkfsInfo) : info.HoldsCopy 0 := fun _ => .inl rfl

/-! ## The loop over the descriptors -/

theorem Sized.dscPerBlock_eq (h : info.Sized) :
    info.dscPerBlock = info.blockSize / 32 ∧ 32 ≤ info.dscPerBlock := by
  obtain ⟨hlo, -, -, -, hbs⟩ := h.bs_facts
  rw [dscPerBlock, hbs, h.descSize]
  omega

/-- What the loop has done after `n` groups: the slots filled since the last
    block was written, and the blocks written. -/
structure DescLoop.Ok (info : MkfsInfo) (n : ℕ) (st : DescLoop) : Prop where
  k : st.k = n % info.dscPerBlock
  slots : ∀ s < n % info.dscPerBlock,
    st.bgDescBlk s = info.bgroup (n / info.dscPerBlock * info.dscPerBlock + s)
  written : ∀ q < n / info.dscPerBlock, ∃ data,
    (∀ s < info.dscPerBlock, data s = info.bgroup (q * info.dscPerBlock + s)) ∧
      ∀ w ∈ info.writeBgroupBlock data q, w ∈ st.writes
  only : ∀ w ∈ st.writes, ∃ q < n / info.dscPerBlock, ∃ data, w ∈ info.writeBgroupBlock data q

theorem writeBgroupsDesc_ok (hd : 0 < info.dscPerBlock) : ∀ n,
    (info.writeBgroupsDesc n).Ok info n
  | 0 => by
    have hz : 0 / info.dscPerBlock = 0 := Nat.zero_div _
    refine ⟨(Nat.zero_mod _).symm, fun s hs => ?_, fun q hq => ?_, fun w hw => ?_⟩
    · rw [Nat.zero_mod] at hs
      exact absurd hs (Nat.not_lt_zero s)
    · rw [hz] at hq
      exact absurd hq (Nat.not_lt_zero q)
    · cases hw
  | i + 1 => by
    obtain ⟨hk, hslots, hwritten, honly⟩ := writeBgroupsDesc_ok hd i
    have hmod := Nat.mod_lt i hd
    have hi := Nat.div_add_mod' i info.dscPerBlock
    unfold writeBgroupsDesc
    simp only
    generalize info.writeBgroupsDesc i = st at *
    generalize hdd : info.dscPerBlock = d at *
    -- the slots after descriptor `i` is filled in
    have hfill : ∀ s < i % d + 1, (if s = st.k then info.bgroup i else st.bgDescBlk s) =
        info.bgroup (i / d * d + s) := by
      intro s hs
      rw [hk]
      by_cases hsk : s = i % d
      · rw [if_pos hsk, hsk, hi]
      · rw [if_neg hsk]
        exact hslots s (by omega)
    by_cases hfull : st.k + 1 = d
    · -- the block is full
      have hsucc : (i + 1) / d = i / d + 1 ∧ (i + 1) % d = 0 := by
        have hcalc : i + 1 = (i / d + 1) * d := by
          rw [Nat.succ_mul]
          omega
        rw [hcalc]
        exact ⟨Nat.mul_div_cancel _ hd, Nat.mul_mod_left _ _⟩
      rw [if_neg (not_not.2 hfull)]
      refine ⟨?_, fun s hs => ?_, fun q hq => ?_, fun w hw => ?_⟩
      · rw [hdd, hsucc.2]
      · rw [hdd, hsucc.2] at hs
        exact absurd hs (Nat.not_lt_zero s)
      · rw [hdd, hsucc.1] at hq
        rcases Nat.lt_succ_iff_lt_or_eq.1 hq with hq | rfl
        · obtain ⟨data, hdata, hw⟩ := hwritten q hq
          rw [hdd]
          exact ⟨data, hdata, fun w h => List.mem_append_left _ (hw w h)⟩
        · refine ⟨_, fun s hs => ?_, fun w h => List.mem_append_right _ h⟩
          rw [hdd] at hs ⊢
          exact hfill s (by omega)
      · rw [hdd, hsucc.1]
        rcases List.mem_append.1 hw with hw | hw
        · obtain ⟨q, hq, hdata⟩ := honly w hw
          exact ⟨q, by omega, hdata⟩
        · exact ⟨i / d, by omega, _, hw⟩
    · have hsucc : (i + 1) / d = i / d ∧ (i + 1) % d = i % d + 1 := by
        have hcalc : i + 1 = i % d + 1 + i / d * d := by omega
        rw [hcalc]
        rw [Nat.add_mul_div_right _ _ hd, Nat.add_mul_mod_self_right, Nat.div_eq_of_lt (by omega),
          Nat.mod_eq_of_lt (by omega)]
        omega
      rw [if_pos hfull]
      refine ⟨?_, fun s hs => ?_, fun q hq => ?_, fun w hw => ?_⟩
      · rw [hdd, hsucc.2, hk]
      · rw [hdd, hsucc.2] at hs
        rw [hdd, hsucc.1]
        exact hfill s hs
      · rw [hdd, hsucc.1] at hq
        rw [hdd]
        exact hwritten q hq
      · rw [hdd, hsucc.1]
        exact honly w hw

/-! ## Placed copies -/

theorem mem_writeBgroupBlock {data : ℕ → BGroup} {blk : ℕ} {w : DescWrite} :
    w ∈ info.writeBgroupBlock data blk ↔
      ∃ j < info.createFsAuxInfo.groups, w = ⟨j, info.bgroupBlock j blk, data⟩ := by
  unfold writeBgroupBlock
  simp only [List.mem_map, List.mem_range, eq_comm]

theorem mem_sblockWrites {w : SblockWrite} : w ∈ info.sblockWrites ↔
    (∃ i < info.createFsAuxInfo.groups, 0 < i ∧ info.HoldsCopy i ∧ w = ⟨i, info.sblockOffset i⟩) ∨
      w = ⟨0, 1024⟩ := by
  unfold sblockWrites
  simp only [List.mem_append, List.mem_map, List.mem_filter, List.mem_range'_1, List.mem_singleton,
    hasSuperblock_iff]
  refine or_congr ⟨?_, ?_⟩ Iff.rfl
  · rintro ⟨i, ⟨hi, hc⟩, rfl⟩
    exact ⟨i, by omega, by omega, hc, rfl⟩
  · rintro ⟨i, hi, hpos, hc, rfl⟩
    exact ⟨i, ⟨by omega, hc⟩, rfl⟩

/-- The last descriptor block written is one of the blocks that are needed, or
    the one after them. -/
theorem lt_descBlocks_iff (h : info.Sized) :
    n / info.dscPerBlock < info.descBlocks n ↔ n % info.dscPerBlock ≠ 0 := by
  obtain ⟨hd, h32⟩ := h.dscPerBlock_eq
  rw [descBlocks_eq h, ← hd]
  generalize info.dscPerBlock = d at *
  have hn := Nat.div_add_mod' n d
  have hmod := Nat.mod_lt n (show 0 < d by omega)
  rw [Nat.lt_iff_add_one_le, Nat.le_div_iff_mul_le (by omega), Nat.succ_mul]
  omega

/-- The block written after the loop is the last one that is needed. -/
theorem last_needed (h : info.Sized) (hk : k < info.descBlocks n) : k ≤ n / info.dscPerBlock := by
  obtain ⟨hd, h32⟩ := h.dscPerBlock_eq
  rw [descBlocks_eq h, ← hd] at hk
  generalize info.dscPerBlock = d at *
  rw [Nat.lt_iff_add_one_le, Nat.le_div_iff_mul_le (by omega), Nat.succ_mul] at hk
  rw [Nat.le_div_iff_mul_le (by omega)]
  omega

theorem bgroupBlock_eq (hlt : info.base g < 2 ^ 32) (hc : info.HoldsCopy g) (k : ℕ) :
    info.bgroupBlock g k = info.base g + 1 + k := by
  rw [base] at hlt
  rw [bgroupBlock, if_pos ((hasSuperblock_iff info g).2 hc), aux_first, base,
    u32_of_lt (n := g * info.blocksPerGroup) (by omega), u32_of_lt hlt]

theorem base_zero (info : MkfsInfo) : info.base 0 = info.first := by
  rw [base, Nat.zero_mul, Nat.add_zero]

theorem base_zero_lt (info : MkfsInfo) : info.base 0 < 2 ^ 32 := by
  have := info.first_le
  rw [base_zero]
  omega

theorem CopiesExact.base_lt (h : info.Sized) (hx : info.CopiesExact)
    (hg : g < info.createFsAuxInfo.groups) : info.base g < 2 ^ 32 := by
  rcases Nat.eq_zero_or_pos g with rfl | hpos
  · exact base_zero_lt info
  · have hlt := hx.noWrap g hg hpos (hx.all g hg)
    have := Nat.mul_le_mul_right (info.base g) h.bs_facts.1
    omega

/-- The offset of a backup superblock below 4 GiB. -/
theorem sblockOffset_eq (h : info.Sized) (hpos : 0 < g)
    (hlt : info.blockSize * info.base g < 2 ^ 32) :
    info.sblockOffset g = info.blockSize * info.base g := by
  have hbase := Nat.mul_le_mul_right (info.base g) h.bs_facts.1
  rw [base] at hlt hbase
  rw [sblockOffset, if_neg hpos.ne', aux_first, base,
    u32_of_lt (n := g * info.blocksPerGroup) (by omega),
    u32_of_lt (n := info.first + g * info.blocksPerGroup) (by omega), u32_of_lt hlt]

/-- A block after the descriptor blocks that are needed does not belong to the
    copies of the first group. -/
theorem not_mem_copyBytes_zero (h : info.Sized) {b : ℕ}
    (hb : info.base 0 + 1 + info.descBlocks info.createFsAuxInfo.groups ≤ b) :
    info.blockSize * b ∉ info.copyBytes 0 := by
  have h2048 : 2048 ≤ info.blockSize * (info.base 0 + 1) := by
    obtain ⟨e, he, hbs⟩ := h.blockSize
    have hall : ∀ e ≤ 6, 2048 ≤ 1024 <<< e * ((if 1024 < 1024 <<< e then 0 else 1) + 1) := by decide
    rw [base_zero, first, hbs]
    exact hall e he
  have hle : info.blockSize * (info.base 0 + 1) ≤ info.blockSize * b :=
    Nat.mul_le_mul_left _ ((Nat.le_add_right _ _).trans hb)
  rintro (hs | hd)
  · rw [sblockPlace, if_pos rfl] at hs
    exact absurd hs.2 (by omega)
  · exact absurd hd.2 (Nat.not_lt.2 (Nat.mul_le_mul_left _ hb))

/-- The last call of `write_bgroup_block`. -/
theorem last_mem_descWrites (hg : g < info.createFsAuxInfo.groups) : ∃ data,
    ⟨g, info.bgroupBlock g (info.createFsAuxInfo.groups / info.dscPerBlock), data⟩ ∈
      info.descWrites :=
  ⟨_, List.mem_append_right _ (mem_writeBgroupBlock.2 ⟨g, hg, rfl⟩)⟩

/-- A backup superblock at 4 GiB or later is not where it belongs. -/
theorem CopiesPlaced.noWrap (hp : info.CopiesPlaced) (hg : g < info.createFsAuxInfo.groups)
    (hpos : 0 < g) (hc : info.HoldsCopy g) : info.blockSize * info.base g < 2 ^ 32 := by
  rcases mem_sblockWrites.1 (hp.sblock g hg hc) with ⟨i, -, -, -, heq⟩ | heq
  · rw [SblockWrite.mk.injEq] at heq
    obtain ⟨rfl, heq⟩ := heq
    rw [sblockPlace, if_neg hpos.ne'] at heq
    rw [heq, sblockOffset, if_neg hpos.ne']
    exact u32_lt _
  · rw [SblockWrite.mk.injEq] at heq
    exact absurd heq.1 hpos.ne'

theorem CopiesPlaced.exact (h : info.Sized) (hp : info.CopiesPlaced) : info.CopiesExact where
  noWrap _ hg hpos hc := hp.noWrap hg hpos hc
  all g hg := by
    obtain ⟨data, hmem⟩ := last_mem_descWrites hg
    exact (hp.onlyDesc _ hmem).1
  notFull hpos hfull := by
    obtain ⟨data, hmem⟩ := last_mem_descWrites hpos
    have hle : info.descBlocks info.createFsAuxInfo.groups ≤
        info.createFsAuxInfo.groups / info.dscPerBlock := by
      by_contra hlt
      exact (lt_descBlocks_iff h).1 (Nat.lt_of_not_le hlt) hfull
    have hbytes := (hp.onlyDesc _ hmem).2
    rw [bgroupBlock_eq (base_zero_lt info) (holdsCopy_zero info)] at hbytes
    -- the block written starts at the end of the blocks that are needed, or later
    have hbs : 0 < info.blockSize := Nat.lt_of_lt_of_le (by decide) h.bs_facts.1
    have hin := hbytes ⟨le_rfl, (Nat.mul_lt_mul_left hbs).2 (Nat.lt_succ_self _)⟩
    exact not_mem_copyBytes_zero h (Nat.add_le_add_left hle _) hin

/-- The blocks that `write_bgroups` writes, when no address wraps. -/
theorem CopiesExact.mem_descWrites (h : info.Sized) (hx : info.CopiesExact) {w : DescWrite}
    (hw : w ∈ info.descWrites) : ∃ j < info.createFsAuxInfo.groups,
      ∃ q < info.descBlocks info.createFsAuxInfo.groups,
        w.group = j ∧ w.block = info.base j + 1 + q := by
  have hd : 0 < info.dscPerBlock := Nat.lt_of_lt_of_le (by decide) h.dscPerBlock_eq.2
  have hlast : ∀ {j}, j < info.createFsAuxInfo.groups →
      info.createFsAuxInfo.groups / info.dscPerBlock <
        info.descBlocks info.createFsAuxInfo.groups :=
    fun hj => (lt_descBlocks_iff h).2 (hx.notFull (Nat.zero_lt_of_lt hj))
  have hblock : ∀ {j q data}, j < info.createFsAuxInfo.groups →
      w = ⟨j, info.bgroupBlock j q, data⟩ → w.group = j ∧ w.block = info.base j + 1 + q := by
    rintro j q data hj rfl
    exact ⟨rfl, bgroupBlock_eq (hx.base_lt h hj) (hx.all j hj) q⟩
  rcases List.mem_append.1 hw with hw | hw
  · obtain ⟨q, hq, data, hdata⟩ := (writeBgroupsDesc_ok hd _).only w hw
    obtain ⟨j, hj, hw⟩ := mem_writeBgroupBlock.1 hdata
    exact ⟨j, hj, q, hq.trans (hlast hj), hblock hj hw⟩
  · obtain ⟨j, hj, hw⟩ := mem_writeBgroupBlock.1 hw
    exact ⟨j, hj, _, hlast hj, hblock hj hw⟩

/-- Every descriptor block that is needed is written to every group, with its
    descriptors. -/
theorem CopiesExact.desc (h : info.Sized) (hx : info.CopiesExact)
    (hg : g < info.createFsAuxInfo.groups)
    (hk : k < info.descBlocks info.createFsAuxInfo.groups) : ∃ data,
      ⟨g, info.base g + 1 + k, data⟩ ∈ info.descWrites ∧
        ∀ i < info.createFsAuxInfo.groups, i / info.dscPerBlock = k →
          data (i % info.dscPerBlock) = info.bgroup i := by
  have hd : 0 < info.dscPerBlock := Nat.lt_of_lt_of_le (by decide) h.dscPerBlock_eq.2
  have hok := writeBgroupsDesc_ok hd info.createFsAuxInfo.groups
  have hblock := bgroupBlock_eq (hx.base_lt h hg) (hx.all g hg) k
  rw [← hblock]
  rcases Nat.lt_or_ge k (info.createFsAuxInfo.groups / info.dscPerBlock) with hlt | hge
  · obtain ⟨data, hdata, hw⟩ := hok.written k hlt
    refine ⟨data, List.mem_append_left _ (hw _ (mem_writeBgroupBlock.2 ⟨g, hg, rfl⟩)), ?_⟩
    rintro i - rfl
    rw [hdata _ (Nat.mod_lt i hd), Nat.div_add_mod']
  · -- the block that is written after the loop
    obtain rfl : k = info.createFsAuxInfo.groups / info.dscPerBlock := by
      have := last_needed h hk
      omega
    refine ⟨_, List.mem_append_right _ (mem_writeBgroupBlock.2 ⟨g, hg, rfl⟩), ?_⟩
    intro i hi hq
    have hmod : i % info.dscPerBlock < info.createFsAuxInfo.groups % info.dscPerBlock := by
      have h1 := Nat.div_add_mod' i info.dscPerBlock
      have h2 := Nat.div_add_mod' info.createFsAuxInfo.groups info.dscPerBlock
      rw [hq] at h1
      omega
    rw [hok.slots _ hmod, ← hq, Nat.div_add_mod']

theorem CopiesExact.placed (h : info.Sized) (hx : info.CopiesExact) : info.CopiesPlaced where
  sblock g hg hc := by
    rcases Nat.eq_zero_or_pos g with rfl | hpos
    · exact mem_sblockWrites.2 (.inr rfl)
    · refine mem_sblockWrites.2 (.inl ⟨g, hg, hpos, hc, ?_⟩)
      rw [sblockOffset_eq h hpos (hx.noWrap g hg hpos hc), sblockPlace, if_neg hpos.ne']
  desc _ hg _ _ hk := hx.desc h hg hk
  onlySblock w hw := by
    rcases mem_sblockWrites.1 hw with ⟨i, hi, hpos, hc, rfl⟩ | rfl
    · refine ⟨hc, Set.subset_union_of_subset_left ?_ _⟩
      simp only
      rw [sblockPlace, if_neg hpos.ne', sblockOffset_eq h hpos (hx.noWrap i hi hpos hc)]
    · exact ⟨holdsCopy_zero info, Set.subset_union_left⟩
  onlyDesc w hw := by
    obtain ⟨j, hj, q, hq, hgroup, hblock⟩ := hx.mem_descWrites h hw
    rw [hgroup, hblock]
    refine ⟨hx.all j hj, Set.subset_union_of_subset_right (Set.Ico_subset_Ico ?_ ?_) _⟩
    · exact Nat.mul_le_mul_left _ (Nat.le_add_right _ _)
    · exact Nat.mul_le_mul_left _ (Nat.add_lt_add_left hq _)
  mount g _ := by
    refine ⟨by rw [hasSuper_eq, hasSuperblock_iff], ?_⟩
    rw [base_zero, ← fillSb_first]
    show info.fillSb.firstDataBlock + g / info.dscPerBlock + 1 = _
    omega

/-- **The copies of the superblock and of the descriptors are placed right**,
    on every device, exactly when no backup lies at 4 GiB or later, every group
    holds a copy, and the last descriptor block is not full. -/
theorem copiesPlaced_iff (hi : info.Given) {partSize : ℕ} (hp : partSize < 2 ^ 64)
    (fsType : Option FsType) :
    (info.ext4MkfsInfo partSize fsType).CopiesPlaced ↔
      (info.ext4MkfsInfo partSize fsType).CopiesExact :=
  ⟨CopiesPlaced.exact (hi.sized hp fsType), CopiesExact.placed (hi.sized hp fsType)⟩

/-- On a device of two groups and a remainder they are: the second group has a backup. -/
theorem copiesPlaced_iff_groups :
    ((plain 4096).ext4MkfsInfo (65636 * 4096) (some .ext4)).CopiesPlaced ∧
      ((plain 4096).ext4MkfsInfo (65636 * 4096) (some .ext4)).HoldsCopy 1 := by
  have hgroups : ((plain 4096).ext4MkfsInfo (65636 * 4096) (some .ext4)).createFsAuxInfo.groups =
      2 := by
    decide +kernel
  have hcopy : ((plain 4096).ext4MkfsInfo (65636 * 4096) (some .ext4)).HoldsCopy 1 :=
    (hasSuperblock_iff _ _).1 (by decide +kernel)
  refine ⟨(copiesPlaced_iff plain_given (by decide) (some .ext4)).2 ⟨?_, ?_, ?_⟩, hcopy⟩
  · intro g hg hpos _
    obtain rfl : g = 1 := by omega
    decide +kernel
  · intro g hg
    obtain rfl | rfl : g = 0 ∨ g = 1 := by omega
    · exact holdsCopy_zero _
    · exact hcopy
  · intro _
    decide +kernel

/-- On a device of 8 GiB the backup superblock of group 49 is written 4 GiB too
    early, into group 17. -/
theorem copiesPlaced_wrong :
    ((plain 4096).ext4MkfsInfo (2 ^ 33) (some .ext4)).sblockOffset 49 + 2 ^ 32 =
      4096 * ((plain 4096).ext4MkfsInfo (2 ^ 33) (some .ext4)).base 49 ∧
    ((plain 4096).ext4MkfsInfo (2 ^ 33) (some .ext4)).sblockOffset 49 =
      4096 * ((plain 4096).ext4MkfsInfo (2 ^ 33) (some .ext4)).base 17 ∧
    ¬((plain 4096).ext4MkfsInfo (2 ^ 33) (some .ext4)).CopiesPlaced := by
  refine ⟨by decide +kernel, by decide +kernel, fun hp => ?_⟩
  have hlt := hp.noWrap (g := 49) (by decide +kernel) (by decide)
    fun _ => .inr ⟨2, .inr (.inr rfl)⟩
  exact absurd hlt (by decide +kernel)

end MkfsInfo

end Lwext4
