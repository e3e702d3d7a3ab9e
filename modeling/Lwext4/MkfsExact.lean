/-
  When mkfs lays out a well-formed file system.

  mkfs counts every group as full, so the device has to be cut into full
  groups: without a remainder, or with one that is dropped (`Full`).  What else
  has to hold is room for the metadata in each group, and that the counts and
  addresses fit the fields they are stored in (`Roomy`).

  Main results.
  * `layoutOk_of_full`: full groups with room give a well-formed file system.
  * `full_of_layoutOk`: nothing else does.
  * `mkfs_layout_iff`: the condition on the settings, for every device.
-/
import Lwext4.MkfsLayout

namespace Lwext4

open Lib

/-! ## Groups of a superblock -/

theorem sub32_of_sub_lt {a b : ℕ} (h : b ≤ a) (hb : b ≤ 2 ^ 32) (hlt : a - b < 2 ^ 32) :
    sub32 a b = a - b := by
  unfold sub32
  omega

section Groups

variable {s : SBlock} {g : ℕ}

/-- The group count, where the groups cover the file system. -/
theorem groupCnt_spec (hb : 0 < s.blocksPerGroup) (hpos : 0 < s.blocksCount)
    (hf : s.firstDataBlock ≤ 1)
    (hcov : s.blocksCount ≤ s.firstDataBlock + s.blockGroupCnt * s.blocksPerGroup) :
    0 < s.blockGroupCnt ∧ (s.blockGroupCnt - 1) * s.blocksPerGroup < s.blocksCount ∧
      s.blocksCount ≤ s.blockGroupCnt * s.blocksPerGroup := by
  have hdm := Nat.div_add_mod s.blocksCount s.blocksPerGroup
  have hml := Nat.mod_lt s.blocksCount hb
  have hdef : s.blockGroupCnt = if s.blocksCount % s.blocksPerGroup ≠ 0 then
      u32 (u32 (s.blocksCount / s.blocksPerGroup) + 1)
      else u32 (s.blocksCount / s.blocksPerGroup) := rfl
  rw [hdef] at hcov ⊢
  generalize s.blocksCount / s.blocksPerGroup = q at *
  rw [Nat.mul_comm] at hdm
  by_cases hr : s.blocksCount % s.blocksPerGroup = 0
  · rw [if_neg (not_not.2 hr)] at hcov ⊢
    have hq : q < 2 ^ 32 := by
      by_contra hq
      have hle : u32 q ≤ q - 2 ^ 32 := by
        rw [u32]
        omega
      have hm := Nat.mul_le_mul_right s.blocksPerGroup hle
      rw [Nat.sub_mul] at hm
      have hge := Nat.mul_le_mul_right s.blocksPerGroup (Nat.le_of_not_lt hq)
      omega
    have hq0 : q ≠ 0 := by
      rintro rfl
      omega
    rw [u32_of_lt hq]
    obtain ⟨q, rfl⟩ := Nat.exists_eq_succ_of_ne_zero hq0
    rw [Nat.succ_mul] at hdm ⊢
    rw [Nat.succ_sub_one]
    omega
  · rw [if_pos hr] at hcov ⊢
    have hmod : u32 (u32 q + 1) = (q + 1) % 2 ^ 32 := by
      rw [u32, u32]
      omega
    rw [hmod] at hcov ⊢
    have hq : q + 1 < 2 ^ 32 := by
      by_contra hq
      have hle : (q + 1) % 2 ^ 32 ≤ q + 1 - 2 ^ 32 := by omega
      have hm := Nat.mul_le_mul_right s.blocksPerGroup hle
      rw [Nat.sub_mul, Nat.succ_mul] at hm
      have hge := Nat.mul_le_mul_right s.blocksPerGroup (Nat.le_of_not_lt hq)
      rw [Nat.succ_mul] at hge
      omega
    rw [Nat.mod_eq_of_lt hq, Nat.add_sub_cancel, Nat.succ_mul]
    omega

/-- Lazy initialisation sees the blocks that the group has. -/
theorem initBlocks_eq (hb : s.blocksPerGroup < 2 ^ 32) (hf : s.firstDataBlock ≤ 1)
    (h0 : 0 < s.blockGroupCnt) (hc : s.blockGroupCnt < 2 ^ 32)
    (hlt : (s.blockGroupCnt - 1) * s.blocksPerGroup < s.blocksCount)
    (hle : s.blocksCount ≤ s.blockGroupCnt * s.blocksPerGroup) (hg : g < s.blockGroupCnt) :
    s.initBlocks g = s.groupLen g := by
  rw [SBlock.initBlocks, SBlock.groupLen, sub32_of_le h0 hc]
  obtain ⟨c, hcnt⟩ := Nat.exists_eq_succ_of_ne_zero h0.ne'
  rw [hcnt] at hc hlt hle hg ⊢
  rw [Nat.succ_sub_one] at hlt ⊢
  rw [Nat.succ_mul] at hle
  by_cases hgc : g = c
  · rw [if_pos hgc, hgc, Nat.mul_comm s.blocksPerGroup c]
    unfold sub32 u32
    omega
  · have hm := Nat.mul_le_mul_right s.blocksPerGroup (show g + 1 ≤ c by omega)
    rw [Nat.succ_mul] at hm
    rw [if_neg hgc]
    omega

end Groups

namespace MkfsInfo

variable {info : MkfsInfo} {g k : ℕ}

/-! ## Sizes of the tables -/

theorem descBlocks_eq (h : info.Sized) (n : ℕ) :
    info.descBlocks n = (n + info.blockSize / 32 - 1) / (info.blockSize / 32) := by
  obtain ⟨hlo, -, -, hbs, -⟩ := h.bs_facts
  rw [descBlocks, h.dsc]
  generalize info.blockSize / 32 = q at *
  rw [hbs, ← Nat.div_div_eq_div_mul]
  congr 1
  omega

/-- Without overflow mkfs computes the blocks of the descriptors. -/
theorem descBlocks32_eq (h : info.Sized) (hlt : info.allGroups < 2 ^ 27 - 2 ^ 12) :
    info.descBlocks32 = info.descBlocks info.allGroups := by
  have hb := h.bs_facts.2.1
  rw [descBlocks32, divRoundUp32, descBlocks, h.dsc, u32_of_lt (n := info.allGroups * 32) (by omega),
    u32_of_lt (by omega)]

/-- Descriptors that fit in a group are not too many. -/
theorem groups_small (h : info.Sized) (hd : info.descBlocks k ≤ info.blocksPerGroup)
    (hlt : (k - 1) * info.blocksPerGroup < 2 ^ 32) : k < 2 ^ 26 := by
  obtain ⟨hlo, hhi, -, -, -⟩ := h.bs_facts
  by_contra hk
  have h1 : k * 32 ≤ info.blocksPerGroup * info.blockSize := by
    have h2 : k * 32 + (info.blockSize - 1) < (info.blocksPerGroup + 1) * info.blockSize := by
      rw [← Nat.div_lt_iff_lt_mul (by omega), Nat.lt_succ_iff]
      rwa [descBlocks, h.dsc] at hd
    rw [Nat.succ_mul] at h2
    omega
  have h2 : info.blocksPerGroup * info.blockSize ≤ info.blocksPerGroup * 2 ^ 16 :=
    Nat.mul_le_mul_left _ hhi
  have h3 : (2 ^ 26 - 1) * info.blocksPerGroup ≤ (k - 1) * info.blocksPerGroup :=
    Nat.mul_le_mul_right _ (by omega)
  omega

theorem Sized.initTable_eq (h : info.Sized) : info.fillSb.initTable =
    u32 (info.inodesPerGroup * info.inodeSize) / info.blockSize := by
  rw [SBlock.initTable, h.bs_facts.2.2.2.2]
  rfl

theorem initTable_le (h : info.Sized) : info.fillSb.initTable ≤ info.tableBlocks := by
  rw [h.initTable_eq, tableBlocks]
  refine Nat.div_le_div_right (Nat.le_trans ?_ (Nat.le_add_right _ _))
  rw [u32]
  exact Nat.mod_le _ _

/-- Lazy initialisation marks the whole table if it ends at the end of a block
    and its length does not overflow. -/
theorem tableBlocks_iff (h : info.Sized) : info.tableBlocks ≤ info.fillSb.initTable ↔
    info.blockSize ∣ info.inodesPerGroup * info.inodeSize ∧
      info.inodesPerGroup * info.inodeSize < 2 ^ 32 := by
  obtain ⟨hlo, -, -, -, -⟩ := h.bs_facts
  rw [h.initTable_eq, tableBlocks]
  generalize info.inodesPerGroup * info.inodeSize = x
  constructor
  · intro hle
    have h1 : x ≤ (x + (info.blockSize - 1)) / info.blockSize * info.blockSize := by
      have := Nat.lt_div_mul_add (a := x + (info.blockSize - 1)) (show 0 < info.blockSize by omega)
      omega
    have h2 := Nat.mul_le_mul_right info.blockSize hle
    have h3 := Nat.div_mul_le_self (u32 x) info.blockSize
    have h4 : u32 x ≤ x := by
      rw [u32]
      exact Nat.mod_le _ _
    have h5 := u32_lt x
    have hx : x = u32 x / info.blockSize * info.blockSize := by omega
    exact ⟨⟨_, hx.trans (Nat.mul_comm _ _)⟩, by omega⟩
  · rintro ⟨⟨c, rfl⟩, hlt⟩
    rw [u32_of_lt hlt, Nat.mul_div_cancel_left _ (by omega),
      Nat.mul_add_div (by omega), Nat.div_eq_of_lt (by omega), Nat.add_zero]

/-- Then mkfs computes its blocks, too. -/
theorem tableBlocks32_eq (h : info.Sized)
    (hd : info.blockSize ∣ info.inodesPerGroup * info.inodeSize)
    (hlt : info.inodesPerGroup * info.inodeSize < 2 ^ 32) : info.tableBlocks32 = info.tableBlocks := by
  obtain ⟨hlo, -, hdvd, -, -⟩ := h.bs_facts
  obtain ⟨m, hm⟩ := hdvd
  obtain ⟨c, hc⟩ := hd
  have hcm : c + 1 ≤ m := by
    have : info.blockSize * c < info.blockSize * m := by omega
    exact Nat.lt_of_mul_lt_mul_left this
  have hle := Nat.mul_le_mul_left info.blockSize hcm
  rw [Nat.mul_succ] at hle
  rw [tableBlocks32, divRoundUp32, tableBlocks, u32_of_lt hlt, u32_of_lt (by omega)]

/-! ## Groups -/

theorem fillSb_first (info : MkfsInfo) : info.fillSb.firstDataBlock = info.first := aux_first info

theorem blockOfBgid_eq (hlt : info.base g < 2 ^ 32) : info.fillSb.ballocGetBlockOfBgid g = info.base g := by
  have hf := info.first_le
  rw [SBlock.ballocGetBlockOfBgid, fillSb_first, base] at *
  change (if info.first ≠ 0 then 1 else 0) + u32 (g * info.blocksPerGroup) = _
  rw [u32_of_lt (by omega)]
  split_ifs <;> omega

/-- The places of the bitmaps and the table. -/
theorem placed (h : info.Sized) (hlt : info.base g + info.bitmapIdx g + 2 < 2 ^ 32)
    (ht : info.bitmapIdx g + 2 + info.fillSb.initTable ≤ 2 ^ 32) :
    Placed info.fillSb (info.bgroup g) g (info.bitmapIdx g) := by
  obtain ⟨-, hb, hi, htab⟩ := bitmap_addr h hlt
  have hbase : u32 (info.fillSb.ballocGetBlockOfBgid g) = info.base g := by
    rw [blockOfBgid_eq (by omega), u32_of_lt (by omega)]
  refine ⟨rfl, rfl, ?_, ?_, fun j hj => ?_⟩
  · rw [hb, hbase, sub32_of_sub_lt] <;> omega
  · rw [hi, hbase, sub32_of_sub_lt] <;> omega
  · rw [htab, hbase, sub32_of_sub_lt] <;> omega

theorem hasSuper_eq (info : MkfsInfo) (g : ℕ) : info.fillSb.isSuperInBg g = info.hasSuperblock g := by
  rw [SBlock.isSuperInBg, hasSuperblock, Bool.not_and, Bool.not_not]
  rfl

theorem copyBlocks_eq (h : info.Sized) (g : ℕ) : info.fillSb.copyBlocks g =
    if info.hasSuperblock g then 1 + info.descBlocks info.fillSb.blockGroupCnt else 0 := by
  rw [SBlock.copyBlocks, hasSuper_eq]
  by_cases hs : info.hasSuperblock g = true
  · have hres : info.fillSb.reservedGdtBlocks = 0 := by
      change info.bgDescReserveBlocks % 2 ^ 16 = 0
      rw [h.reserve, Nat.zero_mod]
    rw [if_pos hs, if_pos hs, hres, SBlock.bgNumGdb]
    have hmeta : info.fillSb.metaBg = false := rfl
    simp only [hmeta, Bool.not_false, Bool.true_or, if_true]
    rw [SBlock.bgNumGdbNometa, hasSuper_eq, hs]
    simp only [hmeta, Bool.not_true, Bool.false_eq_true, if_false]
    rw [descBlocks_eq h, h.bs_facts.2.2.2.2, h.descSize]
    rfl
  · rw [if_neg hs, if_neg hs]

theorem hasSuperblock_zero (info : MkfsInfo) : info.hasSuperblock 0 = true := by
  rw [hasSuperblock]
  simp [SBlock.sparse]

/-- **The bits left clear** in a group whose metadata fits. -/
theorem clear_add (h : info.Sized) (disk : ℕ → Bmap) (bg : ℕ → BGroup) (lgBcnt : ℕ)
    (hg : g < info.createFsAuxInfo.groups) (hlt : info.base g + info.bitmapIdx g + 2 < 2 ^ 32)
    (hinit : info.fillSb.initBlocks g = info.fillSb.groupLen g)
    (hcopy : info.fillSb.copyBlocks g ≤ info.bitmapIdx g)
    (hend : info.bitmapIdx g + 2 + info.fillSb.initTable ≤ info.fillSb.groupLen g)
    (hle : info.fillSb.groupLen g ≤ 8 * info.blockSize) :
    clearBits ((info.mkfsInit disk bg lgBcnt).bitmap g) (8 * info.blockSize) +
      info.fillSb.copyBlocks g + 2 + info.fillSb.initTable = info.fillSb.groupLen g := by
  obtain ⟨buf, hbuf⟩ := @mkfsInit_bitmap info _ disk bg lgBcnt hg
  obtain ⟨-, hhi, -, -, hbs⟩ := h.bs_facts
  have hp := placed h hlt (by omega)
  have hclear := clearBits_initial hp buf hcopy (by rwa [hinit]) (by rwa [hinit, hbs])
  rwa [hinit, hbs, ← hbuf] at hclear

/-! ## Full groups -/

/-- The blocks of a group among `k` full ones. -/
def size (info : MkfsInfo) (k g : ℕ) : ℕ :=
  if g + 1 = k then info.blocksPerGroup - info.first else info.blocksPerGroup

/-- Where the block bitmap of a group lies in it, for `k` groups. -/
def place (info : MkfsInfo) (k g : ℕ) : ℕ :=
  info.first + info.superBlocks g + info.descBlocks k + 1

/-- mkfs lays out `k` full groups, with descriptor and inode tables of the
    right size. -/
structure Full (info : MkfsInfo) (k : ℕ) : Prop where
  groups : info.createFsAuxInfo.groups = k
  len : info.createFsAuxInfo.lenBlocks = k * info.blocksPerGroup
  desc : info.createFsAuxInfo.bgDescBlocks = info.descBlocks k
  table : info.createFsAuxInfo.inodeTableBlocks = info.tableBlocks
  inits : info.fillSb.initTable = info.tableBlocks

/-- Each of `k` groups has room for its metadata and a bitmap that covers it,
    its free count fits 16 bits and its addresses 32 bits, and its copy of the
    superblock lies below byte `2 ^ 32` of the device. -/
structure Roomy (info : MkfsInfo) (k : ℕ) : Prop where
  pos : 0 < k
  room : ∀ g < k, info.place k g + 2 + info.tableBlocks ≤ info.size k g
  bits : ∀ g < k, info.size k g ≤ 8 * info.blockSize
  count : ∀ g < k, info.size k g < 2 ^ 16 + (info.tableBlocks + 2 +
    if info.hasSuperblock g then 1 + info.descBlocks k else 0)
  addr : ∀ g < k, info.base g + info.place k g + 2 < 2 ^ 32
  copies : ∀ g < k, info.hasSuperblock g = true → info.blockSize * info.base g < 2 ^ 32

theorem fillSb_len (info : MkfsInfo) : info.fillSb.blocksCount = info.createFsAuxInfo.lenBlocks := rfl

theorem Full.bitmapIdx_eq (hf : info.Full k) (g : ℕ) : info.bitmapIdx g = info.place k g := by
  rw [bitmapIdx, hf.desc, place]

/-- The superblock counts the groups. -/
theorem Full.cnt_eq (hf : info.Full k) (h : info.Sized) (hk : k < 2 ^ 32) :
    info.fillSb.blockGroupCnt = k := by
  have hdef : info.fillSb.blockGroupCnt =
      if info.fillSb.blocksCount % info.blocksPerGroup ≠ 0 then
        u32 (u32 (info.fillSb.blocksCount / info.blocksPerGroup) + 1)
      else u32 (info.fillSb.blocksCount / info.blocksPerGroup) := rfl
  rw [hdef, fillSb_len, hf.len, Nat.mul_mod_left, if_neg (not_not.2 rfl),
    Nat.mul_div_cancel _ h.bpg_pos, u32_of_lt hk]

theorem groupLen_eq (info : MkfsInfo) (g : ℕ) : info.fillSb.groupLen g =
    min info.blocksPerGroup (info.fillSb.blocksCount - info.first - g * info.blocksPerGroup) := by
  rw [SBlock.groupLen, fillSb_first]
  rfl

theorem Full.groupLen_eq (hf : info.Full k) (hg : g < k) : info.fillSb.groupLen g = info.size k g := by
  have hfirst := info.first_le
  obtain ⟨c, rfl⟩ := Nat.exists_eq_succ_of_ne_zero (Nat.ne_of_gt (Nat.lt_of_le_of_lt (Nat.zero_le g) hg))
  rw [MkfsInfo.groupLen_eq, size, fillSb_len, hf.len, Nat.succ_mul]
  by_cases hgc : g = c
  · rw [if_pos (by omega), hgc]
    omega
  · have hm := Nat.mul_le_mul_right info.blocksPerGroup (show g + 1 ≤ c by omega)
    rw [Nat.succ_mul] at hm
    rw [if_neg (by omega)]
    omega

theorem Full.initBlocks_eq (hf : info.Full k) (h : info.Sized) (hk : k < 2 ^ 32) (hg : g < k) :
    info.fillSb.initBlocks g = info.fillSb.groupLen g := by
  have hcnt := hf.cnt_eq h hk
  have hfirst := info.first_le
  refine Lwext4.initBlocks_eq h.bpg_lt (by rwa [fillSb_first]) (by omega) (by omega) ?_ ?_ (by omega)
  · change _ * info.blocksPerGroup < _
    rw [hcnt, fillSb_len, hf.len]
    exact Nat.mul_lt_mul_of_pos_right (by omega) h.bpg_pos
  · change _ ≤ _ * info.blocksPerGroup
    rw [hcnt, fillSb_len, hf.len]

theorem Full.copyBlocks_eq (hf : info.Full k) (h : info.Sized) (hk : k < 2 ^ 32) (g : ℕ) :
    info.fillSb.copyBlocks g = if info.hasSuperblock g then 1 + info.descBlocks k else 0 := by
  rw [MkfsInfo.copyBlocks_eq h, hf.cnt_eq h hk]

theorem Full.taken_eq (hf : info.Full k) (hk : k < 2 ^ 32) (hg : g < k) : info.taken g =
    info.tableBlocks + 2 + (if g + 1 = k then info.first else 0) +
      (if info.hasSuperblock g then 1 + info.descBlocks k else 0) := by
  rw [taken, hf.table, hf.desc, hf.groups, sub32_of_le (by omega) hk]
  by_cases hgk : g + 1 = k
  · rw [if_pos hgk, if_pos (by omega)]
  · rw [if_neg hgk, if_neg (by omega)]

section Layout

variable (disk : ℕ → Bmap) (bg : ℕ → BGroup) (lgBcnt : ℕ)

/-- The pieces of a group in their order. -/
theorem metadata_eq (h : info.Sized) (hf : info.Full k) (hr : info.Roomy k) (hg : g < k) :
    info.metadata g = (if info.hasSuperblock g then [(info.base g, 1)] else []) ++
      [(info.base g + info.superBlocks g, info.descBlocks k),
        (info.base g + info.place k g, 1), (info.base g + info.place k g + 1, 1),
        (info.base g + info.place k g + 2, info.tableBlocks)] := by
  have haddr := hr.addr g hg
  have hplace := hf.bitmapIdx_eq g
  obtain ⟨hlo, -, -, -, -⟩ := h.bs_facts
  obtain ⟨-, hb, hi, ht⟩ := bitmap_addr h (by rwa [hplace])
  have hbase : u32 (info.first + u32 (g * info.blocksPerGroup)) = info.base g := by
    rw [base] at *
    rw [u32_of_lt (n := g * info.blocksPerGroup) (by omega), u32_of_lt (by omega)]
  have hblock : info.bgroupBlock g 0 = info.base g + info.superBlocks g := by
    rw [bgroupBlock, aux_first, hbase, superBlocks]
    split_ifs <;> rfl
  rw [metadata, hblock, hf.groups, hb, hi, ht, hplace]
  by_cases hs : info.hasSuperblock g = true
  · have hcopy := hr.copies g hg hs
    rw [if_pos hs, if_pos hs]
    congr 2
    rw [Prod.mk.injEq]
    refine ⟨?_, rfl⟩
    rw [sblockOffset, aux_first, hbase]
    by_cases hg0 : g = 0
    · subst hg0
      rw [if_pos rfl, base, first, Nat.zero_mul, Nat.add_zero]
      by_cases hlarge : 1024 < info.blockSize
      · rw [if_pos hlarge, Nat.div_eq_of_lt hlarge]
      · rw [if_neg hlarge, Nat.le_antisymm (Nat.le_of_not_lt hlarge) hlo]
    · rw [if_neg hg0, u32_of_lt hcopy, Nat.mul_div_cancel_left _ (by omega)]
  · rw [if_neg hs, if_neg hs]

theorem metadata_inside (h : info.Sized) (hf : info.Full k) (hr : info.Roomy k) (hg : g < k) :
    ∀ p ∈ info.metadata g, info.base g ≤ p.1 ∧ p.1 + p.2 ≤ info.base g + info.size k g := by
  have hroom := hr.room g hg
  rw [metadata_eq h hf hr hg]
  have hs := info.superBlocks_le g
  rw [place] at *
  intro p hp
  rw [List.mem_append] at hp
  rcases hp with hp | hp
  · split_ifs at hp
    · obtain rfl := List.mem_singleton.1 hp
      exact ⟨le_rfl, Nat.add_le_add_left (by omega) _⟩
    · cases hp
  · simp only [List.mem_cons, List.not_mem_nil, or_false] at hp
    rcases hp with rfl | rfl | rfl | rfl
    all_goals
      dsimp only
      omega

theorem metadata_apart (h : info.Sized) (hf : info.Full k) (hr : info.Roomy k) (hg : g < k) :
    (info.metadata g).Pairwise fun p q => p.1 + p.2 ≤ q.1 ∨ q.1 + q.2 ≤ p.1 := by
  rw [metadata_eq h hf hr hg]
  have hs : info.superBlocks g = if info.hasSuperblock g then 1 else 0 := rfl
  have hplace : info.place k g = info.first + info.superBlocks g + info.descBlocks k + 1 := rfl
  by_cases hsup : info.hasSuperblock g = true
  · rw [if_pos hsup] at hs ⊢
    simp only [List.singleton_append, List.pairwise_cons, List.mem_cons, List.not_mem_nil, or_false]
    refine ⟨?_, ?_, ?_, ?_, ?_, .nil⟩
    · rintro p (rfl | rfl | rfl | rfl) <;> dsimp only <;> omega
    · rintro p (rfl | rfl | rfl) <;> dsimp only <;> omega
    · rintro p (rfl | rfl) <;> dsimp only <;> omega
    · rintro p rfl
      dsimp only
      omega
    · rintro p ⟨⟩
  · rw [if_neg hsup] at hs ⊢
    simp only [List.nil_append, List.pairwise_cons, List.mem_cons, List.not_mem_nil, or_false]
    refine ⟨?_, ?_, ?_, ?_, .nil⟩
    · rintro p (rfl | rfl | rfl) <;> dsimp only <;> omega
    · rintro p (rfl | rfl) <;> dsimp only <;> omega
    · rintro p rfl
      dsimp only
      omega
    · rintro p ⟨⟩

/-- What is taken from a full group is what its bitmap marks. -/
theorem full_clear (h : info.Sized) (hf : info.Full k) (hr : info.Roomy k) (hk : k < 2 ^ 32)
    (hg : g < k) : info.bgroupFree g < 2 ^ 16 ∧ info.bgroupFree g =
      clearBits ((info.mkfsInit disk bg lgBcnt).bitmap g) (8 * info.blockSize) := by
  have hfirst := info.first_le
  have hT := hf.inits
  have hroom := hr.room g hg
  have hbits := hr.bits g hg
  have hcount := hr.count g hg
  have haddr := hr.addr g hg
  have hcopy := hf.copyBlocks_eq h hk g
  have hplace := hf.bitmapIdx_eq g
  have htaken := hf.taken_eq hk hg
  have hsize : info.size k g + (if g + 1 = k then info.first else 0) = info.blocksPerGroup := by
    rw [size] at hroom ⊢
    rw [place] at hroom
    split_ifs at hroom ⊢ <;> omega
  have hcopyle : info.fillSb.copyBlocks g ≤ info.place k g := by
    rw [hcopy, place, superBlocks]
    split_ifs <;> omega
  have hadd := clear_add h disk bg lgBcnt (by rwa [hf.groups]) (by rwa [hplace])
    (hf.initBlocks_eq h hk hg) (by rwa [hplace]) (by rwa [hplace, hT, hf.groupLen_eq hg])
    (by rwa [hf.groupLen_eq hg])
  rw [hT, hf.groupLen_eq hg, hcopy] at hadd
  have hfree := free_of_le h (g := g) (by omega)
  omega

/-- The bitmap of a full group marks its bitmaps and its inode table. -/
theorem full_marked (h : info.Sized) (hf : info.Full k) (hr : info.Roomy k) (hg : g < k) {b : ℕ}
    (hb : b = ((info.mkfsInit disk bg lgBcnt).bg g).blockBitmap ∨
      b = ((info.mkfsInit disk bg lgBcnt).bg g).inodeBitmap ∨
      ((info.mkfsInit disk bg lgBcnt).bg g).inodeTable ≤ b ∧
        b < ((info.mkfsInit disk bg lgBcnt).bg g).inodeTable + info.tableBlocks) :
    bmapIsBitSet ((info.mkfsInit disk bg lgBcnt).bitmap g) (b - info.base g) = true := by
  have hg' : g < info.createFsAuxInfo.groups := by rwa [hf.groups]
  have hT := hf.inits
  have hroom := hr.room g hg
  have hbits := hr.bits g hg
  have haddr := hr.addr g hg
  have hplace := hf.bitmapIdx_eq g
  obtain ⟨-, hhi, -, -, hbs⟩ := h.bs_facts
  obtain ⟨-, h1, h2, h3⟩ := bitmap_addr h (g := g) (by rwa [hplace])
  obtain ⟨buf, hbuf⟩ := @mkfsInit_bitmap info _ disk bg lgBcnt hg'
  rw [mkfsInit_bg _ _ _ hg', h1, h2, h3, hplace] at hb
  have hp := placed h (g := g) (by rwa [hplace]) (by rw [hplace, hT]; omega)
  rw [hbuf, isBitSet_initial hp buf (by rw [hbs]; omega), decide_eq_true_iff]
  rw [hplace, hT]
  omega

/-- **Full groups with room** give a well-formed file system. -/
theorem layoutOk_of_full (h : info.Sized) (hf : info.Full k) (hr : info.Roomy k)
    (hle : k * info.blocksPerGroup ≤ info.blocks) (hk : k < 2 ^ 32) :
    info.LayoutOk (info.mkfsInit disk bg lgBcnt) := by
  have hsb : (info.mkfsInit disk bg lgBcnt).sb = info.fillSb := mkfsInit_sb disk bg lgBcnt
  have hfree (g : ℕ) (hg : g < k) :
      (info.mkfsInit disk bg lgBcnt).freeCount g = info.bgroupFree g := by
    rw [mkfsInit_freeCount _ _ _ h (by rwa [hf.groups]),
      Nat.mod_eq_of_lt (full_clear disk bg lgBcnt h hf hr hk hg).1]
  refine ⟨?_, ?_, ?_, fun g hg => ?_, fun g hg => ?_, fun g hg => ?_, fun g hg b hb => ?_,
    fun g hg => ?_, ?_⟩
  · rw [hsb, hf.cnt_eq h hk, hf.groups]
  · rw [hsb, fillSb_len, hf.len, base, hf.groups]
    exact Nat.le_add_left _ _
  · rw [hsb, fillSb_len, hf.len]
    exact hle
  · rw [hf.groups] at hg
    rw [hsb, hf.groupLen_eq hg]
    exact metadata_inside h hf hr hg
  · rw [hf.groups] at hg
    exact metadata_apart h hf hr hg
  · rw [hf.groups] at hg
    rw [hsb, hf.groupLen_eq hg]
    exact hr.bits g hg
  · rw [hf.groups] at hg
    exact full_marked disk bg lgBcnt h hf hr hg hb
  · rw [hf.groups] at hg
    rw [hfree g hg]
    exact (full_clear disk bg lgBcnt h hf hr hk hg).2
  · rw [mkfsInit_total _ _ _ h, hf.groups]
    refine Finset.sum_congr rfl fun g hg => ?_
    rw [hfree g (Finset.mem_range.1 hg)]

end Layout

/-! ## What a well-formed file system needs -/

section Needs

variable {disk : ℕ → Bmap} {bg : ℕ → BGroup} {lgBcnt : ℕ}

/-- What the pieces of a group say of its metadata. -/
structure GroupRoom (info : MkfsInfo) (g : ℕ) : Prop where
  addr : info.base g + info.bitmapIdx g + 2 < 2 ^ 32
  room : info.bitmapIdx g + 2 + info.tableBlocks ≤ info.fillSb.groupLen g
  desc : info.superBlocks g + info.descBlocks info.createFsAuxInfo.groups ≤ info.bitmapIdx g
  copy : info.hasSuperblock g = true → info.blockSize * info.base g < 2 ^ 32

theorem LayoutOk.groupRoom (hok : info.LayoutOk (info.mkfsInit disk bg lgBcnt)) (h : info.Sized)
    (hg : g < info.createFsAuxInfo.groups) : info.GroupRoom g := by
  have hsb : (info.mkfsInit disk bg lgBcnt).sb = info.fillSb := mkfsInit_sb disk bg lgBcnt
  have hin := hok.inGroup g hg
  have hdis := hok.disjoint g hg
  rw [hsb] at hin
  obtain ⟨hlo, -, -, -, -⟩ := h.bs_facts
  have hs := info.superBlocks_le g
  have hf := info.first_le
  have htab := hin ((info.bgroup g).inodeTable, info.tableBlocks)
    (List.mem_append_right _ (by simp))
  have haddr := addr_of_le h htab.1
  obtain ⟨-, hb, hi, ht⟩ := bitmap_addr h haddr
  rw [ht] at htab
  have hbase : u32 (info.first + u32 (g * info.blocksPerGroup)) = info.base g := by
    rw [base] at *
    rw [u32_of_lt (n := g * info.blocksPerGroup) (by omega), u32_of_lt (by omega)]
  have hblock : info.bgroupBlock g 0 = info.base g + info.superBlocks g := by
    rw [bgroupBlock, aux_first, hbase, superBlocks]
    split_ifs <;> rfl
  refine ⟨haddr, by omega, ?_, fun hsup => ?_⟩
  · have hpair := (List.pairwise_append.1 hdis).2.1
    rw [List.pairwise_cons] at hpair
    have hsep := hpair.1 ((info.bgroup g).blockBitmap, 1) (by simp)
    rw [hblock, hb] at hsep
    rw [bitmapIdx] at hsep ⊢
    omega
  · by_cases hg0 : g = 0
    · obtain ⟨-, hhi, -, -, -⟩ := h.bs_facts
      rw [hg0, base, Nat.zero_mul, Nat.add_zero]
      have := Nat.mul_le_mul_left info.blockSize hf
      omega
    · have hpiece := hin (info.sblockOffset g / info.blockSize, 1)
        (List.mem_append_left _ (by rw [if_pos hsup]; exact List.mem_singleton_self _))
      have hle := hpiece.1
      rw [sblockOffset, if_neg hg0, aux_first, hbase, Nat.le_div_iff_mul_le (by omega),
        Nat.mul_comm] at hle
      exact Nat.lt_of_le_of_lt hle (u32_lt _)

/-- Counts truncated to 16 bits with the sum of the counts are the counts. -/
theorem sum_mod_eq {f : ℕ → ℕ} {n : ℕ}
    (h : ∑ i ∈ Finset.range n, f i = ∑ i ∈ Finset.range n, f i % 2 ^ 16) :
    ∀ i < n, f i < 2 ^ 16 := by
  intro i hi
  have heq := (Finset.sum_eq_sum_iff_of_le fun i _ => Nat.mod_le (f i) (2 ^ 16)).1 h.symm i
    (Finset.mem_range.2 hi)
  have hlt : f i % 2 ^ 16 < 2 ^ 16 := Nat.mod_lt _ (by decide)
  omega

/-- What the counts of a group say, where `k` groups are laid out. -/
structure GroupCount (info : MkfsInfo) (k g : ℕ) : Prop where
  free : info.bgroupFree g < 2 ^ 16
  taken : info.bgroupFree g + info.taken g = info.blocksPerGroup
  len : info.bgroupFree g + info.fillSb.copyBlocks g + 2 + info.tableBlocks = info.fillSb.groupLen g

/-- The inode table is marked, so its size is what it should be. -/
theorem LayoutOk.table (hok : info.LayoutOk (info.mkfsInit disk bg lgBcnt)) (h : info.Sized)
    (hg : g < info.createFsAuxInfo.groups)
    (hinit : info.fillSb.initBlocks g = info.fillSb.groupLen g)
    (hcopy : info.fillSb.copyBlocks g ≤ info.bitmapIdx g) :
    info.fillSb.initTable = info.tableBlocks := by
  have hroom := hok.groupRoom h hg
  have hend := hroom.room
  have hle := hok.bits g hg
  rw [mkfsInit_sb] at hle
  have hT := initTable_le h
  obtain ⟨-, hhi, -, -, hbs⟩ := h.bs_facts
  obtain ⟨-, -, -, ht⟩ := bitmap_addr h hroom.addr
  obtain ⟨buf, hbuf⟩ := @mkfsInit_bitmap info _ disk bg lgBcnt hg
  have hp := placed h hroom.addr (by omega)
  refine Nat.le_antisymm hT ?_
  by_contra hlt
  have hmark := hok.marked g hg ((info.bgroup g).inodeTable + info.fillSb.initTable)
    (.inr (.inr (by rw [mkfsInit_bg _ _ _ hg]; omega)))
  rw [hbuf, ht, isBitSet_initial hp buf (by rw [hbs]; omega), decide_eq_true_iff, hinit] at hmark
  omega

theorem LayoutOk.groupCount (hok : info.LayoutOk (info.mkfsInit disk bg lgBcnt)) (h : info.Sized)
    (hg : g < info.createFsAuxInfo.groups)
    (hinit : info.fillSb.initBlocks g = info.fillSb.groupLen g)
    (hcopy : info.fillSb.copyBlocks g ≤ info.bitmapIdx g)
    (hT : info.fillSb.initTable = info.tableBlocks) : info.GroupCount k g := by
  have hroom := hok.groupRoom h hg
  have hle := hok.bits g hg
  rw [mkfsInit_sb] at hle
  have htotal := hok.total
  rw [mkfsInit_total _ _ _ h, Finset.sum_congr rfl fun i hi =>
    mkfsInit_freeCount disk bg lgBcnt h (Finset.mem_range.1 hi)] at htotal
  have hfree := sum_mod_eq htotal g hg
  have hcount := hok.free g hg
  rw [mkfsInit_freeCount _ _ _ h hg, Nat.mod_eq_of_lt hfree] at hcount
  have hadd := clear_add h disk bg lgBcnt hg hroom.addr hinit hcopy (by rw [hT]; exact hroom.room) hle
  exact ⟨hfree, free_eq h hfree, by rw [hcount, ← hT]; exact hadd⟩

end Needs

/-! ## The condition on the settings -/

/-- The settings cut the device into full groups with room: the device ends
    with a full group, or with a remainder that is too short for the metadata
    of a group and leaves the descriptor table as it is. -/
structure Regular (info : MkfsInfo) : Prop where
  rest : info.blocks % info.blocksPerGroup = 0 ∨
    info.first < info.blocks % info.blocksPerGroup ∧
      info.blocks % info.blocksPerGroup < 2 + info.tableBlocks +
        if info.hasSuperblock (info.blocks / info.blocksPerGroup) then
          1 + info.descBlocks (info.blocks / info.blocksPerGroup + 1) else 0
  desc : info.blocks % info.blocksPerGroup ≠ 0 →
    info.descBlocks (info.blocks / info.blocksPerGroup + 1) =
      info.descBlocks (info.blocks / info.blocksPerGroup)
  table : info.blockSize ∣ info.inodesPerGroup * info.inodeSize
  table_lt : info.inodesPerGroup * info.inodeSize < 2 ^ 32
  roomy : info.Roomy (info.blocks / info.blocksPerGroup)

theorem Sized.blocks_lt (h : info.Sized) : info.blocks < 2 ^ 54 := by
  obtain ⟨hlo, -, -, -, -⟩ := h.bs_facts
  have hlen := h.len_lt
  rw [blocks, Nat.div_lt_iff_lt_mul (by omega)]
  have := Nat.mul_le_mul_left (2 ^ 54) hlo
  omega

/-- The number of groups, in numbers. -/
theorem allGroups_eq (h : info.Sized) (hpos : info.first ≤ info.blocks) : info.allGroups =
    (info.blocks - info.first + (info.blocksPerGroup - 1)) / info.blocksPerGroup % 2 ^ 32 := by
  have hb := h.bpg_lt
  have hlt := h.blocks_lt
  rw [allGroups, divRoundUp64, sub64_of_le hpos (by omega), u64_of_lt (by omega), u32]

/-- The number of groups from quotient and remainder. -/
theorem roundUp_eq {n f b : ℕ} (hf : f ≤ 1) (hb : 1 < b) (hn : f ≤ n) :
    (n - f + (b - 1)) / b = n / b + if f < n % b then 1 else 0 := by
  have hdm := Nat.div_add_mod n b
  have hml := Nat.mod_lt n (show 0 < b by omega)
  generalize n / b = q at *
  by_cases hr : f < n % b
  · rw [if_pos hr, show n - f + (b - 1) = b * (q + 1) + (n % b - f - 1) by rw [Nat.mul_succ]; omega,
      Nat.mul_add_div (by omega), Nat.div_eq_of_lt (by omega)]
  · rw [if_neg hr, show n - f + (b - 1) = b * q + (b - 1 + n % b - f) by omega,
      Nat.mul_add_div (by omega), Nat.div_eq_of_lt (by omega)]

/-- The groups of a well-formed file system are full. -/
structure Cut (info : MkfsInfo) (k : ℕ) : Prop where
  quot : info.blocks / info.blocksPerGroup = k
  full : info.Full k
  rest : info.blocks % info.blocksPerGroup = 0 ∨
    info.first < info.blocks % info.blocksPerGroup ∧
      info.blocks % info.blocksPerGroup < 2 + info.tableBlocks +
        if info.hasSuperblock k then 1 + info.descBlocks (k + 1) else 0
  desc : info.blocks % info.blocksPerGroup ≠ 0 → info.descBlocks (k + 1) = info.descBlocks k

section Needs

variable {disk : ℕ → Bmap} {bg : ℕ → BGroup} {lgBcnt : ℕ}

section Cut

variable (h : info.Sized) (hk : info.createFsAuxInfo.groups = k) (hk0 : 0 < k)
  (hsmall : k < 2 ^ 26) (hlt : (k - 1) * info.blocksPerGroup < info.createFsAuxInfo.lenBlocks)
  (hle : info.createFsAuxInfo.lenBlocks ≤ k * info.blocksPerGroup)
  (hcnt : info.fillSb.blockGroupCnt = k) (hinit : info.fillSb.initTable = info.tableBlocks)
  (ht : info.tableBlocks32 = info.tableBlocks) (hc : ∀ g < k, info.GroupCount k g)

include h hk hk0 hsmall hcnt ht hc in
/-- The count of a group: what is missing at its end, and descriptor blocks
    too many, must balance. -/
theorem group_balance {g : ℕ} (hg : g < k) : info.blocksPerGroup +
    (if info.hasSuperblock g then 1 + info.descBlocks k else 0) =
    info.fillSb.groupLen g + (if g + 1 = k then info.first else 0) +
      (if info.hasSuperblock g then 1 + info.descBlocks32 else 0) := by
  obtain ⟨-, htaken, hl⟩ := hc g hg
  rw [taken, aux_table, aux_desc, ht, hk, sub32_of_le (by omega) (by omega)] at htaken
  rw [copyBlocks_eq h, hcnt] at hl
  have hlast : (if g = k - 1 then info.first else 0) = if g + 1 = k then info.first else 0 :=
    if_congr (by omega) rfl rfl
  rw [hlast] at htaken
  omega

theorem rest_eq (h : info.Sized) :
    u32 (info.blocks % info.blocksPerGroup) = info.blocks % info.blocksPerGroup := by
  have hbl := h.bpg_lt
  have hml := Nat.mod_lt info.blocks h.bpg_pos
  exact u32_of_lt (by omega)

include h hk hk0 hsmall hlt hle hcnt hinit ht hc in
/-- The remainder is dropped: all groups are full, and as many descriptor
    blocks are written as without it. -/
theorem cut_of_drops (hb : 1 < info.blocksPerGroup) (hd : info.Drops) : info.Cut k := by
  have hfirst := info.first_le
  have hbl := h.bpg_lt
  have hblocks := h.blocks_lt
  have hlen := Nat.div_add_mod info.blocks info.blocksPerGroup
  have hml := Nat.mod_lt info.blocks h.bpg_pos
  rw [Nat.mul_comm] at hlen
  have haux := info.aux_eq
  rw [if_pos hd, rest_eq h] at haux
  have hlenb : info.createFsAuxInfo.lenBlocks =
      info.blocks / info.blocksPerGroup * info.blocksPerGroup := by
    rw [haux]
    dsimp only
    omega
  rw [hlenb] at hlt hle
  have hq : info.blocks / info.blocksPerGroup = k := by
    have h1 := Nat.lt_of_mul_lt_mul_right hlt
    have h2 := Nat.le_of_mul_le_mul_right hle h.bpg_pos
    omega
  obtain ⟨hrest0, hrestlt⟩ := hd
  rw [rest_eq h] at hrest0 hrestlt
  have hall : info.allGroups = k + 1 := by
    rw [haux] at hk
    change sub32 info.allGroups 1 = k at hk
    have hu : info.allGroups < 2 ^ 32 := u32_lt _
    unfold sub32 at hk
    omega
  have hdesc : info.descBlocks32 = info.descBlocks (k + 1) := by
    rw [descBlocks32_eq h (by omega), hall]
  have hfk : info.first < info.blocks % info.blocksPerGroup := by
    rw [allGroups_eq h (by omega), roundUp_eq hfirst hb (by omega), hq] at hall
    by_contra hn
    rw [if_neg hn] at hall
    omega
  have hgk : info.descBlocks32 = info.descBlocks k := by
    have h0 := group_balance h hk hk0 hsmall hcnt ht hc hk0
    rw [if_pos (hasSuperblock_zero info), if_pos (hasSuperblock_zero info)] at h0
    have hlen0 : info.fillSb.groupLen 0 + (if 0 + 1 = k then info.first else 0) =
        info.blocksPerGroup := by
      rw [groupLen_eq, fillSb_len, hlenb, hq]
      by_cases hk1 : k = 1
      · rw [if_pos (by omega), hk1]
        omega
      · have := Nat.mul_le_mul_right info.blocksPerGroup (show 2 ≤ k by omega)
        rw [if_neg (by omega)]
        omega
    omega
  refine ⟨hq, ⟨hk, ?_, ?_, ?_, hinit⟩, .inr ⟨hfk, ?_⟩, fun _ => by rw [← hdesc, hgk]⟩
  · rw [hlenb, hq]
  · rw [aux_desc, hgk]
  · rw [aux_table, ht]
  · have htl := h.aux_lt
    rw [aux_table, aux_desc] at htl
    rw [hall, sub32_of_le (by omega) (by omega), Nat.add_sub_cancel, h.reserve,
      u32_of_lt (n := 2 + info.tableBlocks32) (by omega), u32_of_lt (by omega), ht] at hrestlt
    rw [← hdesc]
    split_ifs at hrestlt ⊢ <;> omega

include h hk hk0 hsmall hlt hle hcnt hinit ht hc in
/-- Every block is in a group: there is no remainder. -/
theorem cut_of_whole (hd : ¬ info.Drops) : info.Cut k := by
  have hfirst := info.first_le
  have haux := info.aux_eq
  rw [if_neg hd] at haux
  have hlenb : info.createFsAuxInfo.lenBlocks = info.blocks := by rw [haux]
  have hall : info.allGroups = k := by rwa [haux] at hk
  have hdesc : info.descBlocks32 = info.descBlocks k := by
    rw [descBlocks32_eq h (by omega), hall]
  -- the last group is full
  have hl := group_balance h hk hk0 hsmall hcnt ht hc (show k - 1 < k by omega)
  rw [if_pos (show k - 1 + 1 = k by omega), groupLen_eq, fillSb_len, hlenb, hdesc] at hl
  rw [hlenb] at hlt hle
  have hkm : k * info.blocksPerGroup = (k - 1) * info.blocksPerGroup + info.blocksPerGroup := by
    rw [← Nat.succ_mul, Nat.succ_eq_add_one, Nat.sub_add_cancel hk0]
  have hn : info.blocks = k * info.blocksPerGroup := by omega
  have hmod : info.blocks % info.blocksPerGroup = 0 := by rw [hn, Nat.mul_mod_left]
  refine ⟨by rw [hn, Nat.mul_div_cancel _ h.bpg_pos], ⟨hk, ?_, ?_, ?_, hinit⟩, .inl hmod,
    fun hne => absurd hmod hne⟩
  · rw [hlenb, hn]
  · rw [aux_desc, hdesc]
  · rw [aux_table, ht]

include h hk hk0 hsmall hlt hle hcnt hinit ht hc in
/-- The counts of the first and of the last group leave no room for a short
    group or for descriptor blocks too many. -/
theorem cut_of_counts (hb : 1 < info.blocksPerGroup) : info.Cut k := by
  by_cases hd : info.Drops
  · exact cut_of_drops h hk hk0 hsmall hlt hle hcnt hinit ht hc hb hd
  · exact cut_of_whole h hk hk0 hsmall hlt hle hcnt hinit ht hc hd

end Cut

/-- **A well-formed file system has regular settings**, if it has blocks at
    all. -/
theorem regular_of_layoutOk (h : info.Sized) (hpos : 0 < info.fillSb.blocksCount)
    (hok : info.LayoutOk (info.mkfsInit disk bg lgBcnt)) : info.Regular := by
  have hsb : (info.mkfsInit disk bg lgBcnt).sb = info.fillSb := mkfsInit_sb disk bg lgBcnt
  have hfirst := info.first_le
  have hcov := hok.covers
  have hgroups := hok.groups
  rw [hsb] at hcov hgroups
  obtain ⟨hk0, hlt, hle⟩ := groupCnt_spec (s := info.fillSb) h.bpg_pos hpos
    (by rwa [fillSb_first]) (by rwa [fillSb_first, ← hgroups])
  have hklt := info.groups_lt
  rw [← hgroups] at hk0 hlt hle
  generalize hk : info.createFsAuxInfo.groups = k at *
  have hroom (g : ℕ) (hg : g < k) := hok.groupRoom h (hk ▸ hg)
  have hinit (g : ℕ) (hg : g < k) : info.fillSb.initBlocks g = info.fillSb.groupLen g :=
    initBlocks_eq h.bpg_lt (by rwa [fillSb_first]) (hgroups ▸ hk0) (hgroups ▸ hklt)
      (hgroups ▸ hlt) (hgroups ▸ hle) (hgroups ▸ hg)
  have hcopy (g : ℕ) (hg : g < k) : info.fillSb.copyBlocks g ≤ info.bitmapIdx g := by
    have hdesc := (hroom g hg).desc
    rw [copyBlocks_eq h, ← hgroups]
    rw [superBlocks, hk] at hdesc
    split_ifs at hdesc ⊢ <;> omega
  have hT := hok.table h (hk ▸ hk0) (hinit 0 hk0) (hcopy 0 hk0)
  obtain ⟨hdvd, hxlt⟩ := (tableBlocks_iff h).1 hT.ge
  have hcount (g : ℕ) (hg : g < k) : info.GroupCount k g :=
    hok.groupCount h (hk ▸ hg) (hinit g hg) (hcopy g hg) hT
  have hgl (g : ℕ) : info.fillSb.groupLen g ≤ info.blocksPerGroup := Nat.min_le_left _ _
  have hsmall : k < 2 ^ 26 := by
    have hdesc := (hroom 0 hk0).desc
    have hr := (hroom 0 hk0).room
    have haddr := (hroom (k - 1) (by omega)).addr
    have := hgl 0
    rw [hk] at hdesc
    rw [base] at haddr
    exact groups_small h (by omega) (by omega)
  have hb : 1 < info.blocksPerGroup := by
    have := (hroom 0 hk0).room
    have := hgl 0
    omega
  have hcut := cut_of_counts h hk hk0 hsmall hlt hle hgroups.symm hT
    (tableBlocks32_eq h hdvd hxlt) hcount hb
  obtain ⟨rfl, hfull, hrest, hdesc⟩ := hcut
  refine ⟨hrest, hdesc, hdvd, hxlt, hk0, fun g hg => ?_, fun g hg => ?_, fun g hg => ?_,
    fun g hg => ?_, fun g hg => (hroom g hg).copy⟩
  · rw [← hfull.groupLen_eq hg, ← hfull.bitmapIdx_eq]
    exact (hroom g hg).room
  · have hbits := hok.bits g (hk ▸ hg)
    rwa [hsb, hfull.groupLen_eq hg] at hbits
  · obtain ⟨hfree, -, hlen⟩ := hcount g hg
    rw [hfull.groupLen_eq hg, hfull.copyBlocks_eq h hklt] at hlen
    omega
  · rw [← hfull.bitmapIdx_eq]
    exact (hroom g hg).addr

/-- Regular settings cut the device into full groups. -/
theorem Regular.full (hr : info.Regular) (h : info.Sized) :
    info.Full (info.blocks / info.blocksPerGroup) ∧
      info.blocks / info.blocksPerGroup < 2 ^ 26 := by
  obtain ⟨hrest, hdesc, hdvd, hxlt, hroomy⟩ := hr
  have hfirst := info.first_le
  have hbl := h.bpg_lt
  have hlen := Nat.div_add_mod info.blocks info.blocksPerGroup
  have hml := Nat.mod_lt info.blocks h.bpg_pos
  rw [Nat.mul_comm] at hlen
  generalize hk : info.blocks / info.blocksPerGroup = k at *
  have hk0 := hroomy.pos
  have hsize (g : ℕ) : info.size k g ≤ info.blocksPerGroup := by
    rw [size]
    split_ifs <;> omega
  have hroom0 := hroomy.room 0 hk0
  have hsize0 := hsize 0
  rw [place] at hroom0
  have hsmall : k < 2 ^ 26 := by
    have haddr := hroomy.addr (k - 1) (by omega)
    rw [base] at haddr
    exact groups_small h (by omega) (by omega)
  have hb : 1 < info.blocksPerGroup := by omega
  have hn : info.first ≤ info.blocks := by
    have := Nat.mul_le_mul_right info.blocksPerGroup (show 1 ≤ k by omega)
    omega
  have hall : info.allGroups = k + if info.first < info.blocks % info.blocksPerGroup then 1 else 0 := by
    rw [allGroups_eq h hn, roundUp_eq hfirst hb hn, hk]
    exact Nat.mod_eq_of_lt (by split_ifs <;> omega)
  have ht := tableBlocks32_eq h hdvd hxlt
  have hinit : info.fillSb.initTable = info.tableBlocks :=
    Nat.le_antisymm (initTable_le h) ((tableBlocks_iff h).2 ⟨hdvd, hxlt⟩)
  have hrest32 : u32 (info.blocks % info.blocksPerGroup) = info.blocks % info.blocksPerGroup :=
    u32_of_lt (by omega)
  refine ⟨?_, hsmall⟩
  obtain hrest | ⟨hrest, hheader⟩ := hrest
  · have hd : ¬ info.Drops := by
      rintro ⟨h0, -⟩
      omega
    have haux := info.aux_eq
    rw [if_neg hd] at haux
    rw [if_neg (by omega), Nat.add_zero] at hall
    refine ⟨?_, ?_, ?_, ?_, hinit⟩
    · rw [haux, hall]
    · rw [haux]
      dsimp only
      omega
    · rw [aux_desc, descBlocks32_eq h (by omega), hall]
    · rw [aux_table, ht]
  · rw [if_pos hrest] at hall
    have hd32 : info.descBlocks32 = info.descBlocks (k + 1) := by
      rw [descBlocks32_eq h (by omega), hall]
    have htl := h.aux_lt
    rw [aux_table, aux_desc] at htl
    have hd : info.Drops := by
      refine ⟨by omega, ?_⟩
      rw [hrest32, hall, sub32_of_le (by omega) (by omega), Nat.add_sub_cancel, h.reserve,
        u32_of_lt (n := 2 + info.tableBlocks32) (by omega), u32_of_lt (by omega), ht, hd32]
      split_ifs at hheader ⊢ <;> omega
    have haux := info.aux_eq
    rw [if_pos hd, hrest32] at haux
    refine ⟨?_, ?_, ?_, ?_, hinit⟩
    · rw [haux, hall]
      dsimp only
      rw [sub32_of_le (by omega) (by omega), Nat.add_sub_cancel]
    · rw [haux]
      dsimp only
      omega
    · rw [aux_desc, hd32, hdesc (by omega)]
    · rw [aux_table, ht]

theorem layoutOk_of_regular (h : info.Sized) (hr : info.Regular) (disk : ℕ → Bmap)
    (bg : ℕ → BGroup) (lgBcnt : ℕ) : info.LayoutOk (info.mkfsInit disk bg lgBcnt) := by
  obtain ⟨hfull, hk⟩ := hr.full h
  exact layoutOk_of_full disk bg lgBcnt h hfull hr.roomy (Nat.div_mul_le_self _ _) (by omega)

end Needs

/-! ## The settings a caller gives -/

/-- The settings a caller may give: 0 leaves one open, the block size is one of
    the format, and the descriptor size is left open. -/
structure Given (info : MkfsInfo) : Prop where
  blockSize : info.blockSize = 0 ∨ ∃ e ≤ 6, info.blockSize = 1024 <<< e
  bpg : info.blocksPerGroup < 2 ^ 32
  len : info.len < 2 ^ 64
  dsc : info.dscSize = 0

theorem Given.sized (hi : info.Given) {partSize : ℕ} (hp : partSize < 2 ^ 64)
    (fsType : Option FsType) : (info.ext4MkfsInfo partSize fsType).Sized := by
  have hbs : ∃ e ≤ 6, (if info.blockSize = 0 then 4096 else info.blockSize) = 1024 <<< e := by
    obtain h0 | ⟨e, he, hbs⟩ := hi.blockSize
    · exact ⟨2, by decide, by rw [if_pos h0]; rfl⟩
    · have hpos : ∀ e ≤ 6, 1024 <<< e ≠ 0 := by decide
      exact ⟨e, he, by rw [if_neg (hbs ▸ hpos e he), hbs]⟩
  refine ⟨hbs, ?_, ?_, ?_, ?_, rfl⟩
  · change 0 < if info.blocksPerGroup = 0 then u32 (_ * 8) else info.blocksPerGroup
    obtain ⟨e, he, hbs⟩ := hbs
    have hpos : ∀ e ≤ 6, 0 < 1024 <<< e * 8 ∧ 1024 <<< e * 8 < 2 ^ 32 := by decide
    rw [hbs]
    by_cases h0 : info.blocksPerGroup = 0
    · rw [if_pos h0, u32_of_lt (hpos e he).2]
      exact (hpos e he).1
    · rw [if_neg h0]
      exact Nat.pos_of_ne_zero h0
  · change (if info.blocksPerGroup = 0 then u32 (_ * 8) else info.blocksPerGroup) < _
    by_cases h0 : info.blocksPerGroup = 0
    · rw [if_pos h0]
      exact u32_lt _
    · rw [if_neg h0]
      exact hi.bpg
  · refine Nat.lt_of_le_of_lt (Nat.div_mul_le_self _ _) ?_
    split_ifs
    · exact hp
    · exact hi.len
  · change (if info.dscSize = 0 then 32 else info.dscSize) = 32
    rw [if_pos hi.dsc]

/-- **mkfs lays out a well-formed file system** exactly for regular settings,
    on every device, if mounting it finds a valid superblock. -/
theorem mkfs_layout_iff (hi : info.Given) {partSize : ℕ} (hp : partSize < 2 ^ 64)
    (fsType : Option FsType) (hsb : (info.ext4MkfsInfo partSize fsType).fillSb.sbCheck = true)
    (disk : ℕ → Bmap) (bg : ℕ → BGroup) (lgBcnt : ℕ) :
    (info.ext4MkfsInfo partSize fsType).LayoutOk
        ((info.ext4MkfsInfo partSize fsType).mkfsInit disk bg lgBcnt) ↔
      (info.ext4MkfsInfo partSize fsType).Regular := by
  have h := hi.sized hp fsType
  have hpos : 0 < (info.ext4MkfsInfo partSize fsType).fillSb.blocksCount := by
    simp only [SBlock.sbCheck, Bool.and_eq_true, decide_eq_true_eq] at hsb
    omega
  constructor
  · exact regular_of_layoutOk h hpos
  · intro hr
    exact layoutOk_of_regular h hr disk bg lgBcnt

/-- Settings that leave everything open but the block size. -/
def plain (blockSize : ℕ) : MkfsInfo where
  len := 0
  blockSize := blockSize
  blocksPerGroup := 0
  inodesPerGroup := 0
  inodeSize := 0
  inodes := 0
  bgDescReserveBlocks := 0
  dscSize := 0
  sparseSuper := false

theorem plain_given : (plain 4096).Given :=
  ⟨.inr ⟨2, by decide, rfl⟩, by decide, by decide, rfl⟩

/-- A device of zeros. -/
def zeroDisk : ℕ → Bmap := fun _ _ => 0#8

def zeroBg : ℕ → BGroup := fun _ => ⟨0, 0, 0, 0, 0, false, false, false⟩

/-- A device of two groups, the second one with a backup, and 100 blocks that are left over. -/
theorem mkfs_layout_iff_groups :
    ((plain 4096).ext4MkfsInfo (65636 * 4096) (some .ext4)).LayoutOk
      (((plain 4096).ext4MkfsInfo (65636 * 4096) (some .ext4)).mkfsInit zeroDisk zeroBg 65636) :=
  (mkfs_layout_iff plain_given (by decide) (some .ext4) (by decide +kernel) zeroDisk zeroBg 65636).2
    ⟨by decide +kernel, by decide +kernel, by decide +kernel, by decide +kernel,
      by decide +kernel, by decide +kernel, by decide +kernel, by decide +kernel, by decide +kernel,
      by decide +kernel⟩

/-- **A device of 40000 blocks** ends with a group of 7232 blocks that mkfs
    counts as full. -/
theorem mkfs_miscounts : ¬ ∀ (info : MkfsInfo) (partSize : ℕ) (fsType : Option FsType)
    (disk : ℕ → Bmap) (bg : ℕ → BGroup) (lgBcnt : ℕ), info.Given → partSize < 2 ^ 64 →
      (info.ext4MkfsInfo partSize fsType).fillSb.sbCheck = true →
        (info.ext4MkfsInfo partSize fsType).LayoutOk
          ((info.ext4MkfsInfo partSize fsType).mkfsInit disk bg lgBcnt) := by
  intro hall
  have hok := hall (plain 4096) (40000 * 4096) (some .ext4) zeroDisk zeroBg 40000
    plain_given (by decide) (by decide +kernel)
  have hr := (regular_of_layoutOk (plain_given.sized (by decide) (some .ext4)) (by decide +kernel) hok).rest
  exact absurd hr (by decide +kernel)

end MkfsInfo

end Lwext4
