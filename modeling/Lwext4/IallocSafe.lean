/-
  What the calls of the inode allocator do to the counts.

  `ISafe` states the counts of a file system, given which inodes are
  directories.  A call changes one bit of one group and the counters of that
  group (`IUpdated`), so it is enough to look at one group (`GroupSafe.take`,
  `GroupSafe.release`).
-/
import Lwext4.IallocInv

namespace Lwext4

open Lib Fs

/-! ## Geometry -/

namespace SBlock

/-- A group holds `inodes_per_group` inodes, the last one what is left. -/
structure InodeGeometry (s : SBlock) : Prop where
  ipg_pos : 0 < s.inodesPerGroup
  cnt_pos : 0 < s.blockGroupCnt
  count_ge : (s.blockGroupCnt - 1) * s.inodesPerGroup ≤ s.inodesCount
  count_le : s.inodesCount ≤ s.blockGroupCnt * s.inodesPerGroup
  count_lt : s.inodesCount < 2 ^ 32

/-- The number of an inode. -/
def inodeNo (s : SBlock) (g i : ℕ) : ℕ := g * s.inodesPerGroup + i + 1

variable {s : SBlock} {g i : ℕ}

theorem blockGroupCnt_lt (s : SBlock) : s.blockGroupCnt < 2 ^ 32 := by
  unfold blockGroupCnt
  simp only
  split_ifs <;> exact u32_lt _

theorem InodeGeometry.inodesInGroupCnt_eq (h : s.InodeGeometry) (hg : g < s.blockGroupCnt) :
    s.inodesInGroupCnt g = min s.inodesPerGroup (s.inodesCount - g * s.inodesPerGroup) := by
  have hcnt := s.blockGroupCnt_lt
  have hpos := h.cnt_pos
  have hge := h.count_ge
  have hle := h.count_le
  have hlt := h.count_lt
  unfold inodesInGroupCnt
  rw [sub32_of_le hpos hcnt]
  split_ifs with hlast
  · have hmul : (g + 1) * s.inodesPerGroup ≤ (s.blockGroupCnt - 1) * s.inodesPerGroup :=
      Nat.mul_le_mul_right _ (by omega)
    rw [Nat.succ_mul] at hmul
    omega
  · have hlast : s.blockGroupCnt = g + 1 := by omega
    rw [hlast, Nat.add_sub_cancel] at hge
    rw [hlast, Nat.succ_mul] at hle
    rw [hlast, Nat.add_sub_cancel, u32_of_lt (by omega), sub32_of_le hge hlt]
    omega

theorem InodeGeometry.cnt_le (h : s.InodeGeometry) (hg : g < s.blockGroupCnt) :
    s.inodesInGroupCnt g ≤ s.inodesPerGroup ∧
      g * s.inodesPerGroup + s.inodesInGroupCnt g ≤ s.inodesCount := by
  have hmul : g * s.inodesPerGroup ≤ (s.blockGroupCnt - 1) * s.inodesPerGroup :=
    Nat.mul_le_mul_right _ (by omega)
  have hge := h.count_ge
  rw [h.inodesInGroupCnt_eq hg]
  omega

/-- An inode number gives back its group and index. -/
theorem InodeGeometry.locate (h : s.InodeGeometry) (hg : g < s.blockGroupCnt)
    (hi : i < s.inodesInGroupCnt g) : s.iallocGetBgidOfInode (s.inodeNo g i) = g ∧
      s.iallocInodeToBgidx (s.inodeNo g i) = i := by
  obtain ⟨hle, hsum⟩ := h.cnt_le hg
  have hlt := h.count_lt
  have hsub : sub32 (s.inodeNo g i) 1 = i + s.inodesPerGroup * g := by
    unfold inodeNo
    rw [sub32_of_le (by omega) (by omega), Nat.mul_comm g]
    omega
  unfold iallocGetBgidOfInode iallocInodeToBgidx
  rw [hsub, Nat.add_mul_div_left _ _ h.ipg_pos, Nat.add_mul_mod_self_left,
    Nat.div_eq_of_lt (by omega), Nat.mod_eq_of_lt (by omega), Nat.zero_add]
  exact ⟨rfl, rfl⟩

theorem InodeGeometry.inodeNo_inj (h : s.InodeGeometry) {g' i' : ℕ} (hg : g < s.blockGroupCnt)
    (hi : i < s.inodesInGroupCnt g) (hg' : g' < s.blockGroupCnt) (hi' : i' < s.inodesInGroupCnt g')
    (he : s.inodeNo g i = s.inodeNo g' i') : g = g' ∧ i = i' := by
  obtain ⟨h1, h2⟩ := h.locate hg hi
  obtain ⟨h3, h4⟩ := h.locate hg' hi'
  rw [he] at h1 h2
  exact ⟨h1.symm.trans h3, h2.symm.trans h4⟩

theorem InodeGeometry.bgidxToInode (h : s.InodeGeometry) (hg : g < s.blockGroupCnt)
    (hi : i < s.inodesInGroupCnt g) : s.iallocBgidxToInode i g = s.inodeNo g i := by
  obtain ⟨-, hsum⟩ := h.cnt_le hg
  have hlt := h.count_lt
  rw [iallocBgidxToInode, u32_of_lt (by omega), inodeNo, Nat.add_assoc]

/-- The groups together hold all inodes. -/
theorem InodeGeometry.sum_le (h : s.InodeGeometry) :
    ∑ g ∈ Finset.range s.blockGroupCnt, s.inodesInGroupCnt g ≤ s.inodesCount := by
  have hsum : ∀ n ≤ s.blockGroupCnt, ∑ g ∈ Finset.range n, s.inodesInGroupCnt g ≤
      min (n * s.inodesPerGroup) s.inodesCount := by
    intro n hn
    induction n with
    | zero => simp
    | succ n ih =>
      have ih := ih (by omega)
      rw [Finset.sum_range_succ, h.inodesInGroupCnt_eq (by omega), Nat.succ_mul]
      omega
  exact (hsum _ le_rfl).trans (Nat.min_le_right ..)

end SBlock

/-! ## Counters -/

section Counters

variable {s : SBlock}

theorem SplitCount.get_set (c : SplitCount) {cnt : ℕ} (h : s.Fits cnt) : (c.set s cnt).get s = cnt := by
  unfold SplitCount.get SplitCount.set
  unfold SBlock.Fits at h
  by_cases hd : 32 < s.getDescSize
  · simp only [hd, if_true, BitVec.toNat_ofNat]
    omega
  · simp only [hd, if_false, BitVec.toNat_ofNat]
    omega

/-- A smaller count than a stored one can be stored. -/
theorem SplitCount.fits_le (c : SplitCount) {cnt : ℕ} (h : cnt ≤ c.get s) : s.Fits cnt := by
  have hlo := c.lo.isLt
  have hhi := c.hi.isLt
  unfold SplitCount.get at h
  unfold SBlock.Fits
  split_ifs at h with hd <;> omega

variable (bg : IGroup) (cnt : ℕ)

@[simp] theorem IGroup.getFree_setUsed :
    (bg.setUsedDirsCount s cnt).getFreeInodesCount s = bg.getFreeInodesCount s :=
  congrArg (SplitCount.get · s) (Eq.refl bg.freeInodesCount)

@[simp] theorem IGroup.getFree_setUnused :
    (bg.setItableUnused s cnt).getFreeInodesCount s = bg.getFreeInodesCount s :=
  congrArg (SplitCount.get · s) (Eq.refl bg.freeInodesCount)

@[simp] theorem IGroup.getUsed_setFree :
    (bg.setFreeInodesCount s cnt).getUsedDirsCount s = bg.getUsedDirsCount s :=
  congrArg (SplitCount.get · s) (Eq.refl bg.usedDirsCount)

@[simp] theorem IGroup.getUsed_setUnused :
    (bg.setItableUnused s cnt).getUsedDirsCount s = bg.getUsedDirsCount s :=
  congrArg (SplitCount.get · s) (Eq.refl bg.usedDirsCount)

@[simp] theorem IGroup.getUnused_setFree :
    (bg.setFreeInodesCount s cnt).getItableUnused s = bg.getItableUnused s :=
  congrArg (SplitCount.get · s) (Eq.refl bg.itableUnused)

@[simp] theorem IGroup.getUnused_setUsed :
    (bg.setUsedDirsCount s cnt).getItableUnused s = bg.getItableUnused s :=
  congrArg (SplitCount.get · s) (Eq.refl bg.itableUnused)

variable {cnt}

theorem IGroup.getFree_setFree (h : s.Fits cnt) :
    (bg.setFreeInodesCount s cnt).getFreeInodesCount s = cnt := bg.freeInodesCount.get_set h

theorem IGroup.getUsed_setUsed (h : s.Fits cnt) :
    (bg.setUsedDirsCount s cnt).getUsedDirsCount s = cnt := bg.usedDirsCount.get_set h

theorem IGroup.getUnused_setUnused (h : s.Fits cnt) :
    (bg.setItableUnused s cnt).getItableUnused s = cnt := bg.itableUnused.get_set h

end Counters

/-- The number of directories among the first `n` inodes of group `g`. -/
def dirCount (s : SBlock) (dirs : ℕ → Bool) (g n : ℕ) : ℕ :=
  ((Finset.range n).filter fun i => dirs (s.inodeNo g i) = true).card

/-- The counters of group `g` with bitmap `b`. -/
structure GroupSafe (s : SBlock) (dirs : ℕ → Bool) (g : ℕ) (b : Bmap) (bg : IGroup) : Prop where
  free : bg.getFreeInodesCount s = clearBits b (s.inodesInGroupCnt g)
  used : bg.getUsedDirsCount s = dirCount s dirs g (s.inodesInGroupCnt g)
  dirs_set : ∀ i < s.inodesInGroupCnt g, dirs (s.inodeNo g i) = true → bmapIsBitSet b i = true
  unused_le : bg.getItableUnused s ≤ s.inodesInGroupCnt g
  unused : ∀ i < s.inodesInGroupCnt g, s.inodesInGroupCnt g - bg.getItableUnused s ≤ i →
    bmapIsBitSet b i = false

/-- Every group counts its free inodes and its directories, `dirs`; the inodes
    past its unused boundary are free; the superblock counts all free inodes;
    and the search starts at a group of the table. -/
structure ISafe (fs : IFs) (dirs : ℕ → Bool) : Prop where
  geo : fs.sb.InodeGeometry
  layout : fs.toFs.ILayout
  last : fs.lastInodeBgId < fs.sb.blockGroupCnt
  group : ∀ g < fs.sb.blockGroupCnt, GroupSafe fs.sb dirs g (fs.toFs.inodeMap g) (fs.ibg g)
  total : fs.freeInodesCount =
    ∑ g ∈ Finset.range fs.sb.blockGroupCnt, (fs.ibg g).getFreeInodesCount fs.sb

section Counts

variable {s : SBlock} {dirs : ℕ → Bool} {g idx n : ℕ} {b : Bmap} {bg : IGroup}

/-- Clearing a set bit adds one to the count. -/
theorem clearBits_bitClr (hi : idx < n) (hs : bmapIsBitSet b idx = true) :
    clearBits (bmapBitClr b idx) n = clearBits b n + 1 := by
  refine clearBits_cleared (clearedFrom_bitClr b idx) hi fun k h1 h2 => ?_
  rwa [show k = idx by omega]

/-- An inode of another group is none of this one. -/
theorem dirCount_of_ne (h : s.InodeGeometry) (hg : g < s.blockGroupCnt) {g' : ℕ} (hg' : g' < s.blockGroupCnt)
    (hne : g' ≠ g) (hi : idx < s.inodesInGroupCnt g) (v : Bool) :
    ∀ i < s.inodesInGroupCnt g', Function.update dirs (s.inodeNo g idx) v (s.inodeNo g' i) =
      dirs (s.inodeNo g' i) := by
  intro i hi'
  refine Function.update_of_ne (fun he => ?_) ..
  exact hne (h.inodeNo_inj hg' hi' hg hi he).1

theorem dirs_of_ne (h : s.InodeGeometry) (hg : g < s.blockGroupCnt) (hi : idx < s.inodesInGroupCnt g) (v : Bool)
    {i : ℕ} (hi' : i < s.inodesInGroupCnt g) (hne : i ≠ idx) :
    Function.update dirs (s.inodeNo g idx) v (s.inodeNo g i) = dirs (s.inodeNo g i) := by
  refine Function.update_of_ne (fun he => ?_) ..
  exact hne (h.inodeNo_inj hg hi' hg hi he).2

/-- The directories without the inode at `idx`. -/
theorem dirCount_update (h : s.InodeGeometry) (hg : g < s.blockGroupCnt)
    (hi : idx < s.inodesInGroupCnt g) (v : Bool) :
    dirCount s (Function.update dirs (s.inodeNo g idx) v) g (s.inodesInGroupCnt g) +
        (if dirs (s.inodeNo g idx) then 1 else 0) =
      dirCount s dirs g (s.inodesInGroupCnt g) + if v then 1 else 0 := by
  unfold dirCount
  simp only [Finset.card_filter]
  have hmem : idx ∈ Finset.range (s.inodesInGroupCnt g) := Finset.mem_range.2 hi
  rw [← Finset.add_sum_erase _ _ hmem, ← Finset.add_sum_erase _ _ hmem]
  have hrest : ∑ i ∈ (Finset.range (s.inodesInGroupCnt g)).erase idx,
      (if Function.update dirs (s.inodeNo g idx) v (s.inodeNo g i) = true then 1 else 0) =
      ∑ i ∈ (Finset.range (s.inodesInGroupCnt g)).erase idx, if dirs (s.inodeNo g i) = true then 1 else 0 := by
    refine Finset.sum_congr rfl fun i hmem => ?_
    obtain ⟨hne, hlt⟩ := Finset.mem_erase.1 hmem
    rw [dirs_of_ne h hg hi v (Finset.mem_range.1 hlt) hne]
  rw [hrest, Function.update_self]
  omega

theorem dirCount_le (s : SBlock) (dirs : ℕ → Bool) (g n : ℕ) : dirCount s dirs g n ≤ n := by
  have h := Finset.card_filter_le (Finset.range n) fun i => dirs (s.inodeNo g i) = true
  rwa [Finset.card_range] at h

/-- A change of one inode does not matter to the other groups. -/
theorem GroupSafe.other (hs : GroupSafe s dirs g b bg) {dirs' : ℕ → Bool}
    (hd : ∀ i < s.inodesInGroupCnt g, dirs' (s.inodeNo g i) = dirs (s.inodeNo g i)) :
      GroupSafe s dirs' g b bg := by
  refine { hs with used := ?_, dirs_set := ?_ }
  · rw [hs.used]
    unfold dirCount
    congr 1
    refine Finset.filter_congr fun i hi => ?_
    rw [hd i (Finset.mem_range.1 hi)]
  · intro i hi h
    exact hs.dirs_set i hi (by rwa [← hd i hi])

theorem takeInode_free {c : ℕ} (hc : sub32 (bg.getFreeInodesCount s) 1 = c) (hfit : s.Fits c) (isDir : Bool) :
    (takeInode s n idx isDir bg).getFreeInodesCount s = c := by
  unfold takeInode
  rw [hc]
  cases isDir with
  | false =>
    simp only [Bool.false_eq_true, if_false]
    split_ifs
    · rw [IGroup.getFree_setUnused, IGroup.getFree_setFree _ hfit]
    · rw [IGroup.getFree_setFree _ hfit]
  | true =>
    simp only [if_true]
    split_ifs
    · rw [IGroup.getFree_setUnused, IGroup.getFree_setUsed, IGroup.getFree_setFree _ hfit]
    · rw [IGroup.getFree_setUsed, IGroup.getFree_setFree _ hfit]

theorem takeInode_used {c : ℕ} {isDir : Bool} (hc : (if isDir then u32 (bg.getUsedDirsCount s + 1) else
    bg.getUsedDirsCount s) = c) (hfit : isDir = true → s.Fits c) :
    (takeInode s n idx isDir bg).getUsedDirsCount s = c := by
  cases isDir with
  | false =>
    rw [if_neg Bool.false_ne_true] at hc
    unfold takeInode
    simp only [Bool.false_eq_true, if_false]
    split_ifs
    · rw [IGroup.getUsed_setUnused, IGroup.getUsed_setFree, hc]
    · rw [IGroup.getUsed_setFree, hc]
  | true =>
    rw [if_pos rfl] at hc
    unfold takeInode
    simp only [if_true, hc]
    split_ifs
    · rw [IGroup.getUsed_setUnused, IGroup.getUsed_setUsed _ (hfit rfl)]
    · rw [IGroup.getUsed_setUsed _ (hfit rfl)]

theorem takeInode_unused (hle : bg.getItableUnused s ≤ n) (hi : idx < n) (hn : n < 2 ^ 32) (isDir : Bool) :
    (takeInode s n idx isDir bg).getItableUnused s =
      if n - bg.getItableUnused s ≤ idx then n - (idx + 1) else bg.getItableUnused s := by
  have hsub : sub32 n (bg.getItableUnused s) = n - bg.getItableUnused s := sub32_of_le hle hn
  have hnew : sub32 n (u32 (idx + 1)) = n - (idx + 1) := by
    rw [u32_of_lt (by omega), sub32_of_le hi hn]
  have hset : ∀ bg' : IGroup, bg'.getItableUnused s = bg.getItableUnused s →
      (if sub32 n (bg'.getItableUnused s) ≤ idx then bg'.setItableUnused s (sub32 n (u32 (idx + 1)))
        else bg').getItableUnused s =
      if n - bg.getItableUnused s ≤ idx then n - (idx + 1) else bg.getItableUnused s := by
    intro bg' hget
    rw [hget, hsub, hnew]
    split_ifs with hbound
    · have hfits : s.Fits (n - (idx + 1)) := by
        refine bg.itableUnused.fits_le ?_
        show _ ≤ bg.getItableUnused s
        omega
      exact bg'.getUnused_setUnused hfits
    · exact hget
  cases isDir with
  | false => exact hset _ (IGroup.getUnused_setFree ..)
  | true => exact hset _ ((IGroup.getUnused_setUsed ..).trans (IGroup.getUnused_setFree ..))

theorem releaseInode_free {c : ℕ} (hc : u32 (bg.getFreeInodesCount s + 1) = c) (hfit : s.Fits c)
    (isDir : Bool) :
    (releaseInode s isDir bg).getFreeInodesCount s = c := by
  unfold releaseInode
  cases isDir with
  | false =>
    simp only [Bool.false_eq_true, if_false]
    rw [hc, IGroup.getFree_setFree _ hfit]
  | true =>
    simp only [if_true]
    rw [IGroup.getFree_setUsed, hc, IGroup.getFree_setFree _ hfit]

theorem releaseInode_used {isDir : Bool} {c : ℕ} (hc : (if isDir then sub32 (bg.getUsedDirsCount s) 1 else
    bg.getUsedDirsCount s) = c) (hfit : s.Fits c) : (releaseInode s isDir bg).getUsedDirsCount s = c := by
  unfold releaseInode
  cases isDir with
  | false =>
    rw [if_neg Bool.false_ne_true] at hc
    simp only [Bool.false_eq_true, if_false]
    rw [IGroup.getUsed_setFree, hc]
  | true =>
    rw [if_pos rfl] at hc
    simp only [if_true]
    rw [IGroup.getUsed_setFree, hc, IGroup.getUsed_setUsed _ hfit]

theorem releaseInode_unused (isDir : Bool) : (releaseInode s isDir bg).getItableUnused s =
    bg.getItableUnused s := by
  unfold releaseInode
  cases isDir <;> simp only [Bool.false_eq_true, if_false, if_true, IGroup.getUnused_setFree,
    IGroup.getUnused_setUsed]

/-- The counters of a group **when an inode is allocated** in it. -/
theorem GroupSafe.take (h : s.InodeGeometry) (hg : g < s.blockGroupCnt) (hs : GroupSafe s dirs g b bg)
    (hi : idx < s.inodesInGroupCnt g) (hc : bmapIsBitSet b idx = false) (isDir : Bool)
    (hfit : isDir = true → s.Fits (bg.getUsedDirsCount s + 1)) :
    GroupSafe s (Function.update dirs (s.inodeNo g idx) isDir) g (bmapBitSet b idx)
      (takeInode s (s.inodesInGroupCnt g) idx isDir bg) := by
  obtain ⟨hn, hsum⟩ := h.cnt_le hg
  have hlt := h.count_lt
  have hpos := clearBits_pos hi hc
  have hle := clearBits_le b (s.inodesInGroupCnt g)
  have hndir : dirs (s.inodeNo g idx) = false := by
    by_contra hne
    rw [hs.dirs_set idx hi (by simpa using hne)] at hc
    exact Bool.noConfusion hc
  have hcount := @dirCount_update _ dirs _ _ h hg hi isDir
  rw [hndir] at hcount
  have hdle := dirCount_le s (Function.update dirs (s.inodeNo g idx) isDir) g (s.inodesInGroupCnt g)
  have hunle := hs.unused_le
  have hused' := hs.used
  have hfree : (takeInode s (s.inodesInGroupCnt g) idx isDir bg).getFreeInodesCount s =
      bg.getFreeInodesCount s - 1 := by
    have hpos' : 0 < bg.getFreeInodesCount s := by rwa [hs.free]
    have hlt' : bg.getFreeInodesCount s < 2 ^ 32 := by
      rw [hs.free]
      omega
    exact takeInode_free (sub32_of_le hpos' hlt') (bg.freeInodesCount.fits_le (Nat.sub_le ..)) isDir
  have hused : (takeInode s (s.inodesInGroupCnt g) idx isDir bg).getUsedDirsCount s =
      bg.getUsedDirsCount s + if isDir then 1 else 0 := by
    cases isDir with
    | false => exact takeInode_used (if_neg Bool.false_ne_true) fun h => absurd h Bool.false_ne_true
    | true =>
      refine takeInode_used ((if_pos rfl).trans ?_) fun _ => hfit rfl
      simp only [Bool.false_eq_true, if_false, if_true] at hcount
      exact u32_of_lt (by omega)
  have hunused := takeInode_unused hunle hi (show s.inodesInGroupCnt g < 2 ^ 32 by omega) isDir
  refine ⟨?_, ?_, ?_, ?_, ?_⟩
  · rw [hfree, clearBits_bitSet hi hc, hs.free]
  · rw [hused, hs.used]
    simp only [Bool.false_eq_true, if_false] at hcount
    omega
  · intro i hi' hd
    rw [isBitSet_bitSet]
    by_cases he : i = idx
    · simp [he]
    · rw [dirs_of_ne h hg hi isDir hi' he] at hd
      simp [hs.dirs_set i hi' hd]
  · rw [hunused]
    split_ifs <;> omega
  · intro i hi' hbound
    have hclear : s.inodesInGroupCnt g - bg.getItableUnused s ≤ i ∧ i ≠ idx := by
      rw [hunused] at hbound
      split_ifs at hbound <;> omega
    rw [isBitSet_bitSet, hs.unused i hi' hclear.1]
    simpa using hclear.2

/-- The counters of a group **when an inode of it is freed**. -/
theorem GroupSafe.release (h : s.InodeGeometry) (hg : g < s.blockGroupCnt) (hs : GroupSafe s dirs g b bg)
    (hi : idx < s.inodesInGroupCnt g) (hset : bmapIsBitSet b idx = true)
    (hfit : s.Fits (bg.getFreeInodesCount s + 1)) :
    GroupSafe s (Function.update dirs (s.inodeNo g idx) false) g (bmapBitClr b idx)
      (releaseInode s (dirs (s.inodeNo g idx)) bg) := by
  obtain ⟨hn, hsum⟩ := h.cnt_le hg
  have hlt := h.count_lt
  have hclr := clearBits_bitClr hi hset
  have hle := clearBits_le (bmapBitClr b idx) (s.inodesInGroupCnt g)
  have hcount := @dirCount_update _ dirs _ _ h hg hi false
  have hdle := dirCount_le s dirs g (s.inodesInGroupCnt g)
  have hroom : bg.getFreeInodesCount s + 1 < 2 ^ 32 := by
    rw [hs.free]
    omega
  have hfree := releaseInode_free (u32_of_lt hroom) hfit (dirs (s.inodeNo g idx))
  have hused : (releaseInode s (dirs (s.inodeNo g idx)) bg).getUsedDirsCount s =
      bg.getUsedDirsCount s - if dirs (s.inodeNo g idx) then 1 else 0 := by
    refine releaseInode_used ?_ (bg.usedDirsCount.fits_le (Nat.sub_le ..))
    split_ifs with hd
    · simp only [hd, if_true, Bool.false_eq_true, if_false] at hcount
      rw [hs.used]
      exact sub32_of_le (by omega) (by omega)
    · rfl
  have hunused := @releaseInode_unused s bg (dirs (s.inodeNo g idx))
  refine ⟨?_, ?_, ?_, by rw [hunused]; exact hs.unused_le, ?_⟩
  · rw [hfree, hclr, hs.free]
  · rw [hused, hs.used]
    simp only [Bool.false_eq_true, if_false] at hcount
    omega
  · intro i hi' hd
    have hne : i ≠ idx := by
      rintro rfl
      rw [Function.update_self] at hd
      exact Bool.noConfusion hd
    rw [dirs_of_ne h hg hi false hi' hne] at hd
    rw [isBitSet_bitClr, hs.dirs_set i hi' hd]
    simpa using hne
  · intro i hi' hbound
    rw [hunused] at hbound
    rw [isBitSet_bitClr, hs.unused i hi' hbound, Bool.and_false]

end Counts

/-! ## What a call changes -/

section Update

variable {fs fs' : IFs} {dirs : ℕ → Bool} {g idx : ℕ}

/-- Group `g` now has inode bitmap `b` and counters `bg`, the superblock counts
    `total`; the other groups are as before. -/
structure IUpdated (fs fs' : IFs) (g : ℕ) (b : Bmap) (bg : IGroup) (total : ℕ) : Prop where
  frame : Frame fs.toFs fs'.toFs
  ibg : fs'.ibg = Function.update fs.ibg g bg
  map_self : fs'.toFs.inodeMap g = b
  map_ne : ∀ g' < fs.sb.blockGroupCnt, g' ≠ g → fs'.toFs.inodeMap g' = fs.toFs.inodeMap g'
  total : fs'.freeInodesCount = total
  last : fs'.lastInodeBgId < fs.sb.blockGroupCnt

/-- An update of one inode is safe when the group and the total are right. -/
theorem IUpdated.safe {b : Bmap} {bg : IGroup} {total : ℕ} {v : Bool} (hs : ISafe fs dirs)
    (h : IUpdated fs fs' g b bg total) (hg : g < fs.sb.blockGroupCnt) (hi : idx < fs.sb.inodesInGroupCnt g)
    (hgroup : GroupSafe fs.sb (Function.update dirs (fs.sb.inodeNo g idx) v) g b bg)
    (htot : total + (fs.ibg g).getFreeInodesCount fs.sb = fs.freeInodesCount + bg.getFreeInodesCount fs.sb) :
    ISafe fs' (Function.update dirs (fs.sb.inodeNo g idx) v) := by
  have hsb := h.frame.sb
  refine ⟨by rw [hsb]; exact hs.geo, h.frame.ilayout hs.layout, by rw [hsb]; exact h.last, ?_, ?_⟩
  · intro g' hg'
    rw [hsb] at hg' ⊢
    rw [h.ibg]
    by_cases he : g' = g
    · subst he
      rw [Function.update_self, h.map_self]
      exact hgroup
    · rw [Function.update_of_ne he, h.map_ne g' hg' he]
      exact (hs.group g' hg').other (dirCount_of_ne hs.geo hg hg' he hi v)
  · have hmem : g ∈ Finset.range fs.sb.blockGroupCnt := Finset.mem_range.2 hg
    have hold := Finset.add_sum_erase _ (fun g => (fs.ibg g).getFreeInodesCount fs.sb) hmem
    have hnew := Finset.add_sum_erase _ (fun g => (fs'.ibg g).getFreeInodesCount fs.sb) hmem
    have hrest : ∑ x ∈ (Finset.range fs.sb.blockGroupCnt).erase g, (fs'.ibg x).getFreeInodesCount fs.sb =
        ∑ x ∈ (Finset.range fs.sb.blockGroupCnt).erase g, (fs.ibg x).getFreeInodesCount fs.sb := by
      refine Finset.sum_congr rfl fun x hx => ?_
      rw [h.ibg, Function.update_of_ne (Finset.ne_of_mem_erase hx)]
    rw [hrest] at hnew
    simp only [h.ibg, Function.update_self] at hnew
    rw [h.total, hsb, h.ibg, ← hnew]
    rw [hs.total] at htot
    omega

/-- Writing the inode bitmap of a group that has been fetched. -/
theorem iupdated_of_set {f : Fs} (hs : ISafe fs dirs) (hg : g < fs.sb.blockGroupCnt)
    (hf : Fetched g fs.toFs f) (b : Bmap) (bg : IGroup) (total : ℕ)
    {last : ℕ} (hlast : last < fs.sb.blockGroupCnt) :
    IUpdated fs ⟨f.setBlk (f.bg g).inodeBitmap b, Function.update fs.ibg g bg, total, last⟩ g b bg total := by
  obtain ⟨hsame, hu⟩ := hf
  have hL := hsame.toFrame.ilayout hs.layout
  have hg₁ : g < f.sb.blockGroupCnt := by rwa [hsame.sb]
  refine ⟨⟨hsame.sb, hsame.lgBcnt, hsame.addr⟩, rfl, ?_, ?_, rfl, hlast⟩
  · simp [inodeMap, Fs.setBlk, hu]
  · intro g' hg' hne
    have haddr : (f.bg g').inodeBitmap ≠ (f.bg g).inodeBitmap :=
      fun h => hne (hL.bitmap_inj g' (by rwa [hsame.sb]) g hg₁ h)
    rw [← hsame.map g' hg']
    simp [inodeMap, Fs.setBlk, haddr]

/-- Inode `idx` of group `g` goes from free to allocated, and the counts follow. -/
structure ITook (fs fs' : IFs) (isDir : Bool) (g idx : ℕ) : Prop where
  group : g < fs.sb.blockGroupCnt
  lt : idx < fs.sb.inodesInGroupCnt g
  clear : bmapIsBitSet (fs.toFs.inodeMap g) idx = false
  upd : IUpdated fs fs' g (bmapBitSet (fs.toFs.inodeMap g) idx)
    (takeInode fs.sb (fs.sb.inodesInGroupCnt g) idx isDir (fs.ibg g)) (sub32 fs.freeInodesCount 1)

/-- The free inodes of a group are free inodes of the file system. -/
theorem ISafe.free_le (hs : ISafe fs dirs) (hg : g < fs.sb.blockGroupCnt) :
    (fs.ibg g).getFreeInodesCount fs.sb ≤ fs.freeInodesCount := by
  rw [hs.total]
  exact Finset.single_le_sum (f := fun g => (fs.ibg g).getFreeInodesCount fs.sb) (fun _ _ => Nat.zero_le _)
    (Finset.mem_range.2 hg)

theorem ISafe.group_free_le (hs : ISafe fs dirs) (hg : g < fs.sb.blockGroupCnt) :
    (fs.ibg g).getFreeInodesCount fs.sb ≤ fs.sb.inodesInGroupCnt g := by
  rw [(hs.group g hg).free]
  exact clearBits_le _ _

theorem ISafe.total_le (hs : ISafe fs dirs) : fs.freeInodesCount ≤ fs.sb.inodesCount := by
  rw [hs.total]
  exact (Finset.sum_le_sum fun g hg => hs.group_free_le (Finset.mem_range.1 hg)).trans hs.geo.sum_le

theorem ITook.safe (hs : ISafe fs dirs) {isDir : Bool} (h : ITook fs fs' isDir g idx)
    (hfit : isDir = true → fs.sb.Fits ((fs.ibg g).getUsedDirsCount fs.sb + 1)) :
    ISafe fs' (Function.update dirs (fs.sb.inodeNo g idx) isDir) := by
  have hgroup := (hs.group g h.group).take hs.geo h.group h.lt h.clear isDir hfit
  refine h.upd.safe hs h.group h.lt hgroup ?_
  have hpos := clearBits_pos h.lt h.clear
  rw [← (hs.group g h.group).free] at hpos
  have hle := hs.free_le h.group
  have htot := hs.total_le
  have hlt := hs.geo.count_lt
  rw [hgroup.free, clearBits_bitSet h.lt h.clear, ← (hs.group g h.group).free,
    sub32_of_le (by omega) (by omega)]
  omega

/-- Inode `idx` of group `g` goes from allocated to free, and the counts follow. -/
structure IGave (fs fs' : IFs) (isDir : Bool) (g idx : ℕ) : Prop where
  group : g < fs.sb.blockGroupCnt
  lt : idx < fs.sb.inodesInGroupCnt g
  set : bmapIsBitSet (fs.toFs.inodeMap g) idx = true
  upd : IUpdated fs fs' g (bmapBitClr (fs.toFs.inodeMap g) idx) (releaseInode fs.sb isDir (fs.ibg g))
    (u32 (fs.freeInodesCount + 1))

theorem IGave.safe (hs : ISafe fs dirs) (h : IGave fs fs' (dirs (fs.sb.inodeNo g idx)) g idx)
    (hfit : fs.sb.Fits ((fs.ibg g).getFreeInodesCount fs.sb + 1)) :
    ISafe fs' (Function.update dirs (fs.sb.inodeNo g idx) false) := by
  have hold := (hs.group g h.group).free
  have hgroup := (hs.group g h.group).release hs.geo h.group h.lt h.set hfit
  refine h.upd.safe hs h.group h.lt hgroup ?_
  have hclr := clearBits_bitClr h.lt h.set
  have hle := clearBits_le (bmapBitClr (fs.toFs.inodeMap g) idx) (fs.sb.inodesInGroupCnt g)
  -- one more free inode is still no more than there are
  have hroom : fs.freeInodesCount + 1 ≤ fs.sb.inodesCount := by
    have hmem : g ∈ Finset.range fs.sb.blockGroupCnt := Finset.mem_range.2 h.group
    refine le_trans (Nat.succ_le_of_lt ?_) hs.geo.sum_le
    rw [hs.total]
    refine Finset.sum_lt_sum (fun g hg => hs.group_free_le (Finset.mem_range.1 hg)) ⟨g, hmem, ?_⟩
    rw [hold]
    omega
  have hlt := hs.geo.count_lt
  rw [hgroup.free, hclr, hold, u32_of_lt (by omega)]
  omega

/-! ## The calls -/

/-- Only lazy initialisation has happened. -/
def IPending (fs fs' : IFs) : Prop := ∃ f, fs' = { fs with toFs := f } ∧ ISame fs.toFs f

/-- How a device access fails. -/
def IStopped (fs : IFs) (e : Stop) (fs' : IFs) : Prop :=
  IPending fs fs' ∧ (e = .rc Errno.EIO ∨ e = .rc Errno.ENXIO)

theorem ISafe.pending (hs : ISafe fs dirs) (h : IPending fs fs') : ISafe fs' dirs := by
  obtain ⟨f, rfl, hf⟩ := h
  refine ⟨by rw [hf.sb]; exact hs.geo, hf.toFrame.ilayout hs.layout, by rw [hf.sb]; exact hs.last, ?_, ?_⟩
  · intro g hg
    rw [hf.sb] at hg ⊢
    rw [hf.map g hg]
    exact hs.group g hg
  · rw [hf.sb]
    exact hs.total

theorem sat_onFs {α : Type} {x : FsM α} {Q : α → Fs → Prop} {E : Stop → Fs → Prop}
    (h : Prog.Sat (· = fs.toFs) x Q E) : Prog.Sat (· = fs) (onFs x)
      (fun a fs' => ∃ f, fs' = { fs with toFs := f } ∧ Q a f)
      (fun e fs' => ∃ f, fs' = { fs with toFs := f } ∧ E e f) := by
  rintro s rfl
  have h := h s.toFs rfl
  unfold onFs
  rcases hx : x s.toFs with ⟨e | a, f⟩ <;> rw [hx] at h
  · exact ⟨f, rfl, h⟩
  · exact ⟨f, rfl, h⟩

/-- Fetch a group reference. -/
theorem sat_fetchGroup (hs : ISafe fs dirs) (hg : g < fs.sb.blockGroupCnt) :
    Prog.Sat (IPending fs) (onFs (fsGetBlockGroupRef g))
      (fun _ fs' => ∃ f, fs' = { fs with toFs := f } ∧ Fetched g fs.toFs f) (IStopped fs) := by
  refine Prog.Sat.of_forall ?_
  rintro _ ⟨f, rfl, hf⟩
  have hg₁ : g < f.sb.blockGroupCnt := by rwa [hf.sb]
  refine (@sat_onFs { fs with toFs := f } _ _ _ _
    (isat_fsGetBlockGroupRef (hf.toFrame.ilayout hs.layout) hg₁)).conseq (fun _ => id) ?_ ?_
  · rintro _ _ ⟨f', rfl, h⟩
    exact ⟨f', rfl, h.of_same hf⟩
  · rintro e _ ⟨f', rfl, h⟩
    exact ⟨⟨f', rfl, hf.trans h.1⟩, h.2⟩

/-- Read the inode bitmap of a group that has been fetched. -/
theorem sat_fetchMap {f : Fs} (hf : Fetched g fs.toFs f) (hg : g < fs.sb.blockGroupCnt) :
    Prog.Sat (· = { fs with toFs := f }) (onFs (transBlockGet (f.bg g).inodeBitmap))
      (fun b fs' => b = fs.toFs.inodeMap g ∧ ∃ l, fs' = { fs with toFs := { f with faults := l } } ∧
        Fetched g fs.toFs { f with faults := l }) (IStopped fs) := by
  refine (@sat_onFs { fs with toFs := f } _ _ _ _ (isat_transBlockGet f _)).conseq (fun _ => id) ?_ ?_
  · rintro b _ ⟨_, rfl, rfl, l, rfl⟩
    refine ⟨?_, l, rfl, hf.1.trans (isame_faults f l), hf.2⟩
    rw [← hf.1.map g hg]
    simp [inodeMap, hf.2]
  · rintro e _ ⟨f', rfl, h⟩
    exact ⟨⟨f', rfl, hf.1.trans h.1⟩, h.2⟩

/-- **One group** of the search. -/
theorem sat_allocInodeInGroup (hs : ISafe fs dirs) (hg : g < fs.sb.blockGroupCnt) (isDir : Bool) :
    Prog.Sat (IPending fs) (allocInodeInGroup fs.freeInodesCount g isDir)
      (fun t fs' => match t with
        | .found ino => (fs.ibg g).getFreeInodesCount fs.sb ≠ 0 ∧
            ∃ idx, ino = fs.sb.inodeNo g idx ∧ ITook fs fs' isDir g idx
        | .again => False
        | .next => (fs.ibg g).getFreeInodesCount fs.sb = 0 ∧ IPending fs fs') (IStopped fs) := by
  refine Prog.Sat.bind (sat_fetchGroup hs hg) fun _ => Prog.Sat.get_bind ?_
  rintro _ ⟨f, rfl, hf⟩
  have hsb : f.sb = fs.sb := hf.1.sb
  simp only [hsb]
  by_cases h0 : (fs.ibg g).getFreeInodesCount fs.sb = 0
  · rw [if_pos h0]
    refine Prog.Sat.pure ?_
    rintro _ rfl
    exact ⟨h0, f, rfl, hf.1⟩
  · rw [if_neg h0]
    refine Prog.Sat.bind (sat_fetchMap hf hg) fun b => ?_
    refine Prog.Sat.of_forall ?_
    rintro _ ⟨rfl, l, rfl, hl⟩
    have hlt := hs.geo.count_lt
    obtain ⟨-, hsum⟩ := hs.geo.cnt_le hg
    have hfind : bmapBitFindClr (fs.toFs.inodeMap g) 0 (fs.sb.inodesInGroupCnt g) =
        findClrBits (fs.toFs.inodeMap g) 0 (fs.sb.inodesInGroupCnt g) :=
      bmapBitFindClr_of_head (Nat.zero_le _) (by omega) fun k _ h2 _ => by omega
    rw [hfind]
    cases hbit : findClrBits (fs.toFs.inodeMap g) 0 (fs.sb.inodesInGroupCnt g) with
    | none =>
      -- the count says that there is a clear bit
      refine absurd ?_ h0
      rw [(hs.group g hg).free]
      refine Finset.card_eq_zero.2 (Finset.filter_eq_empty_iff.2 fun i hi => ?_)
      rw [findClrBits_none hbit i (Nat.zero_le _) (by simpa using hi)]
      exact Bool.noConfusion
    | some idx =>
      obtain ⟨-, hidx, hclear⟩ := findClrBits_some hbit
      rw [Nat.zero_add] at hidx
      rintro _ rfl
      refine ⟨h0, idx, ?_, hg, hidx, hclear, ?_⟩
      · exact hs.geo.bgidxToInode hg hidx
      · have hupd := iupdated_of_set hs hg hl (bmapBitSet (fs.toFs.inodeMap g) idx)
          (takeInode fs.sb (fs.sb.inodesInGroupCnt g) idx isDir (fs.ibg g)) (sub32 fs.freeInodesCount 1) hg
        rw [← hsb] at hupd ⊢
        exact hupd

/-- **`ext4_ialloc_free_inode`** of an allocated inode. -/
theorem sat_iallocFreeInode (hs : ISafe fs dirs) (hg : g < fs.sb.blockGroupCnt)
    (hi : idx < fs.sb.inodesInGroupCnt g) (hset : bmapIsBitSet (fs.toFs.inodeMap g) idx = true) (isDir : Bool) :
    Prog.Sat (· = fs) (iallocFreeInode (fs.sb.inodeNo g idx) isDir) (fun _ fs' => IGave fs fs' isDir g idx)
      (IStopped fs) := by
  obtain ⟨hgid, hidx⟩ := hs.geo.locate hg hi
  refine Prog.Sat.get_bind ?_
  rintro s rfl
  rw [hgid]
  refine Prog.Sat.bind ((sat_fetchGroup hs hg).pre ?_) fun _ => Prog.Sat.get_bind ?_
  · rintro _ rfl
    exact ⟨_, rfl, .refl _⟩
  rintro _ ⟨f, rfl, hf⟩
  have hsb : f.sb = s.sb := hf.1.sb
  refine Prog.Sat.bind (sat_fetchMap hf hg) fun b => ?_
  refine Prog.Sat.of_forall ?_
  rintro _ ⟨rfl, l, rfl, hl⟩
  rintro _ rfl
  refine ⟨hg, hi, hset, ?_⟩
  have hupd := iupdated_of_set hs hg hl (bmapBitClr (s.toFs.inodeMap g) idx)
    (releaseInode s.sb isDir (s.ibg g)) (u32 (s.freeInodesCount + 1)) hs.last
  simp only [hsb, hidx]
  rw [← hsb] at hupd ⊢
  exact hupd

end Update

end Lwext4
