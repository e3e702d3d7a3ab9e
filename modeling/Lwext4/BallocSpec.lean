/-
  What each call of the block allocator does to the bitmaps.

  An allocation moves one bit from clear to set (`Took`) and fails with
  `ENOSPC` only when every group is full (`sat_ballocAllocBlock`); a free
  clears the bits of its range (`Freed`).  The searches are exact for goals in
  `GoalOk`; `ext4_balloc_free_blocks` is for ranges that stay in one group, or
  when every group has `8 * block_size` blocks.
-/
import Lwext4.BallocInv

namespace Lwext4

open Lib Fs

/-! ## The searches -/

section Alloc

variable {fs : Fs} {g : ℕ}

/-- Every block of group `g` is in use. -/
def Fs.Full (fs : Fs) (g : ℕ) : Prop :=
  ∀ i < fs.sb.groupLen g, bmapIsBitSet (fs.bitmap g) i = true

theorem Fs.Sound.full_of_zero (hC : fs.Sound) (hg : g < fs.sb.blockGroupCnt)
    (h : fs.freeCount g = 0) : fs.Full g := by
  intro i hi
  rw [hC.count g hg] at h
  exact clearBits_eq_zero h hi

/-- A clear bit below `blocks_per_group` belongs to a block. -/
theorem Fs.Sound.lt_groupLen (hC : fs.Sound) (hg : g < fs.sb.blockGroupCnt) {i : ℕ}
    (hi : i < fs.sb.blocksPerGroup) (hclr : bmapIsBitSet (fs.bitmap g) i = false) :
    i < fs.sb.groupLen g := by
  by_contra hn
  have hle := hC.geo.bpg_le
  rw [hC.padding g hg i (by omega) (by omega)] at hclr
  cases hclr

/-- A bit offered in the goal group is clear, if the goal is not past the end
    of the group. -/
theorem goalBit_spec (hC : fs.Sound) (hg : g < fs.sb.blockGroupCnt) {idx k : ℕ}
    (hidx : idx < fs.sb.blocksPerGroup) (hle : idx ≤ fs.sb.blocksInGroupCnt g)
    (h : goalBit fs.sb (fs.bitmap g) g idx = some k) :
    k < fs.sb.groupLen g ∧ bmapIsBitSet (fs.bitmap g) k = false := by
  have hcnt := hC.geo.blocksInGroupCnt_le hg
  have hbpg := hC.geo.bpg_lt
  suffices hk : k < fs.sb.blocksPerGroup ∧ bmapIsBitSet (fs.bitmap g) k = false from
    ⟨hC.lt_groupLen hg hk.1 hk.2, hk.2⟩
  unfold goalBit at h
  by_cases hclr : bmapIsBitClr (fs.bitmap g) idx = true
  · rw [if_pos hclr] at h
    obtain rfl := Option.some.inj h
    exact ⟨hidx, by simpa [bmapIsBitClr] using hclr⟩
  · rw [if_neg hclr] at h
    have hset : bmapIsBitSet (fs.bitmap g) idx = true := by simpa [bmapIsBitClr] using hclr
    simp only at h
    generalize he : (if fs.sb.blocksInGroupCnt g < u32 (idx + 63) / 64 * 64 then
      fs.sb.blocksInGroupCnt g else u32 (idx + 63) / 64 * 64) = endIdx at h
    rcases hnear : findClrBits (fs.bitmap g) (idx + 1) (endIdx - (idx + 1)) with - | k'
    · rw [hnear] at h
      simp only at h
      have hrest := findClrBits_none hnear
      -- the near search has covered the bits before the next byte boundary
      rw [bmapBitFindClr_of_head hle (by omega)] at h
      · obtain ⟨-, h2, h3⟩ := findClrBits_some h
        exact ⟨by omega, h3⟩
      · intro j h1 h2 h3
        rcases Nat.eq_or_lt_of_le h1 with rfl | h1
        · exact hset
        · refine hrest j h1 ?_
          rw [u32_of_lt (by omega)] at he
          split_ifs at he <;> omega
    · rw [hnear] at h
      obtain rfl := Option.some.inj h
      obtain ⟨h1, h2, h3⟩ := findClrBits_some hnear
      refine ⟨?_, h3⟩
      have : endIdx ≤ fs.sb.blocksInGroupCnt g := by split_ifs at he <;> omega
      omega

/-- What a search in one group may end with. -/
def Searched (fs : Fs) (g : ℕ) (full : Prop) : Option ℕ → Fs → Prop
  | some b, fs' => ∃ idx, b = fs.sb.groupAddr g idx ∧ Took fs fs' g idx
  | none, fs' => Same fs fs' ∧ full

theorem Took.of_same {fs₁ fs₂ : Fs} {idx : ℕ} (hs : Same fs fs₁) (h : Took fs₁ fs₂ g idx) :
    Took fs fs₂ g idx := by
  have hg : g < fs.sb.blockGroupCnt := by rw [← hs.sb]; exact h.group
  have hupd := h.upd
  have hclr := h.clear
  rw [hs.bitmap g hg, hs.freeCount, hs.free] at hupd
  rw [hs.bitmap g hg] at hclr
  exact ⟨hg, by rw [← hs.sb]; exact h.lt, hclr, hupd.of_same hs⟩

/-- Allocating the bit a search has found. -/
theorem sat_found {fs₁ : Fs} {idx : ℕ} (hs : Same fs fs₁) (hC : fs.Sound)
    (hg : g < fs.sb.blockGroupCnt) (hu : (fs₁.bg g).blockUninit = false)
    (hidx : idx < fs.sb.groupLen g) (hclr : bmapIsBitSet (fs.bitmap g) idx = false) :
    Prog.Sat (· = fs₁) (allocBit g idx)
      (fun b fs' => b = fs.sb.groupAddr g idx ∧ Took fs fs' g idx) (Failed fs) := by
  have hC₁ := hs.sound hC
  rw [← hs.sb] at hg hidx
  rw [← hs.bitmap g (by rw [← hs.sb]; exact hg)] at hclr
  refine (sat_allocBit hC₁ hg hu hidx hclr (Failed fs)).conseq (fun _ => id) ?_ fun _ _ => id
  rintro b fs' ⟨rfl, h⟩
  exact ⟨by rw [hs.sb], h.of_same hs⟩

theorem Failed.of_same {fs₁ fs₂ : Fs} {e : Stop} (hs : Same fs fs₁) (h : Failed fs₁ e fs₂) :
    Failed fs e fs₂ := ⟨hs.trans h.1, h.2⟩

/-- The search in a group other than the goal's. -/
theorem sat_allocInGroup (hC : fs.Sound) (hg : g < fs.sb.blockGroupCnt) :
    Prog.Sat (· = fs) (allocInGroup g) (Searched fs g (fs.Full g)) (Failed fs) := by
  refine Prog.Sat.bind (sat_fsGetBlockGroupRef hC.layout hg) fun _ => Prog.Sat.get_bind ?_
  rintro s ⟨hs, hu⟩
  simp only
  split
  · rename_i h0
    refine Prog.Sat.pure ?_
    rintro _ rfl
    exact ⟨hs, hC.full_of_zero hg (by rw [← hs.freeCount]; exact h0)⟩
  · have hgs : g < s.sb.blockGroupCnt := by rw [hs.sb]; exact hg
    refine Prog.Sat.bind ((sat_fetchBitmap hu).conseq
      (fun _ => id) (fun _ _ => id) fun _ _ h => h.of_same hs) fun b =>
        Prog.Sat.of_forall ?_
    rintro s₁ ⟨rfl, hs₁, hu₁⟩
    have hs₁ := hs.trans hs₁
    have hlen := hC.geo.groupLen_le_cnt hg
    have hcnt := hC.geo.blocksInGroupCnt_le hg
    have hbpg := hC.geo.bpg_lt
    have hfind : bmapBitFindClr (fs.bitmap g) 0 (fs.sb.blocksInGroupCnt g) =
        findClrBits (fs.bitmap g) 0 (fs.sb.blocksInGroupCnt g - 0) :=
      bmapBitFindClr_of_head (Nat.zero_le _) (by omega) fun k _ h2 _ => by omega
    rw [hs.sb, hs.bitmap g hg, hC.geo.idx_blockOfBgid hg, hfind]
    rcases hk : findClrBits (fs.bitmap g) 0 (fs.sb.blocksInGroupCnt g - 0) with - | k
    · refine Prog.Sat.pure ?_
      rintro _ rfl
      refine ⟨hs₁, fun i hi => findClrBits_none hk i (Nat.zero_le _) (by omega)⟩
    · obtain ⟨-, h2, hclr⟩ := findClrBits_some hk
      refine Prog.Sat.map (sat_found hs₁ hC hg hu₁ (hC.lt_groupLen hg (by omega) hclr) hclr)
        ?_
      rintro b fs' h
      exact ⟨k, h⟩

/-- The search in the group of the goal. -/
theorem sat_allocInGoalGroup (hC : fs.Sound) (hg : g < fs.sb.blockGroupCnt) {idx : ℕ}
    (hidx : idx < fs.sb.blocksPerGroup)
    (hgoal : idx ≤ fs.sb.blocksInGroupCnt g ∨ fs.freeCount g = 0) :
    Prog.Sat (· = fs) (allocInGoalGroup g idx) (Searched fs g True) (Failed fs) := by
  refine Prog.Sat.bind (sat_fsGetBlockGroupRef hC.layout hg) fun _ => Prog.Sat.get_bind ?_
  rintro s ⟨hs, hu⟩
  simp only
  split
  · refine Prog.Sat.pure ?_
    rintro _ rfl
    exact ⟨hs, trivial⟩
  · rename_i h0
    have hle := hgoal.resolve_right (by rw [← hs.freeCount]; exact h0)
    have hgs : g < s.sb.blockGroupCnt := by rw [hs.sb]; exact hg
    refine Prog.Sat.bind ((sat_fetchBitmap hu).conseq
      (fun _ => id) (fun _ _ => id) fun _ _ h => h.of_same hs) fun b =>
        Prog.Sat.of_forall ?_
    rintro s₁ ⟨rfl, hs₁, hu₁⟩
    have hs₁ := hs.trans hs₁
    rw [hs.sb, hs.bitmap g hg, hC.geo.idx_blockOfBgid hg, if_neg (Nat.not_lt_zero idx)]
    rcases hk : goalBit fs.sb (fs.bitmap g) g idx with - | k
    · refine Prog.Sat.pure ?_
      rintro _ rfl
      exact ⟨hs₁, trivial⟩
    · obtain ⟨hlt, hclr⟩ := goalBit_spec hC hg hidx hle hk
      refine Prog.Sat.map (sat_found hs₁ hC hg hu₁ hlt hclr) ?_
      rintro b fs' h
      exact ⟨k, h⟩

/-- The search in `count` groups from group `bgid` on. -/
theorem sat_allocOtherGroups : ∀ (count bgid : ℕ) {fs : Fs}, fs.Sound →
    bgid < fs.sb.blockGroupCnt →
    Prog.Sat (· = fs) (allocOtherGroups fs.sb.blockGroupCnt bgid count)
      (fun b fs' => ∃ g idx, b = fs.sb.groupAddr g idx ∧ Took fs fs' g idx)
      (fun e fs' => Failed fs e fs' ∨ e = .rc .ENOSPC ∧ Same fs fs' ∧
        ∀ j < count, fs.Full ((bgid + j) % fs.sb.blockGroupCnt))
  | 0, bgid, fs, _, _ => Prog.Sat.fail (by
      rintro _ rfl
      exact .inr ⟨rfl, .refl _, fun j hj => absurd hj (Nat.not_lt_zero j)⟩)
  | count + 1, bgid, fs, hC, hg => by
    refine Prog.Sat.bind ((sat_allocInGroup hC hg).conseq (fun _ => id) (fun _ _ => id)
      fun _ _ => .inl) fun r => Prog.Sat.of_forall ?_
    rcases r with - | b
    · rintro s ⟨hs, hfull⟩
      have hcnt := hC.geo.cnt_spec.2.1
      have hnext : u32 (bgid + 1) % s.sb.blockGroupCnt < s.sb.blockGroupCnt :=
        Nat.mod_lt _ (by rw [hs.sb]; omega)
      have ih := sat_allocOtherGroups count _ (hs.sound hC) hnext
      rw [hs.sb] at ih
      refine ih.conseq (fun _ => id) ?_ ?_
      · rintro b fs' ⟨g, idx, rfl, h⟩
        exact ⟨g, idx, rfl, h.of_same hs⟩
      · rintro e fs' (h | ⟨he, h, hrest⟩)
        · exact .inl (h.of_same hs)
        · refine .inr ⟨he, hs.trans h, fun j hj => ?_⟩
          rcases j with - | j
          · rwa [Nat.add_zero, Nat.mod_eq_of_lt hg]
          · have hg' : (bgid + (j + 1)) % fs.sb.blockGroupCnt < fs.sb.blockGroupCnt :=
              Nat.mod_lt _ (by omega)
            have h := hrest j (by omega)
            rw [u32_of_lt (by omega), Nat.mod_add_mod, show bgid + 1 + j = bgid + (j + 1) by omega]
              at h
            intro i hi
            rw [← hs.bitmap _ hg']
            exact h i (by rwa [hs.sb])
    · rintro s ⟨idx, h⟩
      refine Prog.Sat.pure ?_
      rintro _ rfl
      exact ⟨bgid, idx, h⟩

/-- A goal the search can start from: in a group of the table and not past its
    end, or in a group that is skipped because its descriptor counts no free
    block; past the table what lies there must not ask for initialisation, or
    cannot be read. -/
def GoalOk (fs : Fs) (goal : ℕ) : Prop :=
  let g := fs.sb.ballocGetBgidOfBlock goal
  g < fs.sb.blockGroupCnt ∧
      (fs.sb.fsAddrToIdxBg goal ≤ fs.sb.blocksInGroupCnt g ∨ fs.freeCount g = 0) ∨
    fs.sb.blockGroupCnt ≤ g ∧
      (fs.lgBcnt ≤ fs.sb.fsGetDescriptorBlock g (fs.sb.getBlockSize / fs.sb.getDescSize) ∨
        (fs.bg g).blockUninit = false ∧ (fs.bg g).inodeUninit = false ∧ fs.freeCount g = 0)

theorem goalOk_of_lt {goal : ℕ} (hC : fs.Sound) (hf : fs.sb.firstDataBlock ≤ goal)
    (hb : goal < fs.sb.blocksCount) : GoalOk fs goal := by
  obtain ⟨hg, hi, -⟩ := hC.geo.locate hf hb
  exact .inl ⟨hg, .inl (hi.le.trans (hC.geo.groupLen_le_cnt hg))⟩

/-- A goal extrapolated from an extent can be searched for when the block it
    points at exists. -/
theorem goalOk_extFindGoal {extBlock extPblk leaf inodeGoal block : ℕ} (hC : fs.Sound)
    (hf : fs.sb.firstDataBlock + extBlock ≤ extPblk + block)
    (hb : extPblk + block < fs.sb.blocksCount + extBlock) (hblock : extBlock < 2 ^ 32) :
    GoalOk fs (extFindGoal (some (extBlock, extPblk)) leaf inodeGoal block) := by
  have hcount := hC.geo.count_lt
  unfold extFindGoal
  simp only
  split_ifs with hlt
  · rw [u64_of_lt (by omega)]
    exact goalOk_of_lt hC (by omega) (by omega)
  · rw [sub64_of_le (by omega) (by omega)]
    exact goalOk_of_lt hC (by omega) (by omega)

/-- A goal past the group table is skipped. -/
theorem sat_allocInGoalGroup_outside {idx : ℕ}
    (h : fs.lgBcnt ≤ fs.sb.fsGetDescriptorBlock g (fs.sb.getBlockSize / fs.sb.getDescSize) ∨
      (fs.bg g).blockUninit = false ∧ (fs.bg g).inodeUninit = false ∧ fs.freeCount g = 0) :
    Prog.Sat (· = fs) (allocInGoalGroup g idx) (Searched fs g True) (Failed fs) := by
  refine Prog.Sat.bind (Q := fun _ fs' => (∃ l, fs' = { fs with faults := l }) ∧
    fs.freeCount g = 0) (Prog.Sat.get_bind ?_) fun _ => Prog.Sat.get_bind ?_
  · rintro s rfl
    refine Prog.Sat.bind (Q := fun _ fs' => (∃ l, fs' = { s with faults := l }) ∧
      (s.bg g).blockUninit = false ∧ (s.bg g).inodeUninit = false ∧ s.freeCount g = 0) ?_
      fun _ => Prog.Sat.of_forall ?_
    · refine Prog.Sat.get_bind ?_
      rintro s rfl
      split
      · refine Prog.Sat.fail ?_
        rintro s rfl
        exact ⟨.refl s, .inr rfl⟩
      · rename_i hrd
        have h := h.resolve_left hrd
        refine Prog.Sat.bind ((sat_deviceAccess s).conseq (fun _ => id) (fun _ _ => id) ?_)
          fun _ => Prog.Sat.pure fun _ hs => ⟨hs, h⟩
        rintro e _ ⟨⟨l, rfl⟩, rfl⟩
        exact ⟨same_faults s l, .inl rfl⟩
    · rintro _ ⟨⟨l, rfl⟩, hb, hi, h0⟩
      refine Prog.Sat.bind (Q := fun _ fs' => fs' = { s with faults := l })
        (Prog.Sat.get_bind ?_) fun _ => Prog.Sat.get_bind ?_
      · rintro _ rfl
        rw [if_neg (by simp [hb])]
        exact Prog.Sat.pure fun _ => id
      · rintro _ rfl
        rw [if_neg (by simp [hi])]
        refine Prog.Sat.pure ?_
        rintro _ rfl
        exact ⟨⟨l, rfl⟩, h0⟩
  · rintro _ ⟨⟨l, rfl⟩, h0⟩
    simp only
    rw [if_pos (by exact h0)]
    refine Prog.Sat.pure ?_
    rintro _ rfl
    exact ⟨same_faults fs l, trivial⟩

/-- **`ext4_balloc_alloc_block`** takes a clear bit, and reports `ENOSPC` only
    when every group is full. -/
theorem sat_ballocAllocBlock {goal : ℕ} (hC : fs.Sound) (hgoal : GoalOk fs goal) :
    Prog.Sat (· = fs) (ballocAllocBlock goal)
      (fun b fs' => ∃ g idx, b = fs.sb.groupAddr g idx ∧ Took fs fs' g idx)
      (fun e fs' => Failed fs e fs' ∨ e = .rc .ENOSPC ∧ Same fs fs' ∧
        ∀ g < fs.sb.blockGroupCnt, fs.Full g) := by
  refine Prog.Sat.get_bind ?_
  rintro s rfl
  have hsearch : Prog.Sat (· = s) (allocInGoalGroup (s.sb.ballocGetBgidOfBlock goal)
      (s.sb.fsAddrToIdxBg goal)) (Searched s (s.sb.ballocGetBgidOfBlock goal) True) (Failed s) := by
    rcases hgoal with ⟨hg, h⟩ | ⟨-, h⟩
    · refine sat_allocInGoalGroup hC hg ?_ h
      exact Nat.mod_lt _ hC.geo.bpg_pos
    · exact sat_allocInGoalGroup_outside h
  refine Prog.Sat.bind (hsearch.conseq (fun _ => id) (fun _ _ => id) fun _ _ => .inl) fun r =>
    Prog.Sat.of_forall ?_
  rcases r with - | b
  · rintro s₁ ⟨hs, -⟩
    have hpos := hC.geo.cnt_spec.1
    generalize hstart : u32 (s.sb.ballocGetBgidOfBlock goal + 1) % s.sb.blockGroupCnt = start
    have hlt : start < s₁.sb.blockGroupCnt := by
      rw [hs.sb, ← hstart]
      exact Nat.mod_lt _ hpos
    have h := sat_allocOtherGroups s.sb.blockGroupCnt start (hs.sound hC) hlt
    rw [hs.sb] at h hlt
    simp only [hstart]
    refine h.conseq (fun _ => id) ?_ ?_
    · rintro b fs' ⟨g, idx, rfl, h⟩
      exact ⟨g, idx, rfl, h.of_same hs⟩
    · rintro e fs' (h | ⟨he, h, hfull⟩)
      · exact .inl (h.of_same hs)
      · refine .inr ⟨he, hs.trans h, fun g hg i hi => ?_⟩
        -- the loop goes round the whole table
        obtain ⟨j, hj, hjg⟩ : ∃ j < s.sb.blockGroupCnt, (start + j) % s.sb.blockGroupCnt = g := by
          rcases Nat.lt_or_ge g start with h | h
          · refine ⟨g + s.sb.blockGroupCnt - start, by omega, ?_⟩
            rw [show start + (g + s.sb.blockGroupCnt - start) = g + s.sb.blockGroupCnt by omega,
              Nat.add_mod_right, Nat.mod_eq_of_lt hg]
          · refine ⟨g - start, by omega, ?_⟩
            rw [show start + (g - start) = g by omega, Nat.mod_eq_of_lt hg]
        have h := hfull j hj
        rw [hjg] at h
        rw [← hs.bitmap g hg]
        exact h i (by rwa [hs.sb])
  · rintro s₁ ⟨idx, h⟩
    refine Prog.Sat.pure ?_
    rintro _ rfl
    exact ⟨_, idx, h⟩

/-- **`ext4_balloc_try_alloc_block`** takes the bit of the block if it is
    clear. -/
theorem sat_ballocTryAllocBlock {baddr : ℕ} (hC : fs.Sound)
    (hf : fs.sb.firstDataBlock ≤ baddr)
    (hg : (baddr - fs.sb.firstDataBlock) / fs.sb.blocksPerGroup < fs.sb.blockGroupCnt) :
    Prog.Sat (· = fs) (ballocTryAllocBlock baddr)
      (fun free fs' => (free = true ∧ ∃ g idx, baddr = fs.sb.groupAddr g idx ∧ Took fs fs' g idx) ∨
        free = false ∧ Same fs fs') (Failed fs) := by
  have hcnt := hC.geo.cnt_spec.2.1
  have hgid := hC.geo.bgid_eq hf (by omega)
  rw [← hgid] at hg
  refine Prog.Sat.get_bind ?_
  rintro s rfl
  refine Prog.Sat.bind (sat_fsGetBlockGroupRef hC.layout hg) fun _ => Prog.Sat.get_bind ?_
  rintro s₁ ⟨hs, hu⟩
  have hg₁ : s.sb.ballocGetBgidOfBlock baddr < s₁.sb.blockGroupCnt := by rw [hs.sb]; exact hg
  refine Prog.Sat.bind ((sat_fetchBitmap hu).conseq
    (fun _ => id) (fun _ _ => id) fun _ _ h => h.of_same hs) fun b => Prog.Sat.of_forall ?_
  rintro s₂ ⟨rfl, hs₂, hu₂⟩
  have hs₂ := hs.trans hs₂
  rw [hs.bitmap _ hg]
  have hmod := Nat.mod_lt (baddr - s.sb.firstDataBlock) hC.geo.bpg_pos
  rw [← hC.geo.idx_eq hf] at hmod
  split
  · rename_i hclr
    replace hclr : bmapIsBitSet (s.bitmap (s.sb.ballocGetBgidOfBlock baddr))
      (s.sb.fsAddrToIdxBg baddr) = false := by simpa [bmapIsBitClr] using hclr
    have hlt := hC.lt_groupLen hg hmod hclr
    refine Prog.Sat.bind (sat_found hs₂ hC hg hu₂ hlt hclr) fun _ => Prog.Sat.pure ?_
    rintro fs' ⟨-, h⟩
    refine .inl ⟨rfl, _, _, ?_, h⟩
    have hdm := Nat.div_add_mod (baddr - s.sb.firstDataBlock) s.sb.blocksPerGroup
    rw [SBlock.groupAddr, hgid, hC.geo.idx_eq hf, Nat.mul_comm]
    omega
  · refine Prog.Sat.pure ?_
    rintro _ rfl
    exact .inr ⟨rfl, hs₂⟩

end Alloc

/-! ## Freeing -/

section Free

variable {fs : Fs} {g : ℕ}

/-- The bit of block `b`. -/
def Fs.blockBit (fs : Fs) (b : ℕ) : Bool :=
  bmapIsBitSet (fs.bitmap (fs.sb.ballocGetBgidOfBlock b)) (fs.sb.fsAddrToIdxBg b)

/-- The `count` blocks from `first` on are in use. -/
def Fs.Allocated (fs : Fs) (first count : ℕ) : Prop :=
  fs.sb.firstDataBlock ≤ first ∧ first + count ≤ fs.sb.blocksCount ∧
    ∀ b, first ≤ b → b < first + count → fs.blockBit b = true

/-- The `count` blocks from `first` on are free now, the others as before. -/
structure Freed (fs fs' : Fs) (first count : ℕ) : Prop extends Frame fs fs' where
  bits : ∀ g < fs.sb.blockGroupCnt, ∀ i < fs.sb.groupLen g,
    bmapIsBitSet (fs'.bitmap g) i = (bmapIsBitSet (fs.bitmap g) i &&
      !decide (first ≤ fs.sb.groupAddr g i ∧ fs.sb.groupAddr g i < first + count))

theorem Freed.trans {fs₁ fs₂ : Fs} {first c d : ℕ} (h : Freed fs fs₁ first c)
    (h' : Freed fs₁ fs₂ (first + c) d) : Freed fs fs₂ first (c + d) where
  toFrame := h.toFrame.trans h'.toFrame
  bits g hg i hi := by
    have h2 := h'.bits g (by rwa [h.sb]) i (by rwa [h.sb])
    rw [h.sb] at h2
    rw [h2, h.bits g hg i hi, Bool.and_assoc, ← Bool.not_or, ← Bool.decide_or]
    congr 2
    rw [decide_eq_decide]
    omega

theorem Freed.of_same {fs₁ fs₂ : Fs} {first c : ℕ} (hs : Same fs fs₁)
    (h : Freed fs₁ fs₂ first c) : Freed fs fs₂ first c where
  toFrame := hs.toFrame.trans h.toFrame
  bits g hg i hi := by
    have h2 := h.bits g (by rwa [hs.sb]) i (by rwa [hs.sb])
    rwa [hs.sb, hs.bitmap g hg] at h2

theorem Freed.blockBit {fs' : Fs} {first c b : ℕ} (hC : fs.Sound)
    (h : Freed fs fs' first c) (hf : fs.sb.firstDataBlock ≤ b) (hb : b < fs.sb.blocksCount) :
    fs'.blockBit b = (fs.blockBit b && !decide (first ≤ b ∧ b < first + c)) := by
  obtain ⟨hg, hi, haddr⟩ := hC.geo.locate hf hb
  have hbit := h.bits _ hg _ hi
  rw [haddr] at hbit
  rw [Fs.blockBit, h.sb, hbit, Fs.blockBit]

/-- Giving back bits of one group frees their blocks. -/
theorem Gave.freed {fs' : Fs} {idx cnt : ℕ} (h : Gave fs fs' g idx cnt) :
    Freed fs fs' (fs.sb.groupAddr g idx) cnt := by
  obtain ⟨b, hb, hupd⟩ := h.upd
  refine ⟨hupd.toFrame, fun g' hg' i hi => ?_⟩
  have hle := h.le
  by_cases he : g' = g
  · subst he
    rw [hupd.bitmap_self, hb i]
    congr 2
    rw [decide_eq_decide, SBlock.groupAddr, SBlock.groupAddr]
    omega
  · have hout : ¬ (fs.sb.groupAddr g idx ≤ fs.sb.groupAddr g' i ∧
        fs.sb.groupAddr g' i < fs.sb.groupAddr g idx + cnt) := by
      have hi' : i < fs.sb.blocksPerGroup := by unfold SBlock.groupLen at hi; omega
      have hidx : idx + cnt ≤ fs.sb.blocksPerGroup := by unfold SBlock.groupLen at hle; omega
      unfold SBlock.groupAddr
      rcases Nat.lt_or_gt_of_ne he with hlt | hlt
      · have := Nat.mul_le_mul_right fs.sb.blocksPerGroup (show g' + 1 ≤ g by omega)
        rw [Nat.succ_mul] at this
        omega
      · have := Nat.mul_le_mul_right fs.sb.blocksPerGroup (show g + 1 ≤ g' by omega)
        rw [Nat.succ_mul] at this
        omega
    rw [hupd.bitmap_ne g' hg' he, decide_eq_false hout, Bool.not_false, Bool.and_true]

/-- The blocks of a range in group `g` are set in its bitmap. -/
theorem Fs.Allocated.bits {first count : ℕ} (hC : fs.Sound) (h : fs.Allocated first count)
    {idx cnt : ℕ} (hfirst : first = fs.sb.groupAddr g idx) (hcnt : cnt ≤ count)
    (hle : idx + cnt ≤ fs.sb.groupLen g) (k : ℕ) (h1 : idx ≤ k) (h2 : k < idx + cnt) :
    bmapIsBitSet (fs.bitmap g) k = true := by
  have hk := hC.geo.locate_groupAddr (show k < fs.sb.groupLen g by omega)
  have hbit := h.2.2 (fs.sb.groupAddr g k) (by rw [hfirst, SBlock.groupAddr, SBlock.groupAddr]; omega)
    (by rw [hfirst, SBlock.groupAddr, SBlock.groupAddr]; omega)
  rwa [Fs.blockBit, hk.1, hk.2] at hbit

/-- Clearing set bits of one group. -/
theorem sat_freeBits {clear : Bmap → Bmap} {idx cnt : ℕ} (hC : fs.Sound)
    (hg : g < fs.sb.blockGroupCnt) (hclear : ∀ b, ClearedFrom b (clear b) idx cnt)
    (hle : idx + cnt ≤ fs.sb.groupLen g)
    (hset : ∀ k, idx ≤ k → k < idx + cnt → bmapIsBitSet (fs.bitmap g) k = true) :
    Prog.Sat (· = fs) (freeBits g clear cnt)
      (fun _ fs' => fs'.Sound ∧ Freed fs fs' (fs.sb.groupAddr g idx) cnt) (Failed fs) := by
  refine Prog.Sat.bind (sat_fsGetBlockGroupRef hC.layout hg) fun _ => Prog.Sat.get_bind ?_
  rintro s ⟨hs, hu⟩
  have hg₁ : g < s.sb.blockGroupCnt := by rw [hs.sb]; exact hg
  refine Prog.Sat.bind (Q := fun b fs' => b = s.bitmap g ∧ (Same fs fs' ∧
    (fs'.bg g).blockUninit = false) ∧ (s.bg g).blockBitmap = (fs'.bg g).blockBitmap)
    ((sat_fetchBitmap hu).conseq (fun _ => id) ?_
      fun _ _ h => h.of_same hs) fun b => Prog.Sat.of_forall ?_
  · rintro b s₁ ⟨hb, h₁, hu₁⟩
    exact ⟨hb, ⟨hs.trans h₁, hu₁⟩, ((h₁.addr g).1).symm⟩
  · rintro s₁ ⟨rfl, ⟨hs₁, hu₁⟩, haddr⟩
    have hC₁ := hs₁.sound hC
    have hg₂ : g < s₁.sb.blockGroupCnt := by rw [hs₁.sb]; exact hg
    have hmap : s.bitmap g = s₁.bitmap g := (hs.bitmap g hg).trans (hs₁.bitmap g hg).symm
    have hgave := gave_account hC₁ hg₂ hu₁ (by rw [hs₁.sb]; exact hle)
      (fun k h1 h2 => by rw [hs₁.bitmap g hg]; exact hset k h1 h2) (hclear (s₁.bitmap g))
    rw [← haddr, ← hmap] at hgave
    refine Prog.Sat.modify_bind (M := fun s' =>
      s' = s₁.setBlk (s.bg g).blockBitmap (clear (s.bitmap g))) (Prog.Sat.modify ?_) ?_
    · rintro _ rfl
      refine ⟨hgave.sound hC₁, ?_⟩
      have h := hgave.freed.of_same hs₁
      rwa [hs₁.sb] at h
    · rintro _ rfl
      rfl

theorem same_revokes (fs : Fs) (l : List Bool) : Same fs { fs with revokes := l } where
  sb := rfl
  lgBcnt := rfl
  addr _ := ⟨rfl, rfl, rfl⟩
  free := rfl
  count _ := ⟨rfl, rfl⟩
  bitmap _ _ := rfl

/-- A revoke, or the flush that stands for it, changes nothing. -/
theorem sat_transTryRevokeBlock (fs : Fs) (lba : ℕ) :
    Prog.Sat (· = fs) (transTryRevokeBlock lba) (fun _ => Same fs) (Failed fs) := by
  rintro fs rfl
  unfold transTryRevokeBlock
  rcases hr : fs.revokes with _ | ⟨_ | _, rest⟩
  · exact .refl fs
  · exact same_revokes fs rest
  · exact ⟨same_revokes fs rest, .inl rfl⟩

theorem sat_revokeBlocks : ∀ (n lba : ℕ) {fs : Fs},
    Prog.Sat (· = fs) (revokeBlocks lba n) (fun _ => Same fs) (Failed fs)
  | 0, _, fs => Prog.Sat.pure (by rintro _ rfl; exact .refl _)
  | n + 1, lba, fs => by
    refine Prog.Sat.bind (sat_transTryRevokeBlock fs lba) fun _ => Prog.Sat.of_forall ?_
    intro s hs
    refine (sat_revokeBlocks n (lba + 1)).conseq (fun _ => id) (fun _ _ h => hs.trans h)
      fun _ _ h => h.of_same hs

/-- How a call that frees blocks fails: with an I/O error, leaving a consistent
    state. -/
def FreeFailed (e : Stop) (fs' : Fs) : Prop := fs'.Sound ∧ (e = .rc Errno.EIO ∨ e = .rc Errno.ENXIO)

theorem Failed.free {e : Stop} {fs' : Fs} (hC : fs.Sound) (h : Failed fs e fs') :
    FreeFailed e fs' := ⟨h.1.sound hC, h.2⟩

theorem Freed.trans_same {fs' fs'' : Fs} {first c : ℕ} (h : Freed fs fs' first c)
    (hs : Same fs' fs'') : Freed fs fs'' first c where
  toFrame := h.toFrame.trans hs.toFrame
  bits g hg i hi := by rw [hs.bitmap g (by rwa [h.sb]), h.bits g hg i hi]

/-! ### Calls without revokes -/

/-- The call revokes nothing. -/
def NoRevoke {α : Type} (x : FsM α) : Prop := ∀ fs, (x fs).2.revokes = fs.revokes

theorem NoRevoke.bind {α β : Type} {x : FsM α} {f : α → FsM β} (hx : NoRevoke x)
    (hf : ∀ a, NoRevoke (f a)) : NoRevoke (x >>= f) := by
  intro fs
  have h := hx fs
  rw [Prog.bind_run]
  rcases hxs : x fs with ⟨e | a, fs'⟩
  · rwa [hxs] at h
  · rw [hxs] at h
    exact (hf a fs').trans h

theorem NoRevoke.sat {α : Type} {x : FsM α} (h : NoRevoke x) (fs : Fs) :
    Prog.Sat (· = fs) x (fun _ s => s.revokes = fs.revokes) (fun _ s => s.revokes = fs.revokes) := by
  rintro fs rfl
  have hx := h fs
  rcases hs : x fs with ⟨e | a, s⟩ <;> rwa [hs] at hx

theorem noRevoke_pure {α : Type} (a : α) : NoRevoke (pure a : FsM α) := fun _ => rfl

theorem noRevoke_get : NoRevoke (Prog.get : FsM Fs) := fun _ => rfl

theorem noRevoke_transBlockGet (addr : ℕ) : NoRevoke (transBlockGet addr) := by
  refine noRevoke_get.bind fun fs => ?_
  split_ifs
  · exact fun _ => rfl
  · refine NoRevoke.bind (fun fs => ?_) fun _ => noRevoke_pure _
    unfold deviceAccess
    cases fs.faults <;> rfl

theorem noRevoke_transBlockGetNoread (addr : ℕ) : NoRevoke (transBlockGetNoread addr) :=
  (noRevoke_transBlockGet addr).bind fun _ => noRevoke_pure _

theorem noRevoke_zeroBlocks (n fblock : ℕ) : NoRevoke (zeroBlocks fblock n) := by
  induction n generalizing fblock with
  | zero => exact noRevoke_pure _
  | succ n ih =>
    refine (noRevoke_transBlockGetNoread _).bind fun _ => ?_
    exact NoRevoke.bind (fun _ => rfl) fun _ => ih _

theorem noRevoke_fsGetGroupBlocks (g : ℕ) : NoRevoke (fsGetGroupBlocks g) := by
  refine noRevoke_get.bind fun fs => ?_
  split_ifs
  · refine NoRevoke.bind (noRevoke_get.bind fun fs => ?_) fun _ _ => rfl
    exact (noRevoke_transBlockGetNoread _).bind fun _ _ => rfl
  · exact noRevoke_pure _

theorem noRevoke_fsGetGroupInodes (g : ℕ) : NoRevoke (fsGetGroupInodes g) := by
  refine noRevoke_get.bind fun fs => ?_
  split_ifs with h1 h2
  · refine NoRevoke.bind (noRevoke_get.bind fun fs => ?_) fun _ => NoRevoke.bind (fun _ => rfl) fun _ => ?_
    · exact (noRevoke_transBlockGetNoread _).bind fun _ _ => rfl
    · exact (noRevoke_get.bind fun fs => noRevoke_zeroBlocks _ _).bind fun _ _ => rfl
  · refine NoRevoke.bind (noRevoke_get.bind fun fs => ?_) fun _ => NoRevoke.bind (fun _ => rfl) fun _ => ?_
    · exact (noRevoke_transBlockGetNoread _).bind fun _ _ => rfl
    · exact noRevoke_pure _
  · exact noRevoke_pure _

theorem noRevoke_fsGetBlockGroupRef (g : ℕ) : NoRevoke (fsGetBlockGroupRef g) :=
  noRevoke_get.bind fun _ => (noRevoke_transBlockGet _).bind fun _ =>
    (noRevoke_fsGetGroupBlocks g).bind fun _ => noRevoke_fsGetGroupInodes g

theorem noRevoke_freeBits (g : ℕ) (clear : Bmap → Bmap) (n : ℕ) : NoRevoke (freeBits g clear n) := by
  refine (noRevoke_fsGetBlockGroupRef g).bind fun _ => noRevoke_get.bind fun _ => ?_
  refine (noRevoke_transBlockGet _).bind fun _ => ?_
  exact NoRevoke.bind (fun _ => rfl) fun _ _ => rfl

/-- A revoke that does not fail leaves the descriptor. -/
theorem revokeFreed_run {fs : Fs} (h : fs.revokes.head? ≠ some true) (g : ℕ) (bg : BGroup)
    (baddr : ℕ) : revokeFreed g bg baddr fs = (.ok (), { fs with revokes := fs.revokes.tail }) := by
  unfold revokeFreed transTryRevokeBlock
  rcases hr : fs.revokes with _ | ⟨_ | _, rest⟩
  · simp only [List.tail_nil]
    rw [← hr]
  · rfl
  · rw [hr] at h
    exact absurd rfl h

/-- **`ext4_balloc_free_block`** frees the block, if the revoke works. -/
theorem sat_ballocFreeBlock {baddr : ℕ} (hC : fs.Sound) (hal : fs.Allocated baddr 1)
    (hrev : fs.revokes.head? ≠ some true) :
    Prog.Sat (· = fs) (ballocFreeBlock baddr)
      (fun _ fs' => fs'.Sound ∧ Freed fs fs' baddr 1) FreeFailed := by
  obtain ⟨hg, hi, haddr⟩ := hC.geo.locate hal.1 (show baddr < fs.sb.blocksCount from hal.2.1)
  refine Prog.Sat.get_bind ?_
  rintro s rfl
  have hset := hal.bits hC haddr.symm le_rfl (show s.sb.fsAddrToIdxBg baddr + 1 ≤
    s.sb.groupLen (s.sb.ballocGetBgidOfBlock baddr) from hi)
  have h := sat_freeBits hC hg (fun b => clearedFrom_bitClr b (s.sb.fsAddrToIdxBg baddr)) hi hset
  rw [haddr] at h
  have hkeep := (noRevoke_freeBits (s.sb.ballocGetBgidOfBlock baddr)
    (bmapBitClr · (s.sb.fsAddrToIdxBg baddr)) 1).sat s
  refine Prog.Sat.bind ((h.and hkeep).conseq (fun _ => id) (fun _ _ => id)
    fun _ _ h => h.1.free hC) fun _ => Prog.Sat.of_forall ?_
  rintro s₁ ⟨⟨hC₁, hfreed⟩, hr₁⟩ s₁ rfl
  rw [revokeFreed_run (by rwa [hr₁])]
  have hs := same_revokes s₁ s₁.revokes.tail
  exact ⟨hs.sound hC₁, hfreed.trans_same hs⟩

/-- What is left of an allocated range after its first `c` blocks are freed. -/
theorem Freed.allocated {fs' : Fs} {first c count : ℕ} (hC : fs.Sound)
    (h : Freed fs fs' first c) (hal : fs.Allocated first count) (hc : c ≤ count) :
    fs'.Allocated (first + c) (count - c) := by
  obtain ⟨hf, hb, hall⟩ := hal
  refine ⟨by rw [h.sb]; omega, by rw [h.sb]; omega, fun b h1 h2 => ?_⟩
  have hout : ¬ (first ≤ b ∧ b < first + c) := by omega
  rw [h.blockBit hC (by omega) (by omega), hall b (by omega) (by omega), decide_eq_false hout]
  rfl

/-- The groups of the first and the last block of a range. -/
theorem bgid_range (hC : fs.Sound) {first count q r : ℕ} (h0 : 0 < count)
    (hal : fs.Allocated first count) (hq : first = fs.sb.groupAddr q r) :
    (r + count ≤ fs.sb.blocksPerGroup ↔ fs.sb.ballocGetBgidOfBlock (first + count - 1) = q) ∧
      q ≤ fs.sb.ballocGetBgidOfBlock (first + count - 1) := by
  obtain ⟨hf, hb, -⟩ := hal
  have hdm := Nat.div_add_mod (first + count - 1 - fs.sb.firstDataBlock) fs.sb.blocksPerGroup
  have hml := Nat.mod_lt (first + count - 1 - fs.sb.firstDataBlock) hC.geo.bpg_pos
  rw [hC.geo.bgid_eq (by omega) (hC.geo.div_lt (by omega))]
  generalize (first + count - 1 - fs.sb.firstDataBlock) / fs.sb.blocksPerGroup = k at *
  rw [SBlock.groupAddr] at hq
  rw [Nat.mul_comm] at hdm
  have hle : q ≤ k := by
    by_contra hn
    have := Nat.mul_le_mul_right fs.sb.blocksPerGroup (show k + 1 ≤ q by omega)
    rw [Nat.succ_mul] at this
    omega
  refine ⟨⟨fun h => ?_, fun h => ?_⟩, hle⟩
  · by_contra hn
    have := Nat.mul_le_mul_right fs.sb.blocksPerGroup (show q + 1 ≤ k by omega)
    rw [Nat.succ_mul] at this
    omega
  · rw [h] at hdm
    omega

/-- The loop over the groups of a range frees the range, when the range stays
    in one group or every group has `8 * block_size` blocks. -/
theorem sat_freeGroups : ∀ (n first count : ℕ) {fs : Fs}, fs.Sound → 0 < count →
    fs.Allocated first count →
    n = fs.sb.ballocGetBgidOfBlock (first + count - 1) + 1 - fs.sb.ballocGetBgidOfBlock first →
    (fs.sb.blocksPerGroup = 8 * fs.sb.getBlockSize ∨
      fs.sb.ballocGetBgidOfBlock first = fs.sb.ballocGetBgidOfBlock (first + count - 1)) →
    Prog.Sat (· = fs) (freeGroups (fs.sb.ballocGetBgidOfBlock first) first count n)
      (fun rest fs' => rest = 0 ∧ fs'.Sound ∧ Freed fs fs' first count) FreeFailed
  | 0, first, count, fs, hC, h0, hal, hn, hcond => by
    have hf := hal.1
    have hb := hal.2.1
    rw [hC.geo.bgid_eq hf (hC.geo.div_lt (by omega)),
      hC.geo.bgid_eq (by omega) (hC.geo.div_lt (by omega))] at hn
    have := Nat.div_le_div_right (c := fs.sb.blocksPerGroup)
      (show first - fs.sb.firstDataBlock ≤ first + count - 1 - fs.sb.firstDataBlock by omega)
    omega
  | n + 1, first, count, fs, hC, h0, hal, hn, hcond => by
    obtain ⟨hg, hi, haddr⟩ := hC.geo.locate hal.1 (show first < fs.sb.blocksCount by
      have := hal.2.1; omega)
    refine Prog.Sat.get_bind ?_
    rintro s rfl
    have hbpg := hC.geo.bpg_le
    have hsize := hC.geo.size_le
    have hr : s.sb.fsAddrToIdxBg first < s.sb.blocksPerGroup := Nat.mod_lt _ hC.geo.bpg_pos
    obtain ⟨hrange, hqle⟩ := bgid_range hC h0 hal haddr.symm
    generalize hq : s.sb.ballocGetBgidOfBlock first = q at *
    generalize hidx : s.sb.fsAddrToIdxBg first = r at *
    simp only
    rw [sub32_of_le (by omega) (by omega)]
    generalize hc : (if s.sb.getBlockSize * 8 - r < count then s.sb.getBlockSize * 8 - r
      else count) = c
    -- the blocks freed in this round belong to group `q`
    have hcle : c ≤ count ∧ r + c ≤ s.sb.blocksPerGroup := by
      rcases hcond with h | h
      · split_ifs at hc <;> omega
      · have := hrange.2 h.symm
        split_ifs at hc <;> omega
    have hlen : r + c ≤ s.sb.groupLen q := by
      have hb := hal.2.1
      rw [SBlock.groupAddr] at haddr
      rw [SBlock.groupLen]
      omega
    have hbits := hal.bits hC haddr.symm hcle.1 hlen
    have hstep := sat_freeBits hC hg (fun b => isBitSet_bitsFree b r c) hlen hbits
    rw [haddr] at hstep
    refine Prog.Sat.bind (hstep.conseq (fun _ => id) (fun _ _ => id) fun _ _ h => h.free hC)
      fun _ => Prog.Sat.of_forall ?_
    rintro s₁ ⟨hC₁, hfreed⟩
    rcases Nat.eq_or_lt_of_le hcle.1 with rfl | hlt
    · obtain rfl : n = 0 := by
        have := hrange.1 hcle.2
        omega
      refine Prog.Sat.pure ?_
      rintro _ rfl
      exact ⟨Nat.sub_self c, hC₁, hfreed⟩
    · have h8 : s.sb.blocksPerGroup = 8 * s.sb.getBlockSize := by
        refine hcond.resolve_right fun h => ?_
        have := hrange.2 h.symm
        split_ifs at hc <;> omega
      have hc' : c = s.sb.blocksPerGroup - r := by split_ifs at hc <;> omega
      have hnext : s.sb.ballocGetBgidOfBlock (first + c) = q + 1 := by
        have hb := hal.2.1
        have hrel : first + c - s.sb.firstDataBlock = (q + 1) * s.sb.blocksPerGroup := by
          rw [SBlock.groupAddr] at haddr
          rw [Nat.succ_mul]
          omega
        rw [hC.geo.bgid_eq (by have := hal.1; omega) (hC.geo.div_lt (by omega)), hrel,
          Nat.mul_div_cancel _ hC.geo.bpg_pos]
      have hlast : first + c + (count - c) - 1 = first + count - 1 := by omega
      have ih := sat_freeGroups n (first + c) (count - c) hC₁ (by omega)
        (hfreed.allocated hC hal hcle.1) (by rw [hfreed.sb, hlast, hnext]; omega)
        (.inl (by rw [hfreed.sb]; exact h8))
      rw [hfreed.sb, hnext] at ih
      refine ih.conseq (fun _ => id) ?_ fun _ _ => id
      rintro rest fs' ⟨hrest, hC', h⟩
      have h := hfreed.trans h
      rw [show c + (count - c) = count by omega] at h
      exact ⟨hrest, hC', h⟩

/-- **`ext4_balloc_free_blocks`** frees the range, when it stays in one group
    or every group has `8 * block_size` blocks. -/
theorem sat_ballocFreeBlocks {first count : ℕ} (hC : fs.Sound) (h0 : 0 < count)
    (hal : fs.Allocated first count)
    (hcond : fs.sb.blocksPerGroup = 8 * fs.sb.getBlockSize ∨
      fs.sb.ballocGetBgidOfBlock first = fs.sb.ballocGetBgidOfBlock (first + count - 1)) :
    Prog.Sat (· = fs) (ballocFreeBlocks first count)
      (fun _ fs' => fs'.Sound ∧ Freed fs fs' first count) FreeFailed := by
  refine Prog.Sat.get_bind ?_
  rintro s rfl
  have hb := hal.2.1
  have hcount := hC.geo.count_lt
  simp only
  rw [u64_of_lt (by omega), sub64_of_le (by omega) (by omega)]
  refine Prog.Sat.bind (sat_freeGroups _ first count hC h0 hal rfl hcond) fun rest =>
    Prog.Sat.of_forall ?_
  rintro s₁ ⟨rfl, hC₁, hfreed⟩
  refine Prog.Sat.bind ((sat_revokeBlocks count first).conseq (fun _ => id) (fun _ _ => id)
    fun _ _ h => h.free hC₁) fun _ => Prog.Sat.of_forall ?_
  intro s₂ hs
  refine Prog.Sat.pure ?_
  rintro _ rfl
  exact ⟨hs.sound hC₁, hfreed.trans_same hs⟩

end Free

end Lwext4
