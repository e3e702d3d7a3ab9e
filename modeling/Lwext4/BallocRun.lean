/-
  Runs of block allocator calls.

  A run is any sequence of calls, each for some inode, on a file system whose
  device may fail at any access.  On a volume with a sound geometry, and while
  the calls meet `CallOk`, every state is consistent and every call exact
  (`balloc_run_exact`).
  `freeBlocks_crosses_group` is a call outside `CallOk` that frees an allocated
  range and leaves an inconsistent state.
-/
import Lwext4.BallocSpec

namespace Lwext4

open Lib Fs

/-- A call of the block allocator. -/
inductive BallocCall where
  | allocBlock (goal : ℕ)
  | tryAllocBlock (baddr : ℕ)
  | freeBlock (baddr : ℕ)
  | freeBlocks (first count : ℕ)

namespace BallocCall

/-- The call, returning the block it allocated. -/
def prog : BallocCall → FsM (Option ℕ)
  | allocBlock goal => some <$> ballocAllocBlock goal
  | tryAllocBlock baddr => (fun free => if free then some baddr else none) <$> ballocTryAllocBlock baddr
  | freeBlock baddr => (fun _ => none) <$> ballocFreeBlock baddr
  | freeBlocks first count => (fun _ => none) <$> ballocFreeBlocks first count

/-- The call made for an inode. -/
def exec (c : BallocCall) (inode : InodeBlocks) (fs : Fs) : Except Stop (Option ℕ) × Fs :=
  c.prog { fs with inode := inode }

/-- Only allocated ranges are freed. -/
def FreesAllocated (fs : Fs) : BallocCall → Prop
  | freeBlock baddr => fs.Allocated baddr 1
  | freeBlocks first count => 0 < count ∧ fs.Allocated first count
  | _ => True

end BallocCall

/-- The calls that are exact: the goal of an allocation can be searched for,
    the block of a try lies in the group table, the revoke of a block freed
    alone does not fail, and a freed range stays in one group unless every group
    has `8 * block_size` blocks. -/
def CallOk (fs : Fs) : BallocCall → Prop
  | .allocBlock goal => GoalOk fs goal
  | .tryAllocBlock baddr => fs.sb.firstDataBlock ≤ baddr ∧
      (baddr - fs.sb.firstDataBlock) / fs.sb.blocksPerGroup < fs.sb.blockGroupCnt
  | .freeBlock _ => fs.revokes.head? ≠ some true
  | .freeBlocks first count => fs.sb.blocksPerGroup = 8 * fs.sb.getBlockSize ∨
      fs.sb.ballocGetBgidOfBlock first = fs.sb.ballocGetBgidOfBlock (first + count - 1)

/-- What a call has to do: keep the state consistent, and the geometry sound; allocate a block of the
    file system whose bit was clear and change no other bit; report `ENOSPC`
    only if no group has a clear bit; and return. -/
structure Exact (fs : Fs) (r : Except Stop (Option ℕ)) (fs' : Fs) : Prop where
  sound : fs'.Sound
  alloc : ∀ b, r = .ok (some b) → fs.sb.firstDataBlock ≤ b ∧ b < fs.sb.blocksCount ∧
    fs.blockBit b = false ∧ ∀ g < fs.sb.blockGroupCnt, ∀ i,
      bmapIsBitSet (fs'.bitmap g) i = (bmapIsBitSet (fs.bitmap g) i ||
        decide (g = fs.sb.ballocGetBgidOfBlock b ∧ i = fs.sb.fsAddrToIdxBg b))
  nospc : r = .error (.rc .ENOSPC) → ∀ g < fs.sb.blockGroupCnt, ∀ i < fs.sb.groupLen g,
    bmapIsBitSet (fs.bitmap g) i = true
  returns : r ≠ .error .assert

/-- The states reached by calls that satisfy `ok`. -/
inductive BallocRun (ok : Fs → BallocCall → Prop) (fs₀ : Fs) : Fs → Prop
  | start : BallocRun ok fs₀ fs₀
  | call {fs : Fs} (inode : InodeBlocks) (c : BallocCall) : BallocRun ok fs₀ fs → ok fs c →
      BallocRun ok fs₀ (c.exec inode fs).2

/-! ## One call -/

section Call

variable {fs fs' : Fs}

theorem same_inode (fs : Fs) (inode : InodeBlocks) : Same fs { fs with inode := inode } where
  sb := rfl
  lgBcnt := rfl
  addr _ := ⟨rfl, rfl, rfl⟩
  free := rfl
  count _ := ⟨rfl, rfl⟩
  bitmap _ _ := rfl

theorem exact_of_took {g idx : ℕ} (hC : fs.Sound) (h : Took fs fs' g idx) :
    Exact fs (.ok (some (fs.sb.groupAddr g idx))) fs' := by
  refine ⟨h.sound hC, ?_, (nomatch ·), (nomatch ·)⟩
  rintro b hb
  obtain rfl := Option.some.inj (Except.ok.inj hb)
  obtain ⟨hf, hlt⟩ := SBlock.groupAddr_bounds h.lt
  obtain ⟨hg, hi⟩ := hC.geo.locate_groupAddr h.lt
  refine ⟨hf, hlt, by rw [Fs.blockBit, hg, hi, h.clear], fun g' hg' j => ?_⟩
  rw [hg, hi]
  by_cases he : g' = g
  · subst he
    rw [h.upd.bitmap_self, isBitSet_bitSet, Bool.or_comm]
    simp
  · simp [h.upd.bitmap_ne g' hg' he, he]

theorem exact_of_none (hC : fs'.Sound) : Exact fs (.ok none) fs' where
  sound := hC
  alloc b h := by cases h
  nospc h := by cases h
  returns h := by cases h

theorem exact_of_error {e : Stop} (hC : fs'.Sound) (he : e = .rc Errno.EIO ∨ e = .rc Errno.ENXIO) :
    Exact fs (.error e) fs' where
  sound := hC
  alloc b h := by cases h
  nospc h := by rcases he with rfl | rfl <;> cases h
  returns h := by rcases he with rfl | rfl <;> cases h

theorem exact_of_full (hC : fs.Sound) (hs : Same fs fs')
    (hfull : ∀ g < fs.sb.blockGroupCnt, fs.Full g) : Exact fs (.error (.rc .ENOSPC)) fs' where
  sound := hs.sound hC
  alloc b h := by cases h
  nospc _ := hfull
  returns h := by cases h

/-- Exactness as a triple. -/
theorem exact_of_sat {x : FsM (Option ℕ)}
    (h : Prog.Sat (· = fs) x (fun r fs' => Exact fs (.ok r) fs') fun e fs' => Exact fs (.error e) fs') :
    Exact fs (x fs).1 (x fs).2 := by
  have h := h fs rfl
  rcases hx : x fs with ⟨e | r, fs'⟩ <;> rw [hx] at h <;> exact h

/-- **One call is exact.** -/
theorem exact_prog {c : BallocCall} (hC : fs.Sound) (hf : c.FreesAllocated fs)
    (hok : CallOk fs c) : Exact fs (c.prog fs).1 (c.prog fs).2 := by
  refine exact_of_sat ?_
  cases c with
  | allocBlock goal =>
    refine Prog.Sat.map ((sat_ballocAllocBlock hC hok).conseq (fun _ => id) (fun _ _ => id) ?_) ?_
    · rintro e fs' (h | ⟨rfl, hs, hfull⟩)
      · exact exact_of_error (h.1.sound hC) h.2
      · exact exact_of_full hC hs hfull
    · rintro b fs' ⟨g, idx, rfl, h⟩
      exact exact_of_took hC h
  | tryAllocBlock baddr =>
    refine Prog.Sat.map ((sat_ballocTryAllocBlock hC hok.1 hok.2).conseq (fun _ => id)
      (fun _ _ => id) fun e fs' h => exact_of_error (h.1.sound hC) h.2) ?_
    rintro b fs' (⟨rfl, g, idx, rfl, h⟩ | ⟨rfl, hs⟩)
    · exact exact_of_took hC h
    · exact exact_of_none (hs.sound hC)
  | freeBlock baddr =>
    refine Prog.Sat.map ((sat_ballocFreeBlock hC hf hok).conseq (fun _ => id) (fun _ _ => id)
      fun e fs' h => exact_of_error h.1 h.2) fun _ fs' h => exact_of_none h.1
  | freeBlocks first count =>
    refine Prog.Sat.map ((sat_ballocFreeBlocks hC hf.1 hf.2 hok).conseq (fun _ => id)
      (fun _ _ => id) fun e fs' h => exact_of_error h.1 h.2) fun _ fs' h => exact_of_none h.1

/-- Exactness does not depend on the inode the call is made for. -/
theorem exact_exec {c : BallocCall} (inode : InodeBlocks) (hC : fs.Sound)
    (hf : c.FreesAllocated fs) (hok : CallOk fs c) :
    Exact fs (c.exec inode fs).1 (c.exec inode fs).2 := by
  have h : Exact { fs with inode := inode } (c.exec inode fs).1 (c.exec inode fs).2 :=
    exact_prog ((same_inode fs inode).sound hC)
      (by cases c <;> exact hf) (by cases c <;> exact hok)
  exact ⟨h.sound, h.alloc, h.nospc, h.returns⟩

end Call

/-! ## Runs -/

/-- **Main result.**  In every run from a consistent state of a volume with a
    sound geometry, whose calls free allocated ranges only and meet `CallOk`,
    every state is consistent and every such call made there is exact. -/
theorem balloc_run_exact {fs₀ fs : Fs} (hgeo : fs₀.sb.Geometry) (h₀ : fs₀.Consistent)
    (hrun : BallocRun (fun fs c => c.FreesAllocated fs ∧ CallOk fs c) fs₀ fs) :
    fs.Consistent ∧ ∀ inode c, c.FreesAllocated fs → CallOk fs c →
      Exact fs (c.exec inode fs).1 (c.exec inode fs).2 := by
  have hC : fs.Sound := by
    induction hrun with
    | start => exact ⟨h₀, hgeo⟩
    | call inode c _ hok ih => exact (exact_exec inode ih hok.1 hok.2).sound
  exact ⟨hC.toConsistent, fun inode c => exact_exec inode hC⟩

/-! ## A full file system -/

/-- Three groups of 256 blocks of 4 KiB, every bit set. -/
def fullFs : Fs where
  sb :=
    { blocksCount := 768, firstDataBlock := 0, blocksPerGroup := 256, inodesPerGroup := 16
      inodesCount := 48, logBlockSize := 2, inodeSize := 256, descSize := 32
      reservedGdtBlocks := 0, firstMetaBg := 0, sparseSuper := true, hugeFile := false
      flexBg := true, metaBg := false }
  freeBlocksCount := 0
  bg g := ⟨2 + g, 5 + g, 8 + g, 0, 0, false, false, true⟩
  blk _ _ := 0xFF#8
  inode := ⟨16, 0, false⟩
  lgBcnt := 768
  faults := []

theorem fullFs_bit (g i : ℕ) : bmapIsBitSet (fullFs.bitmap g) i = true := by
  have hall : ∀ k : Fin 8, (0xFF#8).getLsbD k.1 = true := by decide
  rw [bmapIsBitSet_eq]
  exact hall ⟨i % 8, Nat.mod_lt _ (by decide)⟩

theorem fullFs_geometry : fullFs.sb.Geometry :=
  ⟨by decide, by decide, by decide, by decide, by decide, by decide, by decide⟩

theorem fullFs_consistent : fullFs.Consistent where
  layout := by
    have hcnt : fullFs.sb.blockGroupCnt = 3 := by decide +kernel
    refine ⟨fun g _ g' _ h => ?_, fun g hg g' hg' => ?_, fun g hg g' hg' k hk => ?_⟩
    · simpa [fullFs] using h
    · rw [hcnt] at hg hg'
      show 5 + g' ≠ 2 + g
      omega
    · rw [hcnt] at hg hg'
      show 8 + g' + k ≠ 2 + g
      omega
  count g _ := by
    have h : clearBits (fullFs.bitmap g) (fullFs.sb.groupLen g) = 0 :=
      Finset.card_eq_zero.2 (Finset.filter_eq_empty_iff.2 fun i _ => by simp [fullFs_bit])
    rw [h]
    rfl
  padding g _ i _ _ := fullFs_bit g i
  total := (Finset.sum_eq_zero fun _ _ => rfl).symm

/-- The run that frees blocks 100 and 101 of group 0. -/
theorem balloc_run_exact_fullFs :
    ((BallocCall.freeBlocks 100 2).exec fullFs.inode fullFs).2.Consistent :=
  (balloc_run_exact fullFs_geometry fullFs_consistent (.call fullFs.inode (.freeBlocks 100 2) .start
    ⟨⟨by decide, by decide, by decide, fun _ _ _ => fullFs_bit _ _⟩,
      .inr (by decide +kernel)⟩)).1

/-- **Freeing blocks 511 and 512**, the last of group 1 and the first of group
    2, clears bit 256 of the bitmap of group 1 and not the bit of block 512. -/
theorem freeBlocks_crosses_group :
    fullFs.sb.Geometry ∧ fullFs.Consistent ∧ (BallocCall.freeBlocks 511 2).FreesAllocated fullFs ∧
      ¬ ((BallocCall.freeBlocks 511 2).exec fullFs.inode fullFs).2.Consistent := by
  refine ⟨fullFs_geometry, fullFs_consistent, ⟨by decide, by decide, by decide, fun b _ _ => fullFs_bit _ _⟩,
    fun hC => ?_⟩
  have hpad := hC.padding 1 (by decide +kernel) 256 (by decide +kernel) (by decide +kernel)
  have hbit : bmapIsBitSet (((BallocCall.freeBlocks 511 2).exec fullFs.inode fullFs).2.bitmap 1)
      256 = false := by decide +kernel
  rw [hbit] at hpad
  cases hpad

end Lwext4
