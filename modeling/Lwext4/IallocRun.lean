/-
  Runs of the inode allocator.

  Main results.
  * `ialloc_run_exact`: while the counts fit their fields, every state of a run
    is safe and every call exact.
  * `freeInode_overflows`: a call that frees an allocated inode and leaves a
    free count of zero.
-/
import Lwext4.IallocSafe

namespace Lwext4

open Lib Fs

/-! ## The search -/

section Search

variable {fs fs' : IFs} {dirs : ℕ → Bool} {g idx : ℕ}

/-- A group counts free inodes. -/
def IFs.hasFree (fs : IFs) (g : ℕ) : Bool := (fs.ibg g).getFreeInodesCount fs.sb != 0

/-- The groups in the order in which they are searched. -/
def IFs.searchOrder (fs : IFs) : List ℕ :=
  List.range' fs.lastInodeBgId (fs.sb.blockGroupCnt - fs.lastInodeBgId) ++ List.range' 0 fs.lastInodeBgId

/-- The group that the next inode comes from. -/
def IFs.nextGroup (fs : IFs) : Option ℕ := fs.searchOrder.find? fs.hasFree

/-- The search through the groups `gs` succeeds in the first one that counts
    free inodes. -/
def ISearch (fs : IFs) (isDir : Bool) (gs : List ℕ) (ino : ℕ) (fs' : IFs) : Prop :=
  ∃ g idx, gs.find? fs.hasFree = some g ∧ ino = fs.sb.inodeNo g idx ∧ ITook fs fs' isDir g idx

/-- The search fails. -/
def INone (fs : IFs) (gs : List ℕ) (e : Stop) (fs' : IFs) : Prop :=
  IStopped fs e fs' ∨ e = .rc .ENOSPC ∧ IPending fs fs' ∧ gs.find? fs.hasFree = none

/-- The loop from `n` groups before the end on, given what it does from the end
    on. -/
theorem sat_walk (hs : ISafe fs dirs) (isDir : Bool) {bgCount k : ℕ} {rewind : Bool} {gs : List ℕ}
    (hcnt : bgCount ≤ fs.sb.blockGroupCnt)
    (hend : ∀ fuel ≥ k, Prog.Sat (IPending fs)
      (allocInodeLoop fs.lastInodeBgId fs.freeInodesCount isDir fuel bgCount bgCount rewind)
      (ISearch fs isDir gs) (INone fs gs)) (n : ℕ) (hn : n ≤ bgCount) :
    ∀ fuel ≥ k + n, Prog.Sat (IPending fs)
      (allocInodeLoop fs.lastInodeBgId fs.freeInodesCount isDir fuel (bgCount - n) bgCount rewind)
      (ISearch fs isDir (List.range' (bgCount - n) n ++ gs))
      (INone fs (List.range' (bgCount - n) n ++ gs)) := by
  induction n with
  | zero =>
    intro fuel hfuel
    exact hend fuel hfuel
  | succ n ih =>
    intro fuel hfuel
    obtain ⟨fuel, rfl⟩ : ∃ m, fuel = m + 1 := ⟨fuel - 1, by omega⟩
    have hg : bgCount - (n + 1) < fs.sb.blockGroupCnt := by omega
    have hnext : bgCount - (n + 1) + 1 = bgCount - n := by omega
    rw [allocInodeLoop, if_neg (by omega), if_neg (by omega)]
    refine Prog.Sat.bind ((sat_allocInodeInGroup hs hg isDir).conseq (fun _ => id)
      (fun _ _ => id) ?_) fun t => ?_
    · intro e s h
      exact .inl h
    rw [List.range'_succ, List.cons_append, hnext]
    cases t with
    | found ino =>
      refine Prog.Sat.pure ?_
      rintro s ⟨hfree, idx, rfl, htook⟩
      exact ⟨_, idx, List.find?_cons_of_pos (bne_iff_ne.2 hfree), rfl, htook⟩
    | again => exact fun s h => h.elim
    | next =>
      refine Prog.Sat.of_forall fun s₀ h₀ => ?_
      have hskip : List.find? fs.hasFree ((bgCount - (n + 1)) :: (List.range' (bgCount - n) n ++ gs)) =
          List.find? fs.hasFree (List.range' (bgCount - n) n ++ gs) := by
        refine List.find?_cons_of_neg fun h => ?_
        exact bne_iff_ne.1 h h₀.1
      unfold ISearch INone
      rw [hskip]
      refine (ih (by omega) fuel (by omega)).pre ?_
      rintro s rfl
      exact h₀.2

/-- **`ext4_ialloc_alloc_inode`** takes an inode of the first group that has
    one. -/
theorem sat_iallocAllocInode (hs : ISafe fs dirs) (isDir : Bool) :
    Prog.Sat (· = fs) (iallocAllocInode isDir) (ISearch fs isDir fs.searchOrder) (INone fs fs.searchOrder) := by
  refine Prog.Sat.get_bind ?_
  rintro s rfl
  have hlast := hs.last
  -- the second round ends at the group where the first one began
  have hround : ∀ fuel ≥ 1 + s.lastInodeBgId, Prog.Sat (IPending s)
      (allocInodeLoop s.lastInodeBgId s.freeInodesCount isDir fuel 0 s.lastInodeBgId true)
      (ISearch s isDir (List.range' 0 s.lastInodeBgId)) (INone s (List.range' 0 s.lastInodeBgId)) := by
    have hend : ∀ fuel ≥ 1, Prog.Sat (IPending s)
        (allocInodeLoop s.lastInodeBgId s.freeInodesCount isDir fuel s.lastInodeBgId s.lastInodeBgId true)
        (ISearch s isDir []) (INone s []) := by
      intro fuel hfuel
      obtain ⟨fuel, rfl⟩ : ∃ m, fuel = m + 1 := ⟨fuel - 1, by omega⟩
      rw [allocInodeLoop, if_neg (lt_irrefl _), if_pos rfl, if_pos rfl]
      exact Prog.Sat.fail fun s' h => .inr ⟨rfl, h, rfl⟩
    have h := sat_walk hs isDir hlast.le hend s.lastInodeBgId le_rfl
    rwa [Nat.sub_self, List.append_nil] at h
  have hfirst : ∀ fuel ≥ s.lastInodeBgId + 2, Prog.Sat (IPending s)
      (allocInodeLoop s.lastInodeBgId s.freeInodesCount isDir fuel s.sb.blockGroupCnt s.sb.blockGroupCnt false)
      (ISearch s isDir (List.range' 0 s.lastInodeBgId)) (INone s (List.range' 0 s.lastInodeBgId)) := by
    intro fuel hfuel
    obtain ⟨fuel, rfl⟩ : ∃ m, fuel = m + 1 := ⟨fuel - 1, by omega⟩
    rw [allocInodeLoop, if_neg (lt_irrefl _), if_pos rfl, if_neg Bool.false_ne_true]
    exact hround fuel (by omega)
  have h := sat_walk hs isDir le_rfl hfirst (s.sb.blockGroupCnt - s.lastInodeBgId) (Nat.sub_le ..)
    (s.sb.blockGroupCnt + 2) (by omega)
  rw [show s.sb.blockGroupCnt - (s.sb.blockGroupCnt - s.lastInodeBgId) = s.lastInodeBgId by omega] at h
  refine h.pre ?_
  rintro _ rfl
  exact ⟨_, rfl, .refl _⟩

/-- A group that is not found has no clear bit. -/
theorem ISafe.full_of_none (hs : ISafe fs dirs) (hnone : fs.nextGroup = none) (hg : g < fs.sb.blockGroupCnt)
    (hi : idx < fs.sb.inodesInGroupCnt g) : bmapIsBitSet (fs.toFs.inodeMap g) idx = true := by
  have hmem : g ∈ fs.searchOrder := by
    have hlast := hs.last
    rw [IFs.searchOrder, List.mem_append, List.mem_range'_1, List.mem_range'_1]
    omega
  have hfree : (fs.ibg g).getFreeInodesCount fs.sb = 0 := by
    by_contra hne
    exact List.find?_eq_none.1 hnone g hmem (bne_iff_ne.2 hne)
  rw [(hs.group g hg).free] at hfree
  exact clearBits_eq_zero hfree hi

end Search

/-! ## Runs -/

/-- A call of the inode allocator. -/
inductive IallocCall where
  | allocInode (isDir : Bool)
  | freeInode (index : ℕ) (isDir : Bool)

namespace IallocCall

/-- The call, returning the inode it allocated. -/
def exec : IallocCall → IFsM (Option ℕ)
  | allocInode isDir => some <$> iallocAllocInode isDir
  | freeInode index isDir => (fun _ => none) <$> iallocFreeInode index isDir

/-- The directories after the call has returned `r`. -/
def dirsAfter (dirs : ℕ → Bool) : IallocCall → Except Stop (Option ℕ) → ℕ → Bool
  | allocInode isDir, .ok (some ino) => Function.update dirs ino isDir
  | freeInode index _, .ok _ => Function.update dirs index false
  | _, _ => dirs

/-- Only allocated inodes are freed, as what they are. -/
def FreesAllocated (fs : IFs) (dirs : ℕ → Bool) : IallocCall → Prop
  | freeInode index isDir => dirs index = isDir ∧ ∃ g < fs.sb.blockGroupCnt, ∃ i < fs.sb.inodesInGroupCnt g,
      index = fs.sb.inodeNo g i ∧ bmapIsBitSet (fs.toFs.inodeMap g) i = true
  | allocInode _ => True

/-- The count that the call raises still fits its field. -/
def CountFits (fs : IFs) : IallocCall → Prop
  | allocInode isDir => isDir = true → ∀ g, fs.nextGroup = some g →
      fs.sb.Fits ((fs.ibg g).getUsedDirsCount fs.sb + 1)
  | freeInode index _ => fs.sb.Fits ((fs.ibg (fs.sb.iallocGetBgidOfInode index)).getFreeInodesCount fs.sb + 1)

end IallocCall

/-- The bit of an inode. -/
def IFs.inodeBit (fs : IFs) (ino : ℕ) : Bool :=
  bmapIsBitSet (fs.toFs.inodeMap (fs.sb.iallocGetBgidOfInode ino)) (fs.sb.iallocInodeToBgidx ino)

/-- What a call has to do: keep the state safe; allocate an inode of the file
    system whose bit was clear and change no other bit; report `ENOSPC` only if
    no group has a clear bit; and return. -/
structure IExact (fs : IFs) (r : Except Stop (Option ℕ)) (fs' : IFs) (dirs' : ℕ → Bool) : Prop where
  safe : ISafe fs' dirs'
  alloc : ∀ ino, r = .ok (some ino) → 1 ≤ ino ∧ ino ≤ fs.sb.inodesCount ∧ fs.inodeBit ino = false ∧
    ∀ g < fs.sb.blockGroupCnt, ∀ i, bmapIsBitSet (fs'.toFs.inodeMap g) i =
      (bmapIsBitSet (fs.toFs.inodeMap g) i ||
      decide (g = fs.sb.iallocGetBgidOfInode ino ∧ i = fs.sb.iallocInodeToBgidx ino))
  nospc : r = .error (.rc .ENOSPC) → ∀ g < fs.sb.blockGroupCnt, ∀ i < fs.sb.inodesInGroupCnt g,
    bmapIsBitSet (fs.toFs.inodeMap g) i = true
  returns : r ≠ .error .assert

/-- The states and directories reached by calls that satisfy `ok`. -/
inductive IallocRun (ok : IFs → (ℕ → Bool) → IallocCall → Prop) (fs₀ : IFs) (dirs₀ : ℕ → Bool) :
    IFs → (ℕ → Bool) → Prop
  | start : IallocRun ok fs₀ dirs₀ fs₀ dirs₀
  | call {fs : IFs} {dirs : ℕ → Bool} (c : IallocCall) : IallocRun ok fs₀ dirs₀ fs dirs → ok fs dirs c →
      IallocRun ok fs₀ dirs₀ (c.exec fs).2 (c.dirsAfter dirs (c.exec fs).1)

section Run

variable {fs fs' : IFs} {dirs : ℕ → Bool} {g idx : ℕ}

theorem iexact_of_took (hs : ISafe fs dirs) {isDir : Bool} (h : ITook fs fs' isDir g idx)
    (hfit : isDir = true → fs.sb.Fits ((fs.ibg g).getUsedDirsCount fs.sb + 1)) :
    IExact fs (.ok (some (fs.sb.inodeNo g idx))) fs' (Function.update dirs (fs.sb.inodeNo g idx) isDir) := by
  refine ⟨h.safe hs hfit, ?_, (nomatch ·), (nomatch ·)⟩
  rintro ino hino
  obtain rfl := Option.some.inj (Except.ok.inj hino)
  obtain ⟨hg, hi⟩ := hs.geo.locate h.group h.lt
  obtain ⟨-, hsum⟩ := hs.geo.cnt_le h.group
  have hlt := h.lt
  refine ⟨Nat.le_add_left .., ?_, ?_, fun g' hg' j => ?_⟩
  · unfold SBlock.inodeNo
    omega
  · rw [IFs.inodeBit, hg, hi, h.clear]
  · rw [hg, hi]
    by_cases he : g' = g
    · subst he
      rw [h.upd.map_self, isBitSet_bitSet, Bool.or_comm]
      simp
    · simp [h.upd.map_ne g' hg' he, he]

theorem iexact_of_stopped {e : Stop} (hs : ISafe fs dirs) (h : IStopped fs e fs') :
    IExact fs (.error e) fs' dirs where
  safe := hs.pending h.1
  alloc _ h := by cases h
  nospc he := by rcases h.2 with rfl | rfl <;> cases he
  returns he := by rcases h.2 with rfl | rfl <;> cases he

/-- **One call is exact.** -/
theorem iexact_exec {c : IallocCall} (hs : ISafe fs dirs) (hf : c.FreesAllocated fs dirs)
    (hfit : c.CountFits fs) :
    IExact fs (c.exec fs).1 (c.exec fs).2 (c.dirsAfter dirs (c.exec fs).1) := by
  cases c with
  | allocInode isDir =>
    have h : Prog.Sat (· = fs) ((IallocCall.allocInode isDir).exec)
        (fun r fs' => ∃ ino, r = some ino ∧ ISearch fs isDir fs.searchOrder ino fs')
          (INone fs fs.searchOrder) :=
      Prog.Sat.map (sat_iallocAllocInode hs isDir) fun ino fs' h => ⟨ino, rfl, h⟩
    have h := h fs rfl
    rcases hx : (IallocCall.allocInode isDir).exec fs with ⟨e | r, fs'⟩ <;> rw [hx] at h
    · rcases h with h | ⟨rfl, hpend, hnone⟩
      · exact iexact_of_stopped hs h
      · refine ⟨hs.pending hpend, ?_, fun _ g hg i hi => hs.full_of_none hnone hg hi, ?_⟩
        · intro _ h
          cases h
        · intro h
          cases h
    · obtain ⟨ino, rfl, g, idx, hfind, rfl, htook⟩ := h
      exact iexact_of_took hs htook fun hd => hfit hd g hfind
  | freeInode index isDir =>
    obtain ⟨hdir, g, hg, i, hi, rfl, hset⟩ := hf
    have h : Prog.Sat (· = fs) ((IallocCall.freeInode (fs.sb.inodeNo g i) isDir).exec)
        (fun r fs' => r = none ∧ IGave fs fs' isDir g i) (IStopped fs) :=
      Prog.Sat.map (sat_iallocFreeInode hs hg hi hset isDir) fun _ fs' h => ⟨rfl, h⟩
    have h := h fs rfl
    rcases hx : (IallocCall.freeInode (fs.sb.inodeNo g i) isDir).exec fs with ⟨e | r, fs'⟩ <;> rw [hx] at h
    · exact iexact_of_stopped hs h
    · obtain ⟨hr, hgave⟩ := h
      subst hr
      subst hdir
      have hfit : fs.sb.Fits ((fs.ibg (fs.sb.iallocGetBgidOfInode (fs.sb.inodeNo g i))).getFreeInodesCount
        fs.sb + 1) := hfit
      rw [(hs.geo.locate hg hi).1] at hfit
      refine ⟨hgave.safe hs hfit, ?_, ?_, ?_⟩
      · intro _ h
        cases h
      · intro h
        cases h
      · intro h
        cases h

/-- **Main result.**  In every run from a safe state whose calls free allocated
    inodes only and raise no count past its field, every state is safe and
    every such call made there is exact. -/
theorem ialloc_run_exact {fs₀ : IFs} {dirs₀ : ℕ → Bool} (h₀ : ISafe fs₀ dirs₀)
    (hrun : IallocRun (fun fs dirs c => c.FreesAllocated fs dirs ∧ c.CountFits fs) fs₀ dirs₀ fs dirs) :
    ISafe fs dirs ∧ ∀ c : IallocCall, c.FreesAllocated fs dirs → c.CountFits fs →
      IExact fs (c.exec fs).1 (c.exec fs).2 (c.dirsAfter dirs (c.exec fs).1) := by
  have hs : ISafe fs dirs := by
    induction hrun with
    | start => exact h₀
    | call c _ hok ih => exact (iexact_exec ih hok.1 hok.2).safe
  exact ⟨hs, fun c => iexact_exec hs⟩

end Run

/-! ## A group of 65536 inodes -/

/-- One group with blocks of 8 KiB and descriptors of 32 bytes, all inodes free
    but the first. -/
def wideFs : IFs where
  sb :=
    { blocksCount := 65536, firstDataBlock := 0, blocksPerGroup := 65536, inodesPerGroup := 65536
      inodesCount := 65536, logBlockSize := 3, inodeSize := 256, descSize := 32
      reservedGdtBlocks := 0, firstMetaBg := 0, sparseSuper := true, hugeFile := false
      flexBg := true, metaBg := false }
  freeBlocksCount := 0
  bg _ := ⟨4, 5, 6, 0, 0, false, false, true⟩
  blk _ := bmapBitSet (fun _ => 0#8) 0
  inode := ⟨16, 0, false⟩
  lgBcnt := 65536
  faults := []
  ibg _ := ⟨⟨0xFFFF, 0⟩, ⟨0, 0⟩, ⟨0, 0⟩⟩
  freeInodesCount := 65535
  lastInodeBgId := 0

theorem clearBits_zero (n : ℕ) : clearBits (fun _ => 0#8) n = n := by
  have hclear : ∀ i, bmapIsBitSet (fun _ => 0#8) i = false := by
    intro i
    rw [bmapIsBitSet_eq]
    exact BitVec.getLsbD_zero
  rw [clearBits, Finset.filter_true_of_mem fun i _ => hclear i, Finset.card_range]

theorem wideFs_cnt : wideFs.sb.blockGroupCnt = 1 ∧ wideFs.sb.inodesInGroupCnt 0 = 65536 := by
  decide +kernel

theorem wideFs_safe : ISafe wideFs fun _ => false := by
  obtain ⟨hcnt, hlen⟩ := wideFs_cnt
  have hfree : (wideFs.ibg 0).getFreeInodesCount wideFs.sb = 65535 := by decide +kernel
  refine ⟨⟨by decide, by rw [hcnt]; decide, by rw [hcnt]; decide, by rw [hcnt]; decide, by decide⟩,
    ⟨?_, ?_, ?_⟩, by rw [hcnt]; decide, ?_, ?_⟩
  · intro g hg g' hg' _
    rw [hcnt] at hg hg'
    omega
  · intro g _ g' _
    show (4 : ℕ) ≠ 5
    decide
  · intro g _ g' _ k _
    show 6 + k ≠ 5
    omega
  · intro g hg
    obtain rfl : g = 0 := by omega
    refine ⟨?_, ?_, ?_, by decide +kernel, ?_⟩
    · show _ = clearBits (bmapBitSet (fun _ => 0#8) 0) _
      rw [hfree, hlen, clearBits_bitSet (by decide) (by decide), clearBits_zero]
    · have hzero : (wideFs.ibg 0).getUsedDirsCount wideFs.sb = 0 := by decide +kernel
      rw [hzero, dirCount, Finset.filter_false_of_mem fun _ _ => Bool.false_ne_true]
      rfl
    · intro _ _ h
      exact absurd h Bool.false_ne_true
    · intro i hi hle
      have hzero : (wideFs.ibg 0).getItableUnused wideFs.sb = 0 := by decide +kernel
      rw [hzero] at hle
      omega
  · rw [hcnt, Finset.sum_range_one, hfree]
    rfl

/-- The run that allocates a file. -/
theorem ialloc_run_exact_wideFs :
    ISafe ((IallocCall.allocInode false).exec wideFs).2
      ((IallocCall.allocInode false).dirsAfter (fun _ => false)
        ((IallocCall.allocInode false).exec wideFs).1) :=
  (ialloc_run_exact wideFs_safe (.call (.allocInode false) .start
    ⟨trivial, fun h => absurd h Bool.false_ne_true⟩)).1

/-- **Freeing the only inode** makes 65536 free inodes, and the descriptor
    counts none. -/
theorem freeInode_overflows : ¬ ∀ (fs : IFs) (dirs : ℕ → Bool) (c : IallocCall), ISafe fs dirs →
    c.FreesAllocated fs dirs → ISafe (c.exec fs).2 (c.dirsAfter dirs (c.exec fs).1) := by
  intro h
  obtain ⟨hcnt, hlen⟩ := wideFs_cnt
  have hfrees : (IallocCall.freeInode 1 false).FreesAllocated wideFs fun _ => false :=
    ⟨rfl, 0, by rw [hcnt]; decide, 0, by rw [hlen]; decide, rfl, by decide⟩
  have hsafe := h wideFs (fun _ => false) (.freeInode 1 false) wideFs_safe hfrees
  have hgroup := (hsafe.group 0 (by decide +kernel)).free
  have hzero : (((IallocCall.freeInode 1 false).exec wideFs).2.ibg 0).getFreeInodesCount
      ((IallocCall.freeInode 1 false).exec wideFs).2.sb = 0 := by decide +kernel
  rw [hzero] at hgroup
  have hset := clearBits_eq_zero hgroup.symm (i := 0) (by decide +kernel)
  have hclear : bmapIsBitSet (((IallocCall.freeInode 1 false).exec wideFs).2.toFs.inodeMap 0) 0 = false := by
    decide +kernel
  rw [hclear] at hset
  exact Bool.noConfusion hset

end Lwext4
