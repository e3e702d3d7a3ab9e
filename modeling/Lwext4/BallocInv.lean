/-
  The block allocator keeps the free block counts exact.

  `Fs.bitmap` is the bitmap of a group as its next user finds it, so lazy
  initialisation does not change it (`Same`).  `Consistent` states the counts,
  `Sound` adds a geometry the arithmetic of the allocator is made for;
  an operation changes the bitmap and the count of one group (`Updated`).
-/
import Lwext4.Balloc

namespace Lwext4

open Lib

/-! ## Consistent states -/

/-- The number of clear bits among the first `n`. -/
def clearBits (b : Bmap) (n : ℕ) : ℕ :=
  ((Finset.range n).filter fun i => bmapIsBitSet b i = false).card

namespace Fs

/-- The bitmap of group `g` as its next user finds it. -/
def bitmap (fs : Fs) (g : ℕ) : Bmap :=
  let buf := fs.blk (fs.bg g).blockBitmap
  if (fs.bg g).blockUninit then initialBlockBitmap fs.sb (fs.bg g) g buf else buf

/-- The free block count in the descriptor of group `g`. -/
def freeCount (fs : Fs) (g : ℕ) : ℕ := (fs.bg g).getFreeBlocksCount fs.sb

/-- No two groups share a block bitmap, and no inode bitmap or inode table lies
    on one. -/
structure Layout (fs : Fs) : Prop where
  bitmap_inj : ∀ g < fs.sb.blockGroupCnt, ∀ g' < fs.sb.blockGroupCnt,
    (fs.bg g).blockBitmap = (fs.bg g').blockBitmap → g = g'
  inode_ne : ∀ g < fs.sb.blockGroupCnt, ∀ g' < fs.sb.blockGroupCnt,
    (fs.bg g').inodeBitmap ≠ (fs.bg g).blockBitmap
  table_ne : ∀ g < fs.sb.blockGroupCnt, ∀ g' < fs.sb.blockGroupCnt,
    ∀ k < itableBlocks fs.sb g', (fs.bg g').inodeTable + k ≠ (fs.bg g).blockBitmap

/-- Every descriptor counts the clear bits of its bitmap, the superblock counts
    their sum, and the bits past the end of a group are set. -/
structure Consistent (fs : Fs) : Prop where
  layout : fs.Layout
  count : ∀ g < fs.sb.blockGroupCnt,
    fs.freeCount g = clearBits (fs.bitmap g) (fs.sb.groupLen g)
  padding : ∀ g < fs.sb.blockGroupCnt, ∀ i, fs.sb.groupLen g ≤ i →
    i < 8 * fs.sb.getBlockSize → bmapIsBitSet (fs.bitmap g) i = true
  total : fs.freeBlocksCount = ∑ g ∈ Finset.range fs.sb.blockGroupCnt, fs.freeCount g

/-- A consistent state of a volume with a sound geometry. -/
structure Sound (fs : Fs) : Prop extends Consistent fs where
  geo : fs.sb.Geometry

/-! ## What an operation changes -/

/-- Superblock fields and addresses stay. -/
structure Frame (fs fs' : Fs) : Prop where
  sb : fs'.sb = fs.sb
  lgBcnt : fs'.lgBcnt = fs.lgBcnt
  addr : ∀ g, (fs'.bg g).blockBitmap = (fs.bg g).blockBitmap ∧
    (fs'.bg g).inodeBitmap = (fs.bg g).inodeBitmap ∧
    (fs'.bg g).inodeTable = (fs.bg g).inodeTable

/-- Bitmaps and counts stay as well. -/
structure Same (fs fs' : Fs) : Prop extends Frame fs fs' where
  free : fs'.freeBlocksCount = fs.freeBlocksCount
  count : ∀ g, (fs'.bg g).freeBlocksCountLo = (fs.bg g).freeBlocksCountLo ∧
    (fs'.bg g).freeBlocksCountHi = (fs.bg g).freeBlocksCountHi
  bitmap : ∀ g < fs.sb.blockGroupCnt, fs'.bitmap g = fs.bitmap g

/-- Group `g` now has bitmap `b` and free count `c`, the superblock counts
    `total`; the other groups are as before. -/
structure Updated (fs fs' : Fs) (g : ℕ) (b : Bmap) (c total : ℕ) : Prop
    extends Frame fs fs' where
  free : fs'.freeBlocksCount = total
  count_self : fs'.freeCount g = c
  count_ne : ∀ g', g' ≠ g → fs'.freeCount g' = fs.freeCount g'
  bitmap_self : fs'.bitmap g = b
  bitmap_ne : ∀ g' < fs.sb.blockGroupCnt, g' ≠ g → fs'.bitmap g' = fs.bitmap g'

variable {fs fs' fs'' : Fs}

theorem Frame.trans (h : Frame fs fs') (h' : Frame fs' fs'') : Frame fs fs'' where
  sb := h'.sb.trans h.sb
  lgBcnt := h'.lgBcnt.trans h.lgBcnt
  addr g := by
    obtain ⟨a, b, c⟩ := h.addr g
    obtain ⟨a', b', c'⟩ := h'.addr g
    exact ⟨a'.trans a, b'.trans b, c'.trans c⟩

theorem Same.refl (fs : Fs) : Same fs fs where
  sb := rfl
  lgBcnt := rfl
  addr _ := ⟨rfl, rfl, rfl⟩
  free := rfl
  count _ := ⟨rfl, rfl⟩
  bitmap _ _ := rfl

theorem Same.trans (h : Same fs fs') (h' : Same fs' fs'') : Same fs fs'' where
  toFrame := h.toFrame.trans h'.toFrame
  free := h'.free.trans h.free
  count g := ⟨(h'.count g).1.trans (h.count g).1, (h'.count g).2.trans (h.count g).2⟩
  bitmap g hg := (h'.bitmap g (by rwa [h.sb])).trans (h.bitmap g hg)

theorem Same.freeCount (h : Same fs fs') (g : ℕ) : fs'.freeCount g = fs.freeCount g := by
  obtain ⟨hlo, hhi⟩ := h.count g
  unfold Fs.freeCount BGroup.getFreeBlocksCount
  rw [h.sb, hlo, hhi]

theorem Frame.layout (h : Frame fs fs') (hL : fs.Layout) : fs'.Layout where
  bitmap_inj g hg g' hg' he := by
    rw [h.sb] at hg hg'
    rw [(h.addr g).1, (h.addr g').1] at he
    exact hL.bitmap_inj g hg g' hg' he
  inode_ne g hg g' hg' := by
    rw [h.sb] at hg hg'
    rw [(h.addr g).1, (h.addr g').2.1]
    exact hL.inode_ne g hg g' hg'
  table_ne g hg g' hg' k hk := by
    rw [h.sb] at hg hg' hk
    rw [(h.addr g).1, (h.addr g').2.2]
    exact hL.table_ne g hg g' hg' k hk

theorem Same.sound (h : Same fs fs') (hC : fs.Sound) : fs'.Sound where
  geo := h.sb ▸ hC.geo
  layout := h.toFrame.layout hC.layout
  count g hg := by
    rw [h.sb] at hg ⊢
    rw [h.freeCount, h.bitmap g hg, hC.count g hg]
  padding g hg i hi hlt := by
    rw [h.sb] at hg hi hlt
    rw [h.bitmap g hg]
    exact hC.padding g hg i hi hlt
  total := by
    rw [h.free, h.sb, hC.total]
    exact Finset.sum_congr rfl fun g _ => (h.freeCount g).symm

/-- An update after a step that changes nothing. -/
theorem Updated.of_same {g c total : ℕ} {b : Bmap} (h : Same fs fs')
    (h' : Updated fs' fs'' g b c total) : Updated fs fs'' g b c total where
  toFrame := h.toFrame.trans h'.toFrame
  free := h'.free
  count_self := h'.count_self
  count_ne g' hg' := (h'.count_ne g' hg').trans (h.freeCount g')
  bitmap_self := h'.bitmap_self
  bitmap_ne g' hlt hg' :=
    (h'.bitmap_ne g' (by rwa [h.sb]) hg').trans (h.bitmap g' hlt)

/-- An update keeps the counts exact when it counts the clear bits of the new
    bitmap. -/
theorem Updated.sound {g c total : ℕ} {b : Bmap} (hC : fs.Sound)
    (hg : g < fs.sb.blockGroupCnt) (h : Updated fs fs' g b c total)
    (hc : c = clearBits b (fs.sb.groupLen g))
    (hpad : ∀ i, fs.sb.groupLen g ≤ i → i < 8 * fs.sb.getBlockSize → bmapIsBitSet b i = true)
    (htot : total + fs.freeCount g = fs.freeBlocksCount + c) : fs'.Sound where
  geo := h.sb ▸ hC.geo
  layout := h.toFrame.layout hC.layout
  count g' hg' := by
    rw [h.sb] at hg' ⊢
    by_cases he : g' = g
    · rw [he, h.count_self, h.bitmap_self, hc]
    · rw [h.count_ne g' he, h.bitmap_ne g' hg' he, hC.count g' hg']
  padding g' hg' i hi hlt := by
    rw [h.sb] at hg' hi hlt
    by_cases he : g' = g
    · rw [he] at hi ⊢
      rw [h.bitmap_self]
      exact hpad i hi hlt
    · rw [h.bitmap_ne g' hg' he]
      exact hC.padding g' hg' i hi hlt
  total := by
    have hmem : g ∈ Finset.range fs.sb.blockGroupCnt := Finset.mem_range.2 hg
    have hold := Finset.add_sum_erase _ fs.freeCount hmem
    have hnew := Finset.add_sum_erase _ fs'.freeCount hmem
    have hrest : ∑ x ∈ (Finset.range fs.sb.blockGroupCnt).erase g, fs'.freeCount x =
        ∑ x ∈ (Finset.range fs.sb.blockGroupCnt).erase g, fs.freeCount x :=
      Finset.sum_congr rfl fun g' hg' => h.count_ne g' (Finset.ne_of_mem_erase hg')
    rw [h.count_self, hrest] at hnew
    rw [h.free, h.sb, ← hnew]
    rw [hC.total] at htot
    omega

end Fs

open Fs

/-! ## Lazy initialisation changes no bitmap -/

section Init

variable {fs₀ fs : Fs}

/-- How a call fails before it has changed anything. -/
def Failed (fs₀ : Fs) (e : Stop) (fs : Fs) : Prop :=
  Same fs₀ fs ∧ (e = .rc Errno.EIO ∨ e = .rc Errno.ENXIO)

theorem same_faults (fs : Fs) (l : List Bool) : Same fs { fs with faults := l } where
  sb := rfl
  lgBcnt := rfl
  addr _ := ⟨rfl, rfl, rfl⟩
  free := rfl
  count _ := ⟨rfl, rfl⟩
  bitmap _ _ := rfl

/-- A device access changes `faults` only. -/
theorem sat_deviceAccess (fs : Fs) :
    Prog.Sat (· = fs) deviceAccess (fun _ fs' => ∃ l, fs' = { fs with faults := l })
      (fun e fs' => (∃ l, fs' = { fs with faults := l }) ∧ e = .rc Errno.EIO) := by
  rintro s rfl
  unfold deviceAccess
  rcases hf : s.faults with - | ⟨bad | bad, rest⟩
  · exact ⟨[], by rw [← hf]⟩
  · exact ⟨rest, rfl⟩
  · exact ⟨⟨rest, rfl⟩, rfl⟩

theorem sat_transBlockGet (fs : Fs) (addr : ℕ) :
    Prog.Sat (· = fs) (transBlockGet addr)
      (fun b fs' => b = fs.blk addr ∧ ∃ l, fs' = { fs with faults := l })
      (fun e fs' => (∃ l, fs' = { fs with faults := l }) ∧ (e = .rc Errno.EIO ∨ e = .rc Errno.ENXIO)) := by
  refine Prog.Sat.get_bind ?_
  rintro s rfl
  split_ifs
  · refine Prog.Sat.fail ?_
    rintro s rfl
    exact ⟨⟨s.faults, rfl⟩, .inr rfl⟩
  · refine Prog.Sat.bind ((sat_deviceAccess s).conseq (fun _ => id) (fun _ _ => id) ?_)
      fun _ => Prog.Sat.pure fun _ h => ⟨rfl, h⟩
    rintro e _ ⟨h, rfl⟩
    exact ⟨h, .inl rfl⟩

theorem sat_transBlockGetNoread (fs : Fs) (addr : ℕ) :
    Prog.Sat (· = fs) (transBlockGetNoread addr) (fun _ fs' => ∃ l, fs' = { fs with faults := l })
      (fun e fs' => (∃ l, fs' = { fs with faults := l }) ∧ (e = .rc Errno.EIO ∨ e = .rc Errno.ENXIO)) :=
  Prog.Sat.bind (sat_transBlockGet fs addr) fun _ => Prog.Sat.pure fun _ h => h.2

/-- A block that is no block bitmap may change. -/
theorem same_setBlk (fs : Fs) {addr : ℕ} (hne : ∀ g < fs.sb.blockGroupCnt, addr ≠ (fs.bg g).blockBitmap)
    (b : Bmap) : Same fs (fs.setBlk addr b) where
  sb := rfl
  lgBcnt := rfl
  addr _ := ⟨rfl, rfl, rfl⟩
  free := rfl
  count _ := ⟨rfl, rfl⟩
  bitmap g hg := by
    unfold Fs.bitmap Fs.setBlk
    simp only [Function.update_of_ne (hne g hg).symm]

/-- A flag of a descriptor other than `BLOCK_UNINIT` may change. -/
theorem same_setBg {g : ℕ} {f : BGroup → BGroup}
    (hf : ∀ bg, (f bg).blockBitmap = bg.blockBitmap ∧ (f bg).inodeBitmap = bg.inodeBitmap ∧
      (f bg).inodeTable = bg.inodeTable ∧ (f bg).freeBlocksCountLo = bg.freeBlocksCountLo ∧
      (f bg).freeBlocksCountHi = bg.freeBlocksCountHi ∧ (f bg).blockUninit = bg.blockUninit) :
    Same fs (fs.setBg g f) := by
  have hbg : ∀ g', (fs.setBg g f).bg g' = fs.bg g' ∨ g' = g ∧ (fs.setBg g f).bg g' = f (fs.bg g) :=
    fun g' => by
      by_cases he : g' = g
      · exact .inr ⟨he, by rw [he]; exact Function.update_self ..⟩
      · exact .inl (Function.update_of_ne he ..)
  obtain ⟨h1, h2, h3, h4, h5, h6⟩ := hf (fs.bg g)
  refine ⟨⟨rfl, rfl, fun g' => ?_⟩, rfl, fun g' => ?_, fun g' _ => ?_⟩
  · rcases hbg g' with h | ⟨rfl, h⟩ <;> rw [h]
    · exact ⟨rfl, rfl, rfl⟩
    · exact ⟨h1, h2, h3⟩
  · rcases hbg g' with h | ⟨rfl, h⟩ <;> rw [h]
    · exact ⟨rfl, rfl⟩
    · exact ⟨h4, h5⟩
  · unfold Fs.bitmap
    rcases hbg g' with h | ⟨rfl, h⟩ <;> rw [h]
    · rfl
    · simp only [h6, h1, initialBlockBitmap, h2, h3]
      rfl

theorem sat_zeroBlocks : ∀ (n fblock : ℕ) {fs₀ : Fs},
    (∀ k < n, ∀ g < fs₀.sb.blockGroupCnt, fblock + k ≠ (fs₀.bg g).blockBitmap) →
    Prog.Sat (· = fs₀) (zeroBlocks fblock n)
      (fun _ fs => Same fs₀ fs ∧ fs.bg = fs₀.bg) (fun e fs => Failed fs₀ e fs ∧ fs.bg = fs₀.bg)
  | 0, _, fs₀, _ => Prog.Sat.pure (by rintro _ rfl; exact ⟨.refl _, rfl⟩)
  | n + 1, fblock, fs₀, hne => by
    refine Prog.Sat.bind (Q := fun _ fs' => ∃ l, fs' = { fs₀ with faults := l })
      ((sat_transBlockGetNoread fs₀ fblock).conseq (fun _ => id) (fun _ _ => id) ?_) fun _ => ?_
    · rintro e _ ⟨⟨l, rfl⟩, he⟩
      exact ⟨⟨same_faults fs₀ l, he⟩, rfl⟩
    · rintro _ ⟨l, rfl⟩
      have hblk := (same_faults fs₀ l).trans (same_setBlk { fs₀ with faults := l }
        (fun g hg => hne 0 (by omega) g hg) (memset (fs₀.blk fblock) 0 0#8 fs₀.sb.getBlockSize))
      refine (sat_zeroBlocks n (fblock + 1) (fun k hk g hg => ?_)).conseq (fun _ => id) ?_ ?_ _ rfl
      · have := hne (k + 1) (by omega) g hg
        rwa [show fblock + 1 + k = fblock + (k + 1) by omega]
      · rintro _ fs ⟨h, hbg⟩
        exact ⟨hblk.trans h, hbg⟩
      · rintro e fs ⟨⟨h, he⟩, hbg⟩
        exact ⟨⟨hblk.trans h, he⟩, hbg⟩

theorem sat_fsInitInodeBitmap {g : ℕ} (hL : fs.Layout) (hg : g < fs.sb.blockGroupCnt) :
    Prog.Sat (· = fs) (fsInitInodeBitmap g) (fun _ fs' => Same fs fs' ∧ fs'.bg = fs.bg)
      (fun e fs' => Failed fs e fs' ∧ fs'.bg = fs.bg) := by
  refine Prog.Sat.get_bind ?_
  rintro s rfl
  refine Prog.Sat.bind (Q := fun _ fs' => ∃ l, fs' = { s with faults := l })
    ((sat_transBlockGetNoread s _).conseq (fun _ => id) (fun _ _ => id) ?_) fun _ => ?_
  · rintro e _ ⟨⟨l, rfl⟩, he⟩
    exact ⟨⟨same_faults s l, he⟩, rfl⟩
  · refine Prog.Sat.modify ?_
    rintro _ ⟨l, rfl⟩
    exact ⟨(same_faults s l).trans (same_setBlk { s with faults := l }
      (fun g' hg' => hL.inode_ne g' hg' g hg) _), rfl⟩

/-- Nothing changed, `BLOCK_UNINIT` of group `g` included. -/
def SameAt (g : ℕ) (fs fs' : Fs) : Prop :=
  Same fs fs' ∧ (fs'.bg g).blockUninit = (fs.bg g).blockUninit

theorem SameAt.setBg {g : ℕ} {fs' : Fs} (h : SameAt g fs fs') {f : BGroup → BGroup}
    (hf : ∀ bg, (f bg).blockBitmap = bg.blockBitmap ∧ (f bg).inodeBitmap = bg.inodeBitmap ∧
      (f bg).inodeTable = bg.inodeTable ∧ (f bg).freeBlocksCountLo = bg.freeBlocksCountLo ∧
      (f bg).freeBlocksCountHi = bg.freeBlocksCountHi ∧ (f bg).blockUninit = bg.blockUninit) :
    SameAt g fs (fs'.setBg g f) := by
  refine ⟨h.1.trans (same_setBg hf), ?_⟩
  simp only [Fs.setBg, Function.update_self, (hf _).2.2.2.2.2]
  exact h.2

theorem sat_fsInitInodeTable {g : ℕ} (hL : fs.Layout) (hg : g < fs.sb.blockGroupCnt) :
    Prog.Sat (SameAt g fs) (fsInitInodeTable g) (fun _ => SameAt g fs)
      (fun e fs' => Failed fs e fs') := by
  refine Prog.Sat.get_bind ?_
  rintro s ⟨h, hu⟩
  have hL' := h.toFrame.layout hL
  have hg' : g < s.sb.blockGroupCnt := by rw [h.sb]; exact hg
  refine (sat_zeroBlocks _ _ fun k hk g' hlt => hL'.table_ne g' hlt g hg' k hk).conseq
    (fun _ => id) ?_ ?_
  · rintro _ s' ⟨h', hbg⟩
    exact ⟨h.trans h', by rw [hbg, hu]⟩
  · rintro e s' ⟨⟨h', he⟩, -⟩
    exact ⟨h.trans h', he⟩

/-- The inode half of a group reference touches no block bitmap. -/
theorem sat_fsGetGroupInodes {g : ℕ} (hL : fs.Layout) (hg : g < fs.sb.blockGroupCnt) :
    Prog.Sat (· = fs) (fsGetGroupInodes g) (fun _ => SameAt g fs)
      (fun e fs' => Failed fs e fs') := by
  refine Prog.Sat.get_bind ?_
  rintro s rfl
  split
  · refine Prog.Sat.bind ((sat_fsInitInodeBitmap hL hg).conseq (fun _ => id) (fun _ _ => id)
      fun _ _ h => h.1) fun _ => ?_
    refine Prog.Sat.modify_bind (M := SameAt g s) ?_ ?_
    · split
      · refine Prog.Sat.bind (sat_fsInitInodeTable hL hg) fun _ => Prog.Sat.modify ?_
        intro s' h
        exact h.setBg fun bg => ⟨rfl, rfl, rfl, rfl, rfl, rfl⟩
      · exact Prog.Sat.pure fun _ => id
    · rintro s' ⟨h, hbg⟩
      exact SameAt.setBg ⟨h, by rw [hbg]⟩ fun bg => ⟨rfl, rfl, rfl, rfl, rfl, rfl⟩
  · refine Prog.Sat.pure ?_
    rintro s rfl
    exact ⟨.refl s, rfl⟩

/-- Writing the initial bitmap of a group and dropping its `BLOCK_UNINIT` shows
    the same bitmap. -/
theorem initialised {g : ℕ} (l : List Bool) (hL : fs.Layout) (hg : g < fs.sb.blockGroupCnt)
    (hu : (fs.bg g).blockUninit = true) :
    let fs' := (Fs.setBlk { fs with faults := l } (fs.bg g).blockBitmap
      (initialBlockBitmap fs.sb (fs.bg g) g (fs.blk (fs.bg g).blockBitmap))).setBg g
        fun bg => { bg with blockUninit := false }
    Same fs fs' ∧ (fs'.bg g).blockUninit = false := by
  refine ⟨⟨⟨rfl, rfl, fun g' => ?_⟩, rfl, fun g' => ?_, fun g' hg' => ?_⟩, ?_⟩
  · by_cases he : g' = g
    · simp [Fs.setBg, Fs.setBlk, he]
    · simp [Fs.setBg, Fs.setBlk, he]
  · by_cases he : g' = g
    · simp [Fs.setBg, Fs.setBlk, he]
    · simp [Fs.setBg, Fs.setBlk, he]
  · by_cases he : g' = g
    · subst he
      simp [Fs.bitmap, Fs.setBg, Fs.setBlk, hu]
    · have hne : (fs.bg g').blockBitmap ≠ (fs.bg g).blockBitmap :=
        fun h => he (hL.bitmap_inj g' hg' g hg h)
      simp [Fs.bitmap, Fs.setBg, Fs.setBlk, he, hne]
  · simp [Fs.setBg]

/-- The block half initialises the bitmap that `Fs.bitmap` already shows. -/
theorem sat_fsGetGroupBlocks {g : ℕ} (hL : fs.Layout) (hg : g < fs.sb.blockGroupCnt) :
    Prog.Sat (· = fs) (fsGetGroupBlocks g)
      (fun _ fs' => Same fs fs' ∧ (fs'.bg g).blockUninit = false)
      (fun e fs' => Failed fs e fs') := by
  refine Prog.Sat.get_bind ?_
  rintro s rfl
  split_ifs with hu
  · refine Prog.Sat.bind (Q := fun _ fs' => ∃ l, fs' = Fs.setBlk { s with faults := l }
      (s.bg g).blockBitmap (initialBlockBitmap s.sb (s.bg g) g (s.blk (s.bg g).blockBitmap))) ?_
      fun _ => Prog.Sat.modify ?_
    · refine Prog.Sat.get_bind ?_
      rintro s rfl
      refine Prog.Sat.bind ((sat_transBlockGetNoread s _).conseq (fun _ => id) (fun _ _ => id) ?_)
        fun _ => Prog.Sat.modify ?_
      · rintro e _ ⟨⟨l, rfl⟩, he⟩
        exact ⟨same_faults s l, he⟩
      · rintro _ ⟨l, rfl⟩
        exact ⟨l, rfl⟩
    · rintro _ ⟨l, rfl⟩
      exact initialised l hL hg hu
  · refine Prog.Sat.pure ?_
    rintro s rfl
    exact ⟨.refl s, by simpa using hu⟩

/-- **Fetching a group reference changes no bitmap and no count**; on success
    the bitmap block holds the bitmap of the group. -/
theorem sat_fsGetBlockGroupRef {g : ℕ} (hL : fs.Layout) (hg : g < fs.sb.blockGroupCnt) :
    Prog.Sat (· = fs) (fsGetBlockGroupRef g)
      (fun _ fs' => Same fs fs' ∧ (fs'.bg g).blockUninit = false)
      (fun e fs' => Failed fs e fs') := by
  refine Prog.Sat.get_bind ?_
  rintro s rfl
  refine Prog.Sat.bind (Q := fun _ => Same s) ((sat_transBlockGet s _).conseq (fun _ => id) ?_ ?_)
    fun _ => ?_
  · rintro _ _ ⟨-, l, rfl⟩
    exact same_faults s l
  · rintro e _ ⟨⟨l, rfl⟩, he⟩
    exact ⟨same_faults s l, he⟩
  · intro s₁ h₁
    have hL₁ := h₁.toFrame.layout hL
    have hg₁ : g < s₁.sb.blockGroupCnt := by rw [h₁.sb]; exact hg
    refine Prog.Sat.bind (Q := fun _ fs' => Same s fs' ∧ (fs'.bg g).blockUninit = false)
      ((sat_fsGetGroupBlocks hL₁ hg₁).conseq (fun _ => id) ?_ ?_) (fun _ => ?_) s₁ rfl
    · rintro _ s₂ ⟨h₂, hu₂⟩
      exact ⟨h₁.trans h₂, hu₂⟩
    · rintro e s₂ ⟨h₂, he⟩
      exact ⟨h₁.trans h₂, he⟩
    · rintro s₂ ⟨h₂, hu₂⟩
      have hg₂ : g < s₂.sb.blockGroupCnt := by rw [h₂.sb]; exact hg
      refine (sat_fsGetGroupInodes (h₂.toFrame.layout hL) hg₂).conseq (fun _ => id) ?_ ?_ s₂ rfl
      · rintro _ s₃ ⟨h₃, hu₃⟩
        exact ⟨h₂.trans h₃, hu₃.trans hu₂⟩
      · rintro e s₃ ⟨h₃, he⟩
        exact ⟨h₂.trans h₃, he⟩

/-- Fetch a group reference and read its bitmap block. -/
theorem sat_fetchBitmap {g : ℕ} (hu : (fs.bg g).blockUninit = false) :
    Prog.Sat (· = fs) (transBlockGet (fs.bg g).blockBitmap)
      (fun b fs' => b = fs.bitmap g ∧ Same fs fs' ∧ (fs'.bg g).blockUninit = false)
      (fun e fs' => Failed fs e fs') := by
  refine (sat_transBlockGet fs _).conseq (fun _ => id) ?_ ?_
  · rintro b _ ⟨rfl, l, rfl⟩
    exact ⟨by simp [Fs.bitmap, hu], same_faults fs l, hu⟩
  · rintro e _ ⟨⟨l, rfl⟩, he⟩
    exact ⟨same_faults fs l, he⟩

end Init

/-! ## Counting clear bits -/

theorem clearBits_le (b : Bmap) (n : ℕ) : clearBits b n ≤ n := by
  have h := Finset.card_filter_le (Finset.range n) fun i => bmapIsBitSet b i = false
  rwa [Finset.card_range] at h

theorem clearBits_pos {b : Bmap} {n i : ℕ} (hi : i < n) (hc : bmapIsBitSet b i = false) :
    0 < clearBits b n :=
  Finset.card_pos.2 ⟨i, Finset.mem_filter.2 ⟨Finset.mem_range.2 hi, hc⟩⟩

theorem clearBits_eq_zero {b : Bmap} {n : ℕ} (h : clearBits b n = 0) {i : ℕ} (hi : i < n) :
    bmapIsBitSet b i = true := by
  by_contra hc
  have := clearBits_pos hi (by simpa using hc)
  omega

/-- Setting a clear bit takes one from the count. -/
theorem clearBits_bitSet {b : Bmap} {n i : ℕ} (hi : i < n) (hc : bmapIsBitSet b i = false) :
    clearBits (bmapBitSet b i) n = clearBits b n - 1 := by
  have hmem : i ∈ (Finset.range n).filter fun i => bmapIsBitSet b i = false :=
    Finset.mem_filter.2 ⟨Finset.mem_range.2 hi, hc⟩
  rw [clearBits, clearBits, ← Finset.card_erase_of_mem hmem]
  congr 1
  ext j
  simp only [Finset.mem_filter, Finset.mem_erase, isBitSet_bitSet, Bool.or_eq_false_iff,
    decide_eq_false_iff_not]
  tauto

/-- Clearing a range of set bits adds its length to the count. -/
theorem clearBits_cleared {b b' : Bmap} {n i cnt : ℕ} (hb : ClearedFrom b b' i cnt)
    (hle : i + cnt ≤ n) (hset : ∀ k, i ≤ k → k < i + cnt → bmapIsBitSet b k = true) :
    clearBits b' n = clearBits b n + cnt := by
  have hdisj : Disjoint ((Finset.range n).filter fun j => bmapIsBitSet b j = false)
      (Finset.Ico i (i + cnt)) := by
    rw [Finset.disjoint_left]
    intro j hj hr
    rw [Finset.mem_filter] at hj
    rw [Finset.mem_Ico] at hr
    rw [hset j hr.1 hr.2] at hj
    exact Bool.noConfusion hj.2
  have hunion : ((Finset.range n).filter fun j => bmapIsBitSet b' j = false) =
      ((Finset.range n).filter fun j => bmapIsBitSet b j = false) ∪ Finset.Ico i (i + cnt) := by
    ext j
    simp only [Finset.mem_filter, Finset.mem_union, Finset.mem_Ico, Finset.mem_range,
      hb j, Bool.and_eq_false_iff, Bool.not_eq_false', decide_eq_true_eq]
    constructor
    · rintro ⟨h, h' | h'⟩
      · exact .inl ⟨h, h'⟩
      · exact .inr h'
    · rintro (⟨h, h'⟩ | h')
      · exact ⟨h, .inl h'⟩
      · exact ⟨by omega, .inr h'⟩
  rw [clearBits, hunion, Finset.card_union_of_disjoint hdisj, Nat.card_Ico, clearBits]
  omega

/-! ## Counters -/

section Account

variable {fs : Fs} {g : ℕ}

theorem getFreeBlocksCount_set {s : SBlock} (bg : BGroup) {c : ℕ}
    (h : c < 2 ^ 16 ∨ 32 < s.getDescSize ∧ c < 2 ^ 32) :
    (bg.setFreeBlocksCount s c).getFreeBlocksCount s = c := by
  unfold BGroup.getFreeBlocksCount BGroup.setFreeBlocksCount
  by_cases hd : 32 < s.getDescSize
  · simp only [hd, if_true]
    omega
  · simp only [hd, if_false]
    omega

theorem Fs.Sound.freeCount_le (hC : fs.Sound) (hg : g < fs.sb.blockGroupCnt) :
    fs.freeCount g ≤ fs.sb.groupLen g := by
  rw [hC.count g hg]
  exact clearBits_le _ _

theorem SBlock.groupLen_le (s : SBlock) (g : ℕ) : s.groupLen g ≤ s.blocksPerGroup :=
  Nat.min_le_left _ _

/-- A count up to the length of a group fits the descriptor. -/
theorem Fs.Sound.fits (hC : fs.Sound) {c : ℕ} (hc : c ≤ fs.sb.groupLen g) :
    c < 2 ^ 16 ∨ 32 < fs.sb.getDescSize ∧ c < 2 ^ 32 := by
  have hle := fs.sb.groupLen_le g
  rcases hC.geo.bpg_fits with h | h
  · exact .inl (by omega)
  · have hlt := hC.geo.bpg_lt
    exact .inr ⟨h, by omega⟩

/-- The free counts of the other groups leave room for a full group. -/
theorem Fs.Sound.total_add_le (hC : fs.Sound) (hg : g < fs.sb.blockGroupCnt) {c : ℕ}
    (hc : c ≤ fs.sb.groupLen g) : fs.freeBlocksCount + c < 2 ^ 64 + fs.freeCount g := by
  have hmem : g ∈ Finset.range fs.sb.blockGroupCnt := Finset.mem_range.2 hg
  have hsum := Finset.add_sum_erase _ fs.freeCount hmem
  have hrest : ∑ x ∈ (Finset.range fs.sb.blockGroupCnt).erase g, fs.freeCount x ≤
      (fs.sb.blockGroupCnt - 1) * fs.sb.blocksPerGroup := by
    have h := Finset.sum_le_card_nsmul ((Finset.range fs.sb.blockGroupCnt).erase g)
      fs.freeCount fs.sb.blocksPerGroup fun g' hg' =>
        (hC.freeCount_le (Finset.mem_range.1 (Finset.mem_of_mem_erase hg'))).trans
          (fs.sb.groupLen_le g')
    rwa [Finset.card_erase_of_mem hmem, Finset.card_range, smul_eq_mul] at h
  have hcnt := hC.geo.cnt_spec.2.1
  have hcount := hC.geo.count_lt
  have hlast := hC.geo.cnt_spec.2.2.2
  have hbpg := hC.geo.bpg_lt
  have hle := fs.sb.groupLen_le g
  rw [hC.total]
  omega

/-- Writing the bitmap of an initialised group and its count. -/
theorem updated_of_set (hL : fs.Layout) (hg : g < fs.sb.blockGroupCnt)
    (hu : (fs.bg g).blockUninit = false) (b : Bmap) (inode : InodeBlocks) (total : ℕ) {c : ℕ}
    (hc : c < 2 ^ 16 ∨ 32 < fs.sb.getDescSize ∧ c < 2 ^ 32) :
    Updated fs (Fs.setBg { fs.setBlk (fs.bg g).blockBitmap b with
        freeBlocksCount := total, inode := inode } g fun bg => bg.setFreeBlocksCount fs.sb c)
      g b c total := by
  refine ⟨⟨rfl, rfl, fun g' => ?_⟩, rfl, ?_, fun g' hne => ?_, ?_, fun g' hlt hne => ?_⟩
  · by_cases he : g' = g
    · simp [Fs.setBg, Fs.setBlk, he, BGroup.setFreeBlocksCount]
    · simp [Fs.setBg, Fs.setBlk, he]
  · simp [Fs.freeCount, Fs.setBg, Fs.setBlk, getFreeBlocksCount_set _ hc]
  · simp [Fs.freeCount, Fs.setBg, Fs.setBlk, hne]
  · simp [Fs.bitmap, Fs.setBg, Fs.setBlk, BGroup.setFreeBlocksCount, hu]
  · have hblk : (fs.bg g').blockBitmap ≠ (fs.bg g).blockBitmap :=
      fun h => hne (hL.bitmap_inj g' hlt g hg h)
    simp [Fs.bitmap, Fs.setBg, Fs.setBlk, hne, hblk]

/-- Bit `idx` of group `g` goes from clear to set and the counts follow. -/
structure Took (fs fs' : Fs) (g idx : ℕ) : Prop where
  group : g < fs.sb.blockGroupCnt
  lt : idx < fs.sb.groupLen g
  clear : bmapIsBitSet (fs.bitmap g) idx = false
  upd : Updated fs fs' g (bmapBitSet (fs.bitmap g) idx) (fs.freeCount g - 1)
    (fs.freeBlocksCount - 1)

theorem Took.sound {fs' : Fs} {idx : ℕ} (hC : fs.Sound) (h : Took fs fs' g idx) :
    fs'.Sound := by
  have hpos := clearBits_pos h.lt h.clear
  rw [← hC.count g h.group] at hpos
  have hle : fs.freeCount g ≤ fs.freeBlocksCount := by
    rw [hC.total]
    exact Finset.single_le_sum (fun _ _ => Nat.zero_le _) (Finset.mem_range.2 h.group)
  refine h.upd.sound hC h.group ?_ (fun i hi hlt => ?_) (by omega)
  · rw [clearBits_bitSet h.lt h.clear, hC.count g h.group]
  · rw [isBitSet_bitSet, hC.padding g h.group i hi hlt, Bool.or_true]

/-- **`allocBit` takes a clear bit of the group.** -/
theorem sat_allocBit {idx : ℕ} (hC : fs.Sound) (hg : g < fs.sb.blockGroupCnt)
    (hu : (fs.bg g).blockUninit = false) (hidx : idx < fs.sb.groupLen g)
    (hclr : bmapIsBitSet (fs.bitmap g) idx = false) (E : Stop → Fs → Prop) :
    Prog.Sat (· = fs) (allocBit g idx)
      (fun b fs' => b = fs.sb.groupAddr g idx ∧ Took fs fs' g idx) E := by
  refine Prog.Sat.get_bind ?_
  rintro s rfl
  refine Prog.Sat.modify_bind (M := fun s' =>
    s' = s.setBlk (s.bg g).blockBitmap (bmapBitSet (s.bitmap g) idx)) ?_ ?_
  · refine Prog.Sat.modify_bind (M := fun s' => Took s s' g idx) (Prog.Sat.pure ?_) ?_
    · intro s' h
      exact ⟨hC.geo.fsBgIdxToAddr_eq hidx, h⟩
    · rintro _ rfl
      have hpos := clearBits_pos hidx hclr
      rw [← hC.count g hg] at hpos
      have hle := hC.freeCount_le hg
      have hlt := hC.total_add_le hg hle
      have htot : s.freeCount g ≤ s.freeBlocksCount := by
        rw [hC.total]
        exact Finset.single_le_sum (fun _ _ => Nat.zero_le _) (Finset.mem_range.2 hg)
      have hbpg := hC.geo.bpg_lt
      have hlen := s.sb.groupLen_le g
      have hc := hC.fits (show s.freeCount g - 1 ≤ s.sb.groupLen g by omega)
      have hcnt : sub32 (s.freeCount g) 1 = s.freeCount g - 1 := sub32_of_le (by omega) (by omega)
      have hsum : sub64 s.freeBlocksCount 1 = s.freeBlocksCount - 1 :=
        sub64_of_le (by omega) (by omega)
      have hset := updated_of_set hC.layout hg hu (bmapBitSet (s.bitmap g) idx)
        (inodeSetBlocksCount s.sb s.inode
          (u64 (inodeGetBlocksCount s.sb s.inode + s.sb.getBlockSize / 512)))
        (s.freeBlocksCount - 1) hc
      refine ⟨hg, hidx, hclr, ?_⟩
      unfold Fs.freeCount at hcnt
      simp only [accountAlloc, Fs.setBg, Fs.setBlk, hsum, hcnt]
      exact hset
  · rintro _ rfl
    simp [Fs.bitmap, hu]

/-- `cnt` bits of group `g` from `idx` on go from set to clear and the counts
    follow. -/
structure Gave (fs fs' : Fs) (g idx cnt : ℕ) : Prop where
  group : g < fs.sb.blockGroupCnt
  le : idx + cnt ≤ fs.sb.groupLen g
  set : ∀ k, idx ≤ k → k < idx + cnt → bmapIsBitSet (fs.bitmap g) k = true
  upd : ∃ b, ClearedFrom (fs.bitmap g) b idx cnt ∧
    Updated fs fs' g b (fs.freeCount g + cnt) (fs.freeBlocksCount + cnt)

/-- The clear bits and the freed ones are bits of the group. -/
theorem Fs.Sound.freeCount_add_le (hC : fs.Sound) (hg : g < fs.sb.blockGroupCnt)
    {idx cnt : ℕ} (hle : idx + cnt ≤ fs.sb.groupLen g)
    (hset : ∀ k, idx ≤ k → k < idx + cnt → bmapIsBitSet (fs.bitmap g) k = true) :
    fs.freeCount g + cnt ≤ fs.sb.groupLen g := by
  have hb : ClearedFrom (fs.bitmap g) (bmapBitsFree (fs.bitmap g) idx cnt) idx cnt :=
    isBitSet_bitsFree _ idx cnt
  have h := clearBits_cleared hb hle hset
  rw [hC.count g hg, ← h]
  exact clearBits_le _ _

theorem Gave.sound {fs' : Fs} {idx cnt : ℕ} (hC : fs.Sound)
    (h : Gave fs fs' g idx cnt) : fs'.Sound := by
  obtain ⟨b, hb, hupd⟩ := h.upd
  refine hupd.sound hC h.group ?_ (fun i hi hlt => ?_) (by omega)
  · rw [clearBits_cleared hb h.le h.set, hC.count g h.group]
  · have hle := h.le
    have hout : ¬ (idx ≤ i ∧ i < idx + cnt) := by omega
    rw [hb i, hC.padding g h.group i hi hlt, decide_eq_false hout]
    rfl

/-- Writing a bitmap with a cleared range and accounting for it. -/
theorem gave_account {idx cnt : ℕ} (hC : fs.Sound) (hg : g < fs.sb.blockGroupCnt)
    (hu : (fs.bg g).blockUninit = false) (hle : idx + cnt ≤ fs.sb.groupLen g)
    (hset : ∀ k, idx ≤ k → k < idx + cnt → bmapIsBitSet (fs.bitmap g) k = true) {b : Bmap}
    (hb : ClearedFrom (fs.bitmap g) b idx cnt) :
    Gave fs (accountFree g cnt (fs.setBlk (fs.bg g).blockBitmap b)) g idx cnt := by
  have hsum := hC.freeCount_add_le hg hle hset
  have hlt := hC.total_add_le hg hsum
  have hbpg := hC.geo.bpg_lt
  have hlen := fs.sb.groupLen_le g
  have hcnt : u32 (fs.freeCount g + cnt) = fs.freeCount g + cnt := u32_of_lt (by omega)
  have htot : u64 (fs.freeBlocksCount + cnt) = fs.freeBlocksCount + cnt := u64_of_lt (by omega)
  have hupd := updated_of_set hC.layout hg hu b
    (inodeSetBlocksCount fs.sb fs.inode (sub64 (inodeGetBlocksCount fs.sb fs.inode)
      (u32 (cnt * (fs.sb.getBlockSize / 512))))) (fs.freeBlocksCount + cnt) (hC.fits hsum)
  refine ⟨hg, hle, hset, b, hb, ?_⟩
  unfold Fs.freeCount at hcnt
  simp only [accountFree, Fs.setBg, Fs.setBlk, htot, hcnt]
  exact hupd

end Account

end Lwext4
