/-
  The inode allocator keeps the inode counts exact.

  `Fs.inodeMap` is the inode bitmap of a group as its next user finds it, so
  fetching a group reference does not change it (`ISame`).  `ISafe` states the
  counts, given the set of directories; one call changes one bit of one group
  (`ITook`, `IGave`).
-/
import Lwext4.Ialloc
import Lwext4.BallocInv

namespace Lwext4

open Lib

namespace Fs

/-- The inode bitmap of group `g` as its next user finds it. -/
def inodeMap (fs : Fs) (g : ℕ) : Bmap :=
  let buf := fs.blk (fs.bg g).inodeBitmap
  if (fs.bg g).inodeUninit then initialInodeBitmap fs.sb buf else buf

/-- No two groups share an inode bitmap, and no block bitmap or inode table
    lies on one. -/
structure ILayout (fs : Fs) : Prop where
  bitmap_inj : ∀ g < fs.sb.blockGroupCnt, ∀ g' < fs.sb.blockGroupCnt,
    (fs.bg g).inodeBitmap = (fs.bg g').inodeBitmap → g = g'
  block_ne : ∀ g < fs.sb.blockGroupCnt, ∀ g' < fs.sb.blockGroupCnt,
    (fs.bg g').blockBitmap ≠ (fs.bg g).inodeBitmap
  table_ne : ∀ g < fs.sb.blockGroupCnt, ∀ g' < fs.sb.blockGroupCnt,
    ∀ k < itableBlocks fs.sb g', (fs.bg g').inodeTable + k ≠ (fs.bg g).inodeBitmap

/-- Superblock, addresses and inode bitmaps stay. -/
structure ISame (fs fs' : Fs) : Prop extends Frame fs fs' where
  map : ∀ g < fs.sb.blockGroupCnt, fs'.inodeMap g = fs.inodeMap g

variable {fs fs' fs'' : Fs} {g : ℕ}

theorem ISame.refl (fs : Fs) : ISame fs fs where
  toFrame := (Same.refl fs).toFrame
  map _ _ := rfl

theorem ISame.trans (h : ISame fs fs') (h' : ISame fs' fs'') : ISame fs fs'' where
  toFrame := h.toFrame.trans h'.toFrame
  map g hg := (h'.map g (by rwa [h.sb])).trans (h.map g hg)

theorem Frame.ilayout (h : Frame fs fs') (hL : fs.ILayout) : fs'.ILayout where
  bitmap_inj g hg g' hg' he := by
    rw [h.sb] at hg hg'
    rw [(h.addr g).2.1, (h.addr g').2.1] at he
    exact hL.bitmap_inj g hg g' hg' he
  block_ne g hg g' hg' := by
    rw [h.sb] at hg hg'
    rw [(h.addr g).2.1, (h.addr g').1]
    exact hL.block_ne g hg g' hg'
  table_ne g hg g' hg' k hk := by
    rw [h.sb] at hg hg' hk
    rw [(h.addr g).2.1, (h.addr g').2.2]
    exact hL.table_ne g hg g' hg' k hk

/-! ## Fetching a group reference -/

/-- How a call fails before it has changed anything. -/
def IFailed (fs₀ : Fs) (e : Stop) (fs : Fs) : Prop :=
  ISame fs₀ fs ∧ (e = .rc Errno.EIO ∨ e = .rc Errno.ENXIO)

theorem IFailed.of_same {e : Stop} (h : ISame fs fs') (h' : IFailed fs' e fs'') : IFailed fs e fs'' :=
  ⟨h.trans h'.1, h'.2⟩

theorem isame_faults (fs : Fs) (l : List Bool) : ISame fs { fs with faults := l } where
  toFrame := (same_faults fs l).toFrame
  map _ _ := rfl

/-- A block that is no inode bitmap may change. -/
theorem isame_setBlk (fs : Fs) {addr : ℕ} (hne : ∀ g < fs.sb.blockGroupCnt, addr ≠ (fs.bg g).inodeBitmap)
    (b : Bmap) : ISame fs (fs.setBlk addr b) where
  sb := rfl
  lgBcnt := rfl
  addr _ := ⟨rfl, rfl, rfl⟩
  map g hg := by
    unfold inodeMap setBlk
    simp only [Function.update_of_ne (hne g hg).symm]

/-- A flag of a descriptor other than `INODE_UNINIT` may change. -/
theorem isame_setBg (fs : Fs) (g : ℕ) {f : BGroup → BGroup}
    (hf : ∀ bg, (f bg).blockBitmap = bg.blockBitmap ∧ (f bg).inodeBitmap = bg.inodeBitmap ∧
      (f bg).inodeTable = bg.inodeTable ∧ (f bg).inodeUninit = bg.inodeUninit) :
    ISame fs (fs.setBg g f) := by
  have hbg : ∀ g', (fs.setBg g f).bg g' = fs.bg g' ∨
      g' = g ∧ (fs.setBg g f).bg g' = f (fs.bg g) := by
    intro g'
    by_cases he : g' = g
    · exact .inr ⟨he, by rw [he]; exact Function.update_self ..⟩
    · exact .inl (Function.update_of_ne he ..)
  obtain ⟨h1, h2, h3, h4⟩ := hf (fs.bg g)
  refine ⟨⟨rfl, rfl, fun g' => ?_⟩, fun g' _ => ?_⟩
  · rcases hbg g' with h | ⟨rfl, h⟩ <;> rw [h]
    · exact ⟨rfl, rfl, rfl⟩
    · exact ⟨h1, h2, h3⟩
  · unfold inodeMap
    rcases hbg g' with h | ⟨rfl, h⟩ <;> rw [h]
    · rfl
    · simp only [h4, h2]
      rfl

theorem isat_transBlockGet (fs : Fs) (addr : ℕ) :
    Prog.Sat (· = fs) (transBlockGet addr)
      (fun b fs' => b = fs.blk addr ∧ ∃ l, fs' = { fs with faults := l }) (IFailed fs) := by
  refine (sat_transBlockGet fs addr).conseq (fun _ => id) (fun _ _ => id) ?_
  rintro e _ ⟨⟨l, rfl⟩, he⟩
  exact ⟨isame_faults fs l, he⟩

theorem isat_transBlockGetNoread (fs : Fs) (addr : ℕ) :
    Prog.Sat (· = fs) (transBlockGetNoread addr) (fun _ fs' => ∃ l, fs' = { fs with faults := l })
      (IFailed fs) :=
  Prog.Sat.bind (isat_transBlockGet fs addr) fun _ => Prog.Sat.pure fun _ h => h.2

theorem isat_zeroBlocks (n fblock : ℕ) {fs₀ : Fs}
    (hne : ∀ k < n, ∀ g < fs₀.sb.blockGroupCnt, fblock + k ≠ (fs₀.bg g).inodeBitmap) :
    Prog.Sat (· = fs₀) (zeroBlocks fblock n) (fun _ fs => ISame fs₀ fs ∧ fs.bg = fs₀.bg) (IFailed fs₀) := by
  induction n generalizing fblock fs₀ with
  | zero =>
    refine Prog.Sat.pure ?_
    rintro _ rfl
    exact ⟨.refl _, rfl⟩
  | succ n ih =>
    refine Prog.Sat.bind (Q := fun _ fs' => ∃ l, fs' = { fs₀ with faults := l })
      (isat_transBlockGetNoread fs₀ fblock) fun _ => ?_
    rintro _ ⟨l, rfl⟩
    have hblk := (isame_faults fs₀ l).trans (isame_setBlk { fs₀ with faults := l }
      (fun g hg => hne 0 (by omega) g hg) (memset (fs₀.blk fblock) 0 0#8 fs₀.sb.getBlockSize))
    refine (ih (fblock + 1) fun k hk g hg => ?_).conseq (fun _ => id) ?_ ?_ _ rfl
    · have h := hne (k + 1) (by omega) g hg
      rwa [show fblock + 1 + k = fblock + (k + 1) by omega]
    · intro _ fs h
      exact ⟨hblk.trans h.1, h.2⟩
    · intro e fs h
      exact h.of_same hblk

/-- Nothing changed, and `INODE_UNINIT` of group `g` is off. -/
def Fetched (g : ℕ) (fs fs' : Fs) : Prop := ISame fs fs' ∧ (fs'.bg g).inodeUninit = false

theorem Fetched.of_same (h : ISame fs fs') (h' : Fetched g fs' fs'') : Fetched g fs fs'' :=
  ⟨h.trans h'.1, h'.2⟩

/-- The block half of a group reference touches no inode bitmap. -/
theorem isat_fsGetGroupBlocks (hL : fs.ILayout) (hg : g < fs.sb.blockGroupCnt) :
    Prog.Sat (· = fs) (fsGetGroupBlocks g) (fun _ => ISame fs) (IFailed fs) := by
  refine Prog.Sat.get_bind ?_
  rintro s rfl
  split_ifs with hu
  · refine Prog.Sat.bind (Q := fun _ => ISame s) (Prog.Sat.get_bind ?_) fun _ => Prog.Sat.modify ?_
    · rintro s rfl
      refine Prog.Sat.bind (isat_transBlockGetNoread s _) fun _ => Prog.Sat.modify ?_
      rintro _ ⟨l, rfl⟩
      exact (isame_faults s l).trans (isame_setBlk { s with faults := l }
        (fun g' hg' => hL.block_ne g' hg' g hg) _)
    · intro s' h
      exact h.trans (isame_setBg s' g fun bg => ⟨rfl, rfl, rfl, rfl⟩)
  · refine Prog.Sat.pure ?_
    rintro s rfl
    exact .refl s

/-- Writing the initial inode bitmap and dropping `INODE_UNINIT` shows the same
    bitmap. -/
theorem inode_initialised (l : List Bool) (hL : fs.ILayout) (hg : g < fs.sb.blockGroupCnt)
    (hu : (fs.bg g).inodeUninit = true) :
    Fetched g fs ((setBlk { fs with faults := l } (fs.bg g).inodeBitmap
      (initialInodeBitmap fs.sb (fs.blk (fs.bg g).inodeBitmap))).setBg g
        fun bg => { bg with inodeUninit := false }) := by
  refine ⟨⟨⟨rfl, rfl, fun g' => ?_⟩, fun g' hg' => ?_⟩, ?_⟩
  · by_cases he : g' = g
    · simp [setBg, setBlk, he]
    · simp [setBg, setBlk, he]
  · by_cases he : g' = g
    · subst he
      simp [inodeMap, setBg, setBlk, hu]
    · have hne : (fs.bg g').inodeBitmap ≠ (fs.bg g).inodeBitmap :=
        fun h => he (hL.bitmap_inj g' hg' g hg h)
      simp [inodeMap, setBg, setBlk, he, hne]
  · simp [setBg]

theorem isat_fsInitInodeBitmap (fs : Fs) (g : ℕ) :
    Prog.Sat (· = fs) (fsInitInodeBitmap g) (fun _ fs' => ∃ l, fs' = setBlk { fs with faults := l }
      (fs.bg g).inodeBitmap (initialInodeBitmap fs.sb (fs.blk (fs.bg g).inodeBitmap))) (IFailed fs) := by
  refine Prog.Sat.get_bind ?_
  rintro s rfl
  refine Prog.Sat.bind (isat_transBlockGetNoread s _) fun _ => Prog.Sat.modify ?_
  rintro _ ⟨l, rfl⟩
  exact ⟨l, rfl⟩

theorem isat_fsInitInodeTable (hL : fs.ILayout) (hg : g < fs.sb.blockGroupCnt) :
    Prog.Sat (· = fs) (fsInitInodeTable g) (fun _ fs' => ISame fs fs' ∧ fs'.bg = fs.bg) (IFailed fs) := by
  refine Prog.Sat.get_bind ?_
  rintro s rfl
  exact isat_zeroBlocks _ _ fun k hk g' hg' => hL.table_ne g' hg' g hg k hk

/-- The inode half initialises the bitmap that `inodeMap` already shows. -/
theorem isat_fsGetGroupInodes (hL : fs.ILayout) (hg : g < fs.sb.blockGroupCnt) :
    Prog.Sat (· = fs) (fsGetGroupInodes g) (fun _ => Fetched g fs) (IFailed fs) := by
  refine Prog.Sat.get_bind ?_
  rintro s rfl
  by_cases hu : (s.bg g).inodeUninit = true
  · rw [if_pos hu]
    refine Prog.Sat.bind (isat_fsInitInodeBitmap s g) fun _ => ?_
    refine Prog.Sat.modify_bind (M := Fetched g s) ?_ ?_
    · split_ifs with hz
      · refine Prog.Sat.bind (Q := fun _ => Fetched g s) ?_ fun _ => Prog.Sat.modify ?_
        · refine Prog.Sat.of_forall fun s₁ h₁ => ?_
          have hg₁ : g < s₁.sb.blockGroupCnt := by rwa [h₁.1.sb]
          refine (isat_fsInitInodeTable (h₁.1.toFrame.ilayout hL) hg₁).conseq (fun _ => id) ?_ ?_
          · intro _ s₂ h₂
            exact ⟨h₁.1.trans h₂.1, by rw [h₂.2]; exact h₁.2⟩
          · intro e s₂ h₂
            exact h₂.of_same h₁.1
        · intro s₁ h₁
          refine ⟨h₁.1.trans (isame_setBg s₁ g fun bg => ⟨rfl, rfl, rfl, rfl⟩), ?_⟩
          simpa [setBg] using h₁.2
      · exact Prog.Sat.pure fun _ => id
    · rintro _ ⟨l, rfl⟩
      exact inode_initialised l hL hg hu
  · rw [if_neg hu]
    refine Prog.Sat.pure ?_
    rintro s rfl
    exact ⟨.refl s, by simpa using hu⟩

/-- **Fetching a group reference changes no inode bitmap**; on success the
    block of the inode bitmap holds it. -/
theorem isat_fsGetBlockGroupRef (hL : fs.ILayout) (hg : g < fs.sb.blockGroupCnt) :
    Prog.Sat (· = fs) (fsGetBlockGroupRef g) (fun _ => Fetched g fs) (IFailed fs) := by
  refine Prog.Sat.get_bind ?_
  rintro s rfl
  refine Prog.Sat.bind (Q := fun _ => ISame s) ((isat_transBlockGet s _).conseq (fun _ => id) ?_
    fun _ _ => id) fun _ => ?_
  · rintro _ _ ⟨-, l, rfl⟩
    exact isame_faults s l
  refine Prog.Sat.bind (Q := fun _ => ISame s) ?_ fun _ => ?_
  · refine Prog.Sat.of_forall fun s₁ h₁ => ?_
    have hg₁ : g < s₁.sb.blockGroupCnt := by rwa [h₁.sb]
    refine (isat_fsGetGroupBlocks (h₁.toFrame.ilayout hL) hg₁).conseq (fun _ => id) ?_ ?_
    · intro _ s₂ h₂
      exact h₁.trans h₂
    · intro e s₂ h₂
      exact h₂.of_same h₁
  · refine Prog.Sat.of_forall fun s₁ h₁ => ?_
    have hg₁ : g < s₁.sb.blockGroupCnt := by rwa [h₁.sb]
    refine (isat_fsGetGroupInodes (h₁.toFrame.ilayout hL) hg₁).conseq (fun _ => id) ?_ ?_
    · intro _ s₂ h₂
      exact h₂.of_same h₁
    · intro e s₂ h₂
      exact h₂.of_same h₁

end Fs

end Lwext4
