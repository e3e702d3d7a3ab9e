/-
  The life of a file without extents (`ext4_fs.c`): `ext4_fs_append_inode_dblk`,
  `ext4_fs_truncate_inode` and `ext4_fs_free_inode`, with whatever else happens
  in the filesystem between the calls.

  The setter takes from the allocator what it hangs into the trees, and nothing
  else (`Grows`).  So the blocks of a file are at all times different from each
  other and from those of anybody else, and besides these no block is allocated
  (`Owns`).  The truncation gives back the mapped blocks, and `ext4_fs_free_inode`
  the indirect ones.  The branches of the truncation for short symbolic links and
  for devices, which map no blocks, are left out.

  Main results.
  * `reach_owns`: the blocks of the file along every run.
  * `life_returns`: a file that is truncated and freed gives back its blocks, each
    once, and nothing else.
-/
import Lwext4.IndirectExact

namespace Lwext4

open Lib.Radix

/-! ## The calls -/

/-- The number of blocks of a size, as `ext4_fs_truncate_inode` computes it. -/
def sizeBlocksCnt (blockSize size : ℕ) : ℕ := u32 ((size + blockSize - 1) / blockSize)

/-- How a call ends, the inode after it, and the blocks it has freed. -/
abbrev IndOut (α : Type) := Except Errno α × IndInode × List ℕ

/-- Go on with the next call unless there is an error. -/
def IndOut.andThen {α β : Type} (r : IndOut α) (f : α → IndInode → IndOut β) : IndOut β :=
  match r with
  | (.error rc, s, freed) => (.error rc, s, freed)
  | (.ok a, s, freed) => ((f a s).1, (f a s).2.1, freed ++ (f a s).2.2)

/-- `ext4_fs_append_inode_dblk` on an inode without extents: the new block and its
    logical number.  The data block is the one of level 0. -/
def IndInode.ext4FsAppendInodeDblk (blockSize : ℕ) (s : IndInode) (env : IndEnv s.used) :
    IndOut (ℕ × ℕ) :=
  let inodeSize := if s.size % blockSize ≠ 0 then s.size + (blockSize - s.size % blockSize)
    else s.size
  let newBlockIdx := u32 (inodeSize / blockSize)
  match env.alloc 0 with
  | .error rc => (.error rc, s, [])
  | .ok physBlock =>
    match ext4FsSetInodeDataBlockIndex (blocksId blockSize) env newBlockIdx physBlock
        (s.take physBlock) with
    | (.error rc, s, freed) =>
      (.error rc, (s.freeBlock env.free physBlock).2.1,
        freed ++ (s.freeBlock env.free physBlock).2.2)
    | (.ok _, s, freed) =>
      (.ok (physBlock, newBlockIdx), { s with size := inodeSize + blockSize }, freed)

section Truncate

variable {used : ℕ → Bool} (p : ℕ) (env : ℕ → IndEnv used)

/-- The loop of `ext4_fs_truncate_inode`; `env i` is what happens while block `i` is
    released. -/
def truncateLoop : (n iblock : ℕ) → IndInode → IndOut Unit
  | 0, _, s => (.ok (), s, [])
  | n + 1, iblock, s =>
    IndOut.andThen (ext4FsReleaseInodeBlock p (env iblock) iblock s) fun _ s =>
      truncateLoop n (iblock + 1) s

end Truncate

/-- `ext4_fs_truncate_inode` on a file or directory without extents, where
    `canTruncate` is `ext4_inode_can_truncate`. -/
def ext4FsTruncateInode {used : ℕ → Bool} (blockSize : ℕ) (env : ℕ → IndEnv used)
    (canTruncate : Bool) (newSize : ℕ) (s : IndInode) : IndOut Unit :=
  if !canTruncate then (.error Errno.EINVAL, s, [])
  else if s.size = newSize then (.ok (), s, [])
  else if s.size < newSize then (.error Errno.EINVAL, s, [])
  else
    let newBlocksCnt := sizeBlocksCnt blockSize newSize
    let diffBlocksCnt := sub32 (sizeBlocksCnt blockSize s.size) newBlocksCnt
    IndOut.andThen (truncateLoop (blocksId blockSize) env diffBlocksCnt newBlocksCnt s) fun _ s =>
      (.ok (), { s with size := newSize }, [])

/-- What happens while an inode is freed: how the read of a block ends, how its
    release does, and how `ext4_ialloc_free_inode` does. -/
structure FreeEnv where
  read : ℕ → Except Errno Unit
  free : ℕ → Except Errno Unit
  ialloc : Except Errno Unit

section Free

variable (p : ℕ) (io : FreeEnv)

/-- The loop over the entries of an indirect block, the `n` last ones, with `below` for
    each that is not 0. -/
def freeEntries (below : ℕ → IndInode → IndOut Unit) (b : ℕ) : (n : ℕ) → IndInode → IndOut Unit
  | 0, s => (.ok (), s, [])
  | n + 1, s =>
    let indBlock := s.dev b (p - (n + 1))
    if indBlock = 0 then freeEntries below b n s
    else IndOut.andThen (below indBlock s) fun _ s => freeEntries below b n s

/-- A block with `k` levels of indirect blocks below it, and these, are freed; `block`
    and `subblock` of the source are held while the loops run. -/
def freeTree : (k b : ℕ) → IndInode → IndOut Unit
  | 0, b, s => s.freeBlock (io.free b) b
  | k + 1, b, s =>
    match io.read b with
    | .error rc => (.error rc, s, [])
    | .ok _ =>
      IndOut.andThen (freeEntries p (freeTree k) b p s) fun _ s => s.freeBlock (io.free b) b

/-- The part of `ext4_fs_free_inode` for the tree of level `idx + 1`. -/
def freeIndirect (idx : ℕ) (s : IndInode) : IndOut Unit :=
  if s.indirect idx = 0 then (.ok (), s, [])
  else IndOut.andThen (freeTree p io idx (s.indirect idx) s) fun _ s =>
    (.ok (), s.setIndirect idx 0, [])

/-- `ext4_fs_free_inode` on an inode without extents, where `fileAcl` is the block with
    its extended attributes. -/
def ext4FsFreeInode (fileAcl : ℕ) (s : IndInode) : IndOut Unit :=
  IndOut.andThen (freeIndirect p io 0 s) fun _ s =>
  IndOut.andThen (freeIndirect p io 1 s) fun _ s =>
  IndOut.andThen (freeIndirect p io 2 s) fun _ s =>
  IndOut.andThen (if fileAcl ≠ 0 then s.freeBlock (io.free fileAcl) fileAcl else (.ok (), s, []))
    fun _ s => (io.ialloc, s, [])

end Free

/-! ## What the setter takes -/

theorem error_ne_ok {α : Type} {rc : Errno} {a : α} :
    (Except.error rc : Except Errno α) ≠ .ok a := by
  intro h
  cases h

section Setter

variable {p : ℕ} {s s' s'' : IndInode} {used : ℕ → Bool} {env : IndEnv used}

/-- An indirect block of the inode. -/
def IndInode.Inner (p : ℕ) (s : IndInode) (b : ℕ) : Prop :=
  b ≠ 0 ∧ ∃ r k q, k < indHeight r ∧ q < p ^ k ∧ s.nd p r k q = b

/-- What has been allocated is hung into the trees, and no other block is. -/
structure Grows (p : ℕ) (s s' : IndInode) : Prop where
  inner : ∀ x, s.Inner p x → s'.Inner p x
  used : ∀ x, s'.used x = true ↔ s.used x = true ∨ s'.Inner p x
  fresh : ∀ x, s'.Inner p x → s.used x = true → s.Inner p x

theorem IndSound.inner_used (hs : IndSound p s) {x : ℕ} (h : s.Inner p x) : s.used x = true := by
  obtain ⟨h0, r, k, q, hk, hq, rfl⟩ := h
  exact hs.used hk hq h0

theorem Grows.of_same (hs : IndSound p s) (hused : s'.used = s.used)
    (hnd : ∀ ⦃r k q⦄, k < indHeight r → q < p ^ k → s'.nd p r k q = s.nd p r k q) :
    Grows p s s' := by
  have hinner : ∀ x, s'.Inner p x ↔ s.Inner p x := by
    refine fun x => and_congr_right fun _ => exists_congr fun r => exists_congr fun k =>
      exists_congr fun q => and_congr_right fun hk => and_congr_right fun hq => ?_
    rw [hnd hk hq]
  refine ⟨fun x h => (hinner x).2 h, fun x => ?_, fun x h _ => (hinner x).1 h⟩
  rw [hused, hinner]
  exact ⟨.inl, fun h => h.elim id hs.inner_used⟩

theorem Grows.refl (hs : IndSound p s) : Grows p s s := .of_same hs rfl fun _ _ _ _ _ => rfl

theorem Grows.trans (h : Grows p s s') (h' : Grows p s' s'') : Grows p s s'' where
  inner x hx := h'.inner x (h.inner x hx)
  used x := by
    rw [h'.used, h.used, or_assoc, or_iff_right_of_imp (h'.inner x)]
  fresh x hx hu := h.fresh x (h'.fresh x hx ((h.used x).2 (.inl hu))) hu

/-- One block is taken and hung. -/
theorem Grows.attach {r k q b : ℕ} (hb : b ≠ 0) (hfree : s.used b = false) (hk : k < indHeight r)
    (hq : q < p ^ k) (h0 : s.nd p r k q = 0) (hs : IndSound p s)
    (hused : s'.used = Function.update s.used b true)
    (hnd : ∀ ⦃r' k' q'⦄, k' ≤ indHeight r' → q' < p ^ k' → s'.nd p r' k' q' =
      if r' = r ∧ k' = k ∧ q' = q then b else s.nd p r' k' q') : Grows p s s' := by
  have hinner : ∀ x, s'.Inner p x ↔ s.Inner p x ∨ x = b := by
    intro x
    constructor
    · rintro ⟨hx, r', k', q', hk', hq', rfl⟩
      rw [hnd hk'.le hq'] at hx ⊢
      split_ifs at hx ⊢
      · exact .inr rfl
      · exact .inl ⟨hx, r', k', q', hk', hq', rfl⟩
    · rintro (⟨hx, r', k', q', hk', hq', rfl⟩ | rfl)
      · refine ⟨hx, r', k', q', hk', hq', ?_⟩
        rw [hnd hk'.le hq', if_neg]
        rintro ⟨rfl, rfl, rfl⟩
        exact hx h0
      · exact ⟨hb, r, k, q, hk, hq, by rw [hnd hk.le hq, if_pos ⟨rfl, rfl, rfl⟩]⟩
  refine ⟨fun x hx => (hinner x).2 (.inl hx), fun x => ?_, fun x hx hu => ?_⟩
  · rw [hused, hinner]
    by_cases hxb : x = b
    · subst hxb
      rw [Function.update_self]
      exact iff_of_true rfl (.inr (.inr rfl))
    · rw [Function.update_of_ne hxb]
      constructor
      · exact .inl
      · rintro (h | h | h)
        · exact h
        · exact hs.inner_used h
        · exact absurd h hxb
  · rcases (hinner x).1 hx with h | rfl
    · exact h
    · rw [hfree] at hu
      cases hu

/-- What the setter meets with: all that can fail is the allocator and the reads. -/
structure IndEnv.Fair (env : IndEnv used) : Prop extends env.Plain where
  noread : ∀ l, env.noread l = .ok ()
  free : env.free = .ok ()

theorem setLoop_grows (hp : 0 < p) (henv : env.Fair) (fblock : ℕ) {r o : ℕ} (hr : r ≤ 3)
    (ho : o < p ^ r) : ∀ {l : ℕ} {s : IndInode}, 1 ≤ l → l ≤ r → IndSound p s →
    s.nd p r (r - l) (o / p ^ l) ≠ 0 →
    (∀ m < l, ∀ b, env.alloc m = .ok b → s.used b = false) →
      Grows p s (setLoop p env fblock l (s.nd p r (r - l) (o / p ^ l)) (o % p ^ l) s).2 := by
  intro l
  induction l with
  | zero => exact fun h => absurd h (by decide)
  | succ l ih =>
    intro s _ hlr hs hcur hfresh
    have hq : o / p ^ (l + 1) < p ^ (r - (l + 1)) := place_lt ho hlr
    have hd : o % p ^ (l + 1) / p ^ l < p := place_digit_lt hp o l
    have hheight := indHeight_of_le hr
    rw [setLoop]
    simp only [inodeBlocksPerLevel_eq, (place_step o l).2]
    rcases env.read (l + 1) with rc | u
    · exact .refl hs
    · rcases Nat.eq_zero_or_pos l with rfl | hl
      · simp only [if_true]
        obtain ⟨-, hnd⟩ := hs.putLeaf (v := fblock) (by omega) hq hd hcur
        refine .of_same hs rfl fun r' k' q' hk' hq' => ?_
        rw [hnd hk'.le hq', if_neg]
        rintro ⟨rfl, rfl, -⟩
        omega
      · rw [if_neg (by omega)]
        have hdown := nd_step hp hlr hcur
        rw [hdown]
        split_ifs with hnext
        · exact ih hl (by omega) hs hnext fun m hm => hfresh m (by omega)
        · have h0 : s.nd p r (r - l) (o / p ^ l) = 0 := not_not.1 hnext
          rcases halloc : env.alloc l with rc | b
          · exact .refl hs
          · -- a new block is hung
            simp only [henv.noread]
            have hfree := hfresh l (Nat.lt_succ_self l) b halloc
            obtain ⟨hsound, hnd⟩ := hs.attachChild (r := r) (by omega) hq hd hcur
              (hdown.trans h0) (env.fresh l b halloc).1 hfree (henv.fits l b halloc)
            rw [henv.dirty l]
            have hpos : r - l = r - (l + 1) + 1 := by omega
            rw [← (place_step o l).1, ← hpos] at hnd
            have hgrow := Grows.attach (env.fresh l b halloc).1 hfree (by omega)
              (place_lt ho (by omega)) h0 hs rfl hnd
            refine hgrow.trans ?_
            have hb₁ : (((s.take b).clear b true).put (s.nd p r (r - (l + 1)) (o / p ^ (l + 1)))
                (o % p ^ (l + 1) / p ^ l) b).nd p r (r - l) (o / p ^ l) = b := by
              rw [hnd (by omega) (place_lt ho (by omega)), if_pos ⟨rfl, rfl, rfl⟩]
            have hrun := ih hl (by omega) hsound (by rw [hb₁]; exact (env.fresh l b halloc).1)
              fun m hm c hc => ?_
            · rwa [hb₁] at hrun
            · have hcb : c ≠ b := by
                rintro rfl
                have := env.distinct m l c hc halloc
                omega
              exact (Function.update_of_ne hcb ..).trans (hfresh m (by omega) c hc)

/-- **What the setter takes it hangs into the trees**, also when it fails. -/
theorem set_grows (hp : 0 < p) (henv : env.Fair) (hs : IndSound p s) (hused : used = s.used) {i : ℕ}
    (hlim : i < inodeBlockLimits p 3) (fblock : ℕ) :
    Grows p s (ext4FsSetInodeDataBlockIndex p env i fblock s).2.1 := by
  by_cases hi : i < inodeDirectBlockCount
  · rw [ext4FsSetInodeDataBlockIndex, if_pos hi]
    exact .of_same hs rfl fun r k q hk _ => nd_setDirect hi _ (indHeight_pos hk) k q
  have hi' := Nat.le_of_not_lt hi
  obtain ⟨hl1, hl3, -, ho⟩ := indLevel_spec hi' hlim
  rw [ext4FsSetInodeDataBlockIndex, if_neg hi]
  simp only
  rw [if_neg (by omega)]
  have hfresh : ∀ m, ∀ b, env.alloc m = .ok b → s.used b = false := fun m b hb => by
    rw [← hused]
    exact (env.fresh m b hb).2
  have hsub : ∀ (s : IndInode), s.nd p (indLevel p i) (indLevel p i - indLevel p i)
      ((i - inodeBlockLimits p (indLevel p i - 1)) / p ^ indLevel p i) = s.root (indLevel p i) := by
    intro s
    rw [Nat.sub_self]
    rfl
  rw [setTop, indirect_eq hl1]
  by_cases hroot : s.root (indLevel p i) = 0
  · rw [if_neg (not_not.2 hroot)]
    rcases halloc : env.alloc (indLevel p i) with rc | b
    · exact .refl hs
    · simp only [henv.noread]
      obtain ⟨hsound, hnd⟩ := hs.attachRoot hl1 hroot (env.fresh _ b halloc).1
        (hfresh _ b halloc) (henv.fits _ b halloc)
      rw [henv.dirty]
      have hgrow := Grows.attach (env.fresh _ b halloc).1 (hfresh _ b halloc)
        (by rw [indHeight_of_le hl3]; exact hl1) (by simp)
        (show s.nd p (indLevel p i) 0 0 = 0 from hroot) hs rfl hnd
      refine hgrow.trans ?_
      have hb₁ : (((s.take b).setIndirect (indLevel p i - 1) b).clear b true).root
          (indLevel p i) = b := by
        have hzero : (((s.take b).setIndirect (indLevel p i - 1) b).clear b true).nd p
            (indLevel p i) 0 0 = b := by
          rw [hnd (Nat.zero_le _) (by simp), if_pos ⟨rfl, rfl, rfl⟩]
        exact hzero
      have hrun := setLoop_grows hp henv fblock hl3 ho hl1 le_rfl hsound
        (by rw [hsub, hb₁]; exact (env.fresh _ b halloc).1) fun m hm c hc => ?_
      · rwa [hsub, hb₁, Nat.mod_eq_of_lt ho] at hrun
      · have hcb : c ≠ b := by
          rintro rfl
          have := env.distinct m _ c hc halloc
          omega
        exact (Function.update_of_ne hcb ..).trans (hfresh m c hc)
  · rw [if_pos hroot]
    have hrun := setLoop_grows hp henv fblock hl3 ho hl1 le_rfl hs
      (by rw [hsub]; exact hroot) fun m _ => hfresh m
    rwa [hsub, Nat.mod_eq_of_lt ho] at hrun

end Setter

/-! ## The blocks of the file -/

/-- A block that holds data of the file. -/
def IndInode.Data (p : ℕ) (s : IndInode) (b : ℕ) : Prop :=
  b ≠ 0 ∧ ∃ i < inodeBlockLimits p 3, s.mapped p i = b

/-- **The file owns its blocks**: they are all different, and besides the blocks `base`
    of others nothing else is allocated; nothing is mapped behind the size. -/
structure Owns (blockSize : ℕ) (base : ℕ → Bool) (s : IndInode) : Prop where
  sound : IndSound (blocksId blockSize) s
  used : ∀ x, s.used x = true ↔
    base x = true ∨ s.Inner (blocksId blockSize) x ∨ s.Data (blocksId blockSize) x
  inner_base : ∀ x, s.Inner (blocksId blockSize) x → base x = false
  data_base : ∀ x, s.Data (blocksId blockSize) x → base x = false
  apart : ∀ x, s.Data (blocksId blockSize) x → ¬ s.Inner (blocksId blockSize) x
  inj : ∀ i < inodeBlockLimits (blocksId blockSize) 3,
    ∀ j < inodeBlockLimits (blocksId blockSize) 3,
    s.mapped (blocksId blockSize) i ≠ 0 →
    s.mapped (blocksId blockSize) i = s.mapped (blocksId blockSize) j → i = j
  beyond : ∀ i < inodeBlockLimits (blocksId blockSize) 3, (s.size + blockSize - 1) / blockSize ≤ i →
    s.mapped (blocksId blockSize) i = 0
  room : (s.size + blockSize - 1) / blockSize ≤ inodeBlockLimits (blocksId blockSize) 3
  fits : (s.size + blockSize - 1) / blockSize < 2 ^ 32

section Calls

variable {bs : ℕ} {base : ℕ → Bool} {s s' : IndInode} {used : ℕ → Bool}

theorem inner_congr {p : ℕ} (hnd : ∀ ⦃r k q⦄, k < indHeight r → q < p ^ k →
    s'.nd p r k q = s.nd p r k q) (x : ℕ) : s'.Inner p x ↔ s.Inner p x := by
  refine and_congr_right fun _ => exists_congr fun r => exists_congr fun k =>
    exists_congr fun q => and_congr_right fun hk => and_congr_right fun hq => ?_
  rw [hnd hk hq]

/-- `env` once its data block is taken. -/
def IndEnv.behind (env : IndEnv used) {b : ℕ} (hb : env.alloc 0 = .ok b) :
    IndEnv (Function.update used b true) where
  read := env.read
  alloc l := if l = 0 then .error Errno.ENOSPC else env.alloc l
  noread := env.noread
  dirty := env.dirty
  free := env.free
  fresh l c hc := by
    split_ifs at hc with h0
    refine ⟨(env.fresh l c hc).1, ?_⟩
    rw [Function.update_of_ne]
    · exact (env.fresh l c hc).2
    · rintro rfl
      exact h0 (env.distinct l 0 c hc hb)
  distinct l l' c hc hc' := by
    split_ifs at hc hc'
    exact env.distinct l l' c hc hc'

theorem IndEnv.Fair.behind {env : IndEnv used} (h : env.Fair) {b : ℕ} (hb : env.alloc 0 = .ok b) :
    (env.behind hb).Fair where
  fits l c hc := by
    simp only [IndEnv.behind] at hc
    split_ifs at hc
    exact h.fits l c hc
  dirty := h.dirty
  noread := h.noread
  free := h.free

/-- The setter does not ask for a block of level 0. -/
theorem set_behind {env : IndEnv used} {b : ℕ} (hb : env.alloc 0 = .ok b) (p i fblock : ℕ)
    (s : IndInode) :
    ext4FsSetInodeDataBlockIndex p (env.behind hb) i fblock s =
      ext4FsSetInodeDataBlockIndex p env i fblock s := by
  have hloop : ∀ (l cur off : ℕ) (s : IndInode),
      setLoop p (env.behind hb) fblock l cur off s = setLoop p env fblock l cur off s := by
    intro l
    induction l with
    | zero => exact fun _ _ _ => rfl
    | succ l ih =>
      intro cur off s
      rw [setLoop, setLoop]
      simp only [ih]
      by_cases h0 : l = 0
      · simp only [h0, if_true]
        rfl
      · simp only [if_neg h0, IndEnv.behind]
  unfold ext4FsSetInodeDataBlockIndex setTop
  simp only [hloop]
  by_cases h0 : indLevel p i = 0
  · simp only [h0, if_true]
  · simp only [if_neg h0, IndEnv.behind]

theorem data_congr {p : ℕ} (hmap : ∀ j < inodeBlockLimits p 3, s'.mapped p j = s.mapped p j)
    (x : ℕ) :
    s'.Data p x ↔ s.Data p x := by
  refine and_congr_right fun _ => exists_congr fun i => and_congr_right fun hi => ?_
  rw [hmap i hi]

theorem Owns.not_used (h : Owns bs base s) {b : ℕ} (hb : s.used b = false) :
    base b = false ∧ ¬ s.Inner (blocksId bs) b ∧ ¬ s.Data (blocksId bs) b := by
  have hno := mt (h.used b).2 (by rw [hb]; decide)
  rw [not_or, not_or, Bool.not_eq_true] at hno
  exact hno

/-- The blocks while a call holds the block `b`. -/
theorem Owns.grown (h : Owns bs base s) {b : ℕ} (hb : s.used b = false)
    (hg : Grows (blocksId bs) (s.take b) s') :
    (∀ x, s'.used x = true ↔
      x = b ∨ base x = true ∨ s'.Inner (blocksId bs) x ∨ s.Data (blocksId bs) x) ∧
    ∀ x, s'.Inner (blocksId bs) x → base x = false ∧ x ≠ b ∧ ¬ s.Data (blocksId bs) x := by
  have htake : ∀ x, (s.take b).used x = true ↔ x = b ∨ s.used x = true := by
    intro x
    by_cases hxb : x = b
    · subst hxb
      exact iff_of_true (Function.update_self ..) (.inl rfl)
    · rw [or_iff_right hxb]
      show Function.update s.used b true x = true ↔ _
      rw [Function.update_of_ne hxb]
  have hold : ∀ x, s'.Inner (blocksId bs) x → (s.take b).used x = true →
      s.Inner (blocksId bs) x := fun x hx hu => hg.fresh x hx hu
  have hkeep : ∀ x, s.Inner (blocksId bs) x → s'.Inner (blocksId bs) x := fun x hx => hg.inner x hx
  obtain ⟨-, hinner_b, -⟩ := h.not_used hb
  refine ⟨fun x => ?_, fun x hx => ⟨?_, ?_, fun hdata => ?_⟩⟩
  · rw [hg.used, htake, h.used]
    constructor
    · rintro ((hx | hx | hx | hx) | hx)
      · exact .inl hx
      · exact .inr (.inl hx)
      · exact .inr (.inr (.inl (hkeep x hx)))
      · exact .inr (.inr (.inr hx))
      · exact .inr (.inr (.inl hx))
    · rintro (hx | hx | hx | hx)
      · exact .inl (.inl hx)
      · exact .inl (.inr (.inl hx))
      · exact .inr hx
      · exact .inl (.inr (.inr (.inr hx)))
  · by_contra hbase
    rw [Bool.not_eq_false] at hbase
    have hs := hold x hx ((htake x).2 (.inr ((h.used x).2 (.inl hbase))))
    rw [h.inner_base x hs] at hbase
    cases hbase
  · rintro rfl
    exact hinner_b (hold x hx ((htake x).2 (.inl rfl)))
  · exact h.apart x hdata (hold x hx ((htake x).2 (.inr ((h.used x).2 (.inr (.inr hdata))))))

theorem blocks_align (hbs : 0 < bs) (size : ℕ) :
    (if size % bs ≠ 0 then size + (bs - size % bs) else size) = (size + bs - 1) / bs * bs := by
  obtain ⟨q, r, hr, rfl⟩ : ∃ q r, r < bs ∧ size = bs * q + r :=
    ⟨size / bs, size % bs, Nat.mod_lt size hbs, (Nat.div_add_mod size bs).symm⟩
  have hsucc : (q + 1) * bs = bs * q + bs := by rw [Nat.add_mul, Nat.one_mul, Nat.mul_comm]
  rw [Nat.mul_add_mod, Nat.mod_eq_of_lt hr]
  split_ifs with h
  · rw [show bs * q + r + bs - 1 = bs * (q + 1) + (r - 1) by rw [Nat.mul_comm bs (q + 1)]; omega,
      Nat.mul_add_div hbs, Nat.div_eq_of_lt (by omega), Nat.add_zero, hsucc]
    omega
  · rw [show bs * q + r + bs - 1 = bs * q + (bs - 1) by omega, Nat.mul_add_div hbs,
      Nat.div_eq_of_lt (by omega), Nat.add_zero, Nat.mul_comm]
    omega

theorem blocks_full (hbs : 0 < bs) (n : ℕ) : (n * bs + bs - 1) / bs = n := by
  rw [show n * bs + bs - 1 = bs * n + (bs - 1) by rw [Nat.mul_comm]; omega, Nat.mul_add_div hbs,
    Nat.div_eq_of_lt (by omega), Nat.add_zero]

/-- A call that holds the block `b` fails, and gives it back. -/
theorem Owns.returned (h : Owns bs base s) {b : ℕ} (hb0 : b ≠ 0) (hb : s.used b = false)
    (hsound : IndSound (blocksId bs) s') (hgrow : Grows (blocksId bs) (s.take b) s')
    (hsize : s'.size = s.size) (hmap : ∀ j < inodeBlockLimits (blocksId bs) 3,
      s'.mapped (blocksId bs) j = s.mapped (blocksId bs) j) :
    Owns bs base { s' with used := Function.update s'.used b false } := by
  obtain ⟨hbase, -, hdata⟩ := h.not_used hb
  obtain ⟨hused, hfresh⟩ := h.grown hb hgrow
  have hunused : Unused s'.dev (blocksId bs) s'.root indHeight b := by
    intro r k q hk hq heq
    exact (hfresh b ⟨hb0, r, k, q, hk, hq, heq⟩).2.1 rfl
  refine ⟨hsound.free hunused, fun x => ?_, fun x hx => (hfresh x hx).1, fun x hx => ?_,
    fun x hx hi => ?_, fun i hi j hj hne heq => ?_, fun i hi hle => ?_, ?_, ?_⟩
  · have hd : IndInode.Data (blocksId bs) { s' with used := Function.update s'.used b false } x ↔
      s.Data (blocksId bs) x := data_congr hmap x
    rw [hd]
    show Function.update s'.used b false x = true ↔
      base x = true ∨ s'.Inner (blocksId bs) x ∨ s.Data (blocksId bs) x
    by_cases hxb : x = b
    · subst hxb
      rw [Function.update_self]
      refine iff_of_false (by decide) ?_
      rintro (hx | hx | hx)
      · rw [hbase] at hx
        cases hx
      · exact (hfresh x hx).2.1 rfl
      · exact hdata hx
    · rw [Function.update_of_ne hxb, hused, or_iff_right hxb]
  · exact h.data_base x ((data_congr hmap x).1 hx)
  · exact (hfresh x hi).2.2 ((data_congr hmap x).1 hx)
  · have hi' := hmap i hi
    have hj' := hmap j hj
    exact h.inj i hi j hj (by rw [← hi']; exact hne) (by rw [← hi', ← hj']; exact heq)
  · refine (hmap i hi).trans (h.beyond i hi ?_)
    rwa [← hsize]
  · show (s'.size + bs - 1) / bs ≤ _
    rw [hsize]
    exact h.room
  · show (s'.size + bs - 1) / bs < _
    rw [hsize]
    exact h.fits

/-- A call maps the block `b` behind the last one. -/
theorem Owns.extended (h : Owns bs base s) {b n size : ℕ} (hb0 : b ≠ 0) (hb : s.used b = false)
    (hlim : n < inodeBlockLimits (blocksId bs) 3) (hn : (s.size + bs - 1) / bs = n)
    (hsound : IndSound (blocksId bs) s') (hgrow : Grows (blocksId bs) (s.take b) s')
    (hmap : ∀ j < inodeBlockLimits (blocksId bs) 3,
      s'.mapped (blocksId bs) j = if j = n then b else s.mapped (blocksId bs) j)
    (hsize : (size + bs - 1) / bs = n + 1) (hfits : n + 1 < 2 ^ 32) :
    Owns bs base { s' with size := size } := by
  obtain ⟨hbase, -, hdata⟩ := h.not_used hb
  obtain ⟨hused, hfresh⟩ := h.grown hb hgrow
  have hzero := h.beyond n hlim hn.le
  have hd : ∀ x, s'.Data (blocksId bs) x ↔ x = b ∨ s.Data (blocksId bs) x := by
    intro x
    constructor
    · rintro ⟨hx, i, hi, rfl⟩
      rw [hmap i hi] at hx ⊢
      split_ifs at hx ⊢
      · exact .inl rfl
      · exact .inr ⟨hx, i, hi, rfl⟩
    · rintro (rfl | ⟨hx, i, hi, rfl⟩)
      · exact ⟨hb0, n, hlim, by rw [hmap n hlim, if_pos rfl]⟩
      · refine ⟨hx, i, hi, ?_⟩
        rw [hmap i hi, if_neg]
        rintro rfl
        exact hx hzero
  refine ⟨⟨hsound.proper, hsound.used⟩, fun x => ?_, fun x hx => (hfresh x hx).1, fun x hx => ?_,
    fun x hx hi => ?_, fun i hi j hj hne heq => ?_, fun i hi hle => ?_, ?_, ?_⟩
  · show s'.used x = true ↔ base x = true ∨ s'.Inner _ x ∨ s'.Data _ x
    rw [hused, hd]
    tauto
  · rcases (hd x).1 hx with rfl | hx
    · exact hbase
    · exact h.data_base x hx
  · rcases (hd x).1 hx with rfl | hx
    · exact (hfresh x hi).2.1 rfl
    · exact (hfresh x hi).2.2 hx
  · have hne' : s'.mapped (blocksId bs) i ≠ 0 := hne
    have heq' : s'.mapped (blocksId bs) i = s'.mapped (blocksId bs) j := heq
    rw [hmap i hi] at hne' heq'
    rw [hmap j hj] at heq'
    split_ifs at hne' heq' with h1 h2 h2
    · rw [h1, h2]
    · exact absurd ⟨hb0, j, hj, heq'.symm⟩ hdata
    · exact absurd ⟨hb0, i, hi, heq'⟩ hdata
    · exact h.inj i hi j hj hne' heq'
  · have hle' : (size + bs - 1) / bs ≤ i := hle
    rw [hsize] at hle'
    refine (hmap i hi).trans ?_
    rw [if_neg (by omega)]
    exact h.beyond i hi (by omega)
  · show (size + bs - 1) / bs ≤ _
    rw [hsize]
    exact hlim
  · show (size + bs - 1) / bs < _
    rwa [hsize]

/-- Behind the last tree there is no place. -/
theorem set_beyond {p n : ℕ} (hlim : ¬ n < inodeBlockLimits p 3) (env : IndEnv used) (b : ℕ)
    (s : IndInode) : ext4FsSetInodeDataBlockIndex p env n b s = (.error Errno.EIO, s, []) := by
  have h0 : inodeBlockLimits p 0 = inodeDirectBlockCount := rfl
  have h1 := inodeBlockLimits_succ (p := p) 0
  have h2 := inodeBlockLimits_succ (p := p) 1
  have h3 := inodeBlockLimits_succ (p := p) 2
  simp only [Nat.zero_add, Nat.reduceAdd] at h1 h2 h3
  have hl : indLevel p n = 0 := by
    rw [indLevel, if_neg (by omega), if_neg (by omega), if_neg (by omega)]
  rw [ext4FsSetInodeDataBlockIndex, if_neg (by omega)]
  simp only [hl, if_true]

/-- **An append** gets the file the block behind its last one, or leaves the map as it is;
    the file owns its blocks as before. -/
theorem append_owns (hbs : 4 ≤ bs) (h : Owns bs base s) {env : IndEnv s.used} (henv : env.Fair)
    (hfits : (s.size + bs - 1) / bs + 1 < 2 ^ 32) :
    Owns bs base (IndInode.ext4FsAppendInodeDblk bs s env).2.1 := by
  have hp : 0 < blocksId bs := Nat.div_pos hbs (by decide)
  have hbs0 : 0 < bs := by omega
  have hidx : u32 ((s.size + bs - 1) / bs * bs / bs) = (s.size + bs - 1) / bs := by
    rw [Nat.mul_div_cancel _ hbs0, u32_of_lt h.fits]
  unfold IndInode.ext4FsAppendInodeDblk
  simp only [blocks_align hbs0, hidx]
  generalize hn : (s.size + bs - 1) / bs = n at *
  rcases halloc : env.alloc 0 with rc | b
  · exact h
  simp only
  obtain ⟨hb0, hb⟩ := env.fresh 0 b halloc
  rw [← set_behind halloc]
  by_cases hlim : n < inodeBlockLimits (blocksId bs) 3
  · have hset := set_spec hp (henv.behind halloc).toPlain (h.sound.take b) rfl hlim b
      (fun _ c hc => hc.2.2 (henv.noread _))
    have hgrow := set_grows hp (henv.behind halloc) (h.sound.take b) rfl hlim b
    generalize ext4FsSetInodeDataBlockIndex (blocksId bs) (env.behind halloc) n b
      (s.take b) = out at *
    rcases out with ⟨rc | u, s₂, freed⟩
    · simp only [henv.free, IndInode.freeBlock]
      exact h.returned hb0 hb hset.sound hgrow hset.size (hset.kept error_ne_ok)
    · refine h.extended hb0 hb hlim hn hset.sound hgrow (fun j hj => ?_) ?_ hfits
      · have := hset.done rfl j hj
        rwa [u32_of_lt (henv.fits 0 b halloc)] at this
      · rw [show n * bs + bs = (n + 1) * bs by rw [Nat.add_mul, Nat.one_mul], blocks_full hbs0]
  · rw [set_beyond hlim]
    have hback : ((s.take b).freeBlock env.free b).2.1 = s := by
      rw [henv.free]
      show { s with used := Function.update (Function.update s.used b true) b false } = s
      rw [Function.update_idem, ← hb, Function.update_eq_self]
    show Owns bs base ((s.take b).freeBlock env.free b).2.1
    rw [hback]
    exact h

end Calls

/-! ## What the truncation drops -/

section Drops

variable {p : ℕ} {s s' s'' : IndInode} {used : ℕ → Bool} {is js freed freed' : List ℕ}

/-- The indices `is` are released, and what was mapped there is freed. -/
structure Drops (p : ℕ) (s s' : IndInode) (is freed : List ℕ) : Prop where
  sound : IndSound p s'
  size : s'.size = s.size
  inner : ∀ ⦃r k q⦄, k < indHeight r → q < p ^ k → s'.nd p r k q = s.nd p r k q
  map : ∀ j < inodeBlockLimits p 3, s'.mapped p j = if j ∈ is then 0 else s.mapped p j
  freed_eq : freed = (is.map (s.mapped p)).filter (· ≠ 0)
  used : ∀ x, s'.used x = if x ∈ freed then false else s.used x

theorem Drops.refl (hs : IndSound p s) : Drops p s s [] [] :=
  ⟨hs, rfl, fun _ _ _ _ _ => rfl, fun _ _ => rfl, rfl, fun _ => rfl⟩

theorem Drops.trans (h : Drops p s s' is freed) (h' : Drops p s' s'' js freed')
    (hjs : ∀ j ∈ js, j < inodeBlockLimits p 3 ∧ j ∉ is) :
    Drops p s s'' (is ++ js) (freed ++ freed') where
  sound := h'.sound
  size := h'.size.trans h.size
  inner r k q hk hq := (h'.inner hk hq).trans (h.inner hk hq)
  map j hj := by
    rw [h'.map j hj, h.map j hj]
    simp only [List.mem_append]
    split_ifs <;> tauto
  freed_eq := by
    have hsame : js.map (s'.mapped p) = js.map (s.mapped p) := by
      refine List.map_congr_left fun j hj => ?_
      rw [h.map j (hjs j hj).1, if_neg (hjs j hj).2]
    rw [h.freed_eq, h'.freed_eq, hsame, List.map_append, List.filter_append]
  used x := by
    rw [h'.used, h.used]
    simp only [List.mem_append]
    split_ifs <;> tauto

theorem Drops.mem_freed (h : Drops p s s' is freed) {x : ℕ} :
    x ∈ freed ↔ x ≠ 0 ∧ ∃ i ∈ is, s.mapped p i = x := by
  rw [h.freed_eq, List.mem_filter, List.mem_map, decide_eq_true_eq, and_comm]

theorem releaseLoop_used (env : IndEnv used) (l : ℕ) : ∀ (cur off : ℕ) (s : IndInode),
    (releaseLoop p env l cur off s).2.used = s.used := by
  induction l with
  | zero => exact fun _ _ _ => rfl
  | succ l ih =>
    intro cur off s
    rw [releaseLoop]
    split_ifs
    · rfl
    all_goals rcases env.read (l + 1) with rc | u
    · rfl
    · exact ih _ _ _
    · rfl
    · exact ih _ _ _

theorem freeBlock_used (free : Except Errno Unit) (s : IndInode) (b x : ℕ) :
    (s.freeBlock free b).2.1.used x = if x ∈ (s.freeBlock free b).2.2 then false else s.used x := by
  rcases free with rc | u
  · rfl
  · show Function.update s.used b false x = if x ∈ [b] then false else s.used x
    rw [Function.update_apply]
    simp only [List.mem_singleton]

theorem release_used (env : IndEnv used) (i : ℕ) (s : IndInode) (x : ℕ) :
    (ext4FsReleaseInodeBlock p env i s).2.1.used x =
      if x ∈ (ext4FsReleaseInodeBlock p env i s).2.2 then false else s.used x := by
  unfold ext4FsReleaseInodeBlock
  by_cases hi : i < inodeDirectBlockCount
  · rw [if_pos hi]
    simp only
    by_cases h0 : s.blocks i = 0
    · rw [if_pos h0]
      rfl
    · rw [if_neg h0]
      exact freeBlock_used ..
  · rw [if_neg hi]
    simp only
    by_cases hl : indLevel p i = 0
    · rw [if_pos hl]
      rfl
    · rw [if_neg hl]
      have hloop := @releaseLoop_used p _ env (indLevel p i) (s.indirect (indLevel p i - 1))
        (i - inodeBlockLimits p (indLevel p i - 1)) s
      generalize releaseLoop p env (indLevel p i) (s.indirect (indLevel p i - 1))
        (i - inodeBlockLimits p (indLevel p i - 1)) s = out at hloop ⊢
      rcases out with ⟨rc | v, s₁⟩
      · exact congrFun hloop x
      · simp only
        by_cases hv : v = 0
        · simp only [if_pos hv]
          exact congrFun hloop x
        · simp only [if_neg hv]
          rw [freeBlock_used]
          exact if_congr Iff.rfl rfl (congrFun hloop x)

/-- The same calls where nothing can be allocated. -/
def IndEnv.still (env : IndEnv used) (used' : ℕ → Bool) : IndEnv used' where
  read := env.read
  alloc _ := .error Errno.ENOSPC
  noread := env.noread
  dirty := env.dirty
  free := env.free
  fresh _ _ h := by cases h
  distinct _ _ _ h := by cases h

/-- The release does not allocate. -/
theorem release_still (env : IndEnv used) (used' : ℕ → Bool) (i : ℕ) (s : IndInode) :
    ext4FsReleaseInodeBlock p (env.still used') i s = ext4FsReleaseInodeBlock p env i s := by
  have hloop : ∀ (l cur off : ℕ) (s : IndInode),
      releaseLoop p (env.still used') l cur off s = releaseLoop p env l cur off s := by
    intro l
    induction l with
    | zero => exact fun _ _ _ => rfl
    | succ l ih =>
      intro cur off s
      rw [releaseLoop, releaseLoop]
      simp only [ih]
      rfl
  unfold ext4FsReleaseInodeBlock
  simp only [hloop]
  rfl

theorem release_direct (env : IndEnv used) (henv : env.free = .ok ()) {i : ℕ}
    (hi : i < inodeDirectBlockCount) (h0 : s.blocks i ≠ 0) :
    ext4FsReleaseInodeBlock p env i s =
      (.ok (), ⟨s.size, Function.update s.blocks i 0, s.dev,
        Function.update s.used (s.blocks i) false⟩, [s.blocks i]) := by
  rw [ext4FsReleaseInodeBlock, if_pos hi]
  simp only
  rw [if_neg h0, henv]
  rfl

/-- One release drops its index, or ends on a block that cannot be read. -/
theorem release_drops (hp : 0 < p) (hs : IndSound p s) {env : IndEnv used}
    (henv : env.free = .ok ()) {i : ℕ} (hlim : i < inodeBlockLimits p 3)
    (hv : s.mapped p i ≠ 0 → Unused s.dev p s.root indHeight (s.mapped p i)) :
    ((ext4FsReleaseInodeBlock p env i s).1 = .ok () ∧ Drops p s
      (ext4FsReleaseInodeBlock p env i s).2.1 [i] (ext4FsReleaseInodeBlock p env i s).2.2) ∨
    ((ext4FsReleaseInodeBlock p env i s).1 ≠ .ok () ∧ Drops p s
      (ext4FsReleaseInodeBlock p env i s).2.1 [] (ext4FsReleaseInodeBlock p env i s).2.2) := by
  have hused := fun x => @release_used p _ env i s x
  have hsound : s.mapped p i ≠ 0 → IndSound p (ext4FsReleaseInodeBlock p env i s).2.1 := by
    intro h0
    rw [← release_still env s.used]
    exact hs.release hp hlim (hv h0)
  by_cases hi : i < inodeDirectBlockCount
  · have hmapped : s.mapped p i = s.blocks i := by rw [IndInode.mapped, if_pos hi]
    refine .inl ?_
    by_cases h0 : s.blocks i = 0
    · have hout : ext4FsReleaseInodeBlock p env i s = (.ok (), s, []) := by
        rw [ext4FsReleaseInodeBlock, if_pos hi]
        simp only
        rw [if_pos h0]
      rw [hout] at hused ⊢
      refine ⟨rfl, hs, rfl, fun _ _ _ _ _ => rfl, fun j _ => ?_, ?_, hused⟩
      · split_ifs with hj
        · rw [List.mem_singleton.1 hj, hmapped, h0]
        · rfl
      · simp [hmapped, h0]
    · rw [hmapped, release_direct env henv hi h0] at hsound
      rw [release_direct env henv hi h0] at hused ⊢
      refine ⟨rfl, hsound h0, rfl, fun r k q hk _ => nd_setDirect hi 0 (indHeight_pos hk) k q,
        fun j hj => ?_, ?_, hused⟩
      · have hset := (@set_direct p s _ (env.still s.used) hs i hi 0).done (by
          rw [ext4FsSetInodeDataBlockIndex, if_pos hi]) j hj
        rw [ext4FsSetInodeDataBlockIndex, if_pos hi, u32_of_lt (show 0 < 2 ^ 32 by decide)] at hset
        simp only [List.mem_singleton]
        exact hset
      · simp [hmapped, h0]
  · have hi' := Nat.le_of_not_lt hi
    obtain ⟨s₁, hsize, hs₁, hinner, ⟨rc, hout, hmap, -⟩ | ⟨hout, hmap, -⟩⟩ :=
      @release_tree p s hp hs (env.still s.used) i hi' hlim
    · rw [release_still] at hout
      rw [hout] at hused ⊢
      exact .inr ⟨error_ne_ok, hs₁, hsize, hinner, hmap, rfl, hused⟩
    · rw [release_still] at hout
      refine .inl ?_
      by_cases h0 : s.mapped p i = 0
      · rw [hout, if_pos h0] at hused ⊢
        refine ⟨rfl, hs₁, hsize, hinner, fun j hj => ?_, ?_, hused⟩
        · rw [hmap j hj]
          simp only [List.mem_singleton]
        · simp [h0]
      · have hfree : (env.still s.used).free = .ok () := henv
        rw [if_neg h0, hfree] at hout
        rw [hout] at hused hsound ⊢
        refine ⟨rfl, hsound h0, hsize, hinner, fun j hj => ?_, ?_, hused⟩
        · simp only [List.mem_singleton]
          exact hmap j hj
        · simp [h0, IndInode.freeBlock]

end Drops

section Calls

variable {bs : ℕ} {base : ℕ → Bool} {s s' : IndInode} {used : ℕ → Bool}

/-- The blocks that hold no index that is released stay with the file. -/
theorem Owns.drops (h : Owns bs base s) {is freed : List ℕ}
    (his : ∀ i ∈ is, i < inodeBlockLimits (blocksId bs) 3)
    (hd : Drops (blocksId bs) s s' is freed) :
    Owns bs base s' := by
  have hinner : ∀ x, s'.Inner (blocksId bs) x ↔ s.Inner (blocksId bs) x := inner_congr hd.inner
  have hdata : ∀ x, s'.Data (blocksId bs) x ↔ s.Data (blocksId bs) x ∧ x ∉ freed := by
    intro x
    rw [hd.mem_freed]
    constructor
    · rintro ⟨hx, i, hi, rfl⟩
      rw [hd.map i hi] at hx ⊢
      split_ifs at hx ⊢ with hmem
      · exact absurd rfl hx
      · refine ⟨⟨hx, i, hi, rfl⟩, ?_⟩
        rintro ⟨-, j, hj, heq⟩
        rw [h.inj i hi j (his j hj) hx heq.symm] at hmem
        exact hmem hj
    · rintro ⟨⟨hx, i, hi, rfl⟩, hno⟩
      refine ⟨hx, i, hi, ?_⟩
      rw [hd.map i hi, if_neg fun hmem => hno ⟨hx, i, hmem, rfl⟩]
  have hfreed : ∀ x ∈ freed, s.Data (blocksId bs) x := by
    intro x hx
    obtain ⟨hx0, i, hi, heq⟩ := hd.mem_freed.1 hx
    exact ⟨hx0, i, his i hi, heq⟩
  refine ⟨hd.sound, fun x => ?_, fun x hx => h.inner_base x ((hinner x).1 hx),
    fun x hx => h.data_base x ((hdata x).1 hx).1, fun x hx hi => h.apart x ((hdata x).1 hx).1
      ((hinner x).1 hi), fun i hi j hj hne heq => ?_, fun i hi hle => ?_, ?_, ?_⟩
  · rw [hd.used, hinner, hdata]
    split_ifs with hmem
    · have hx := hfreed x hmem
      refine iff_of_false (by decide) ?_
      rintro (hb | hb | hb)
      · rw [h.data_base x hx] at hb
        cases hb
      · exact h.apart x hx hb
      · exact hb.2 hmem
    · rw [h.used, and_iff_left hmem]
  · rw [hd.map i hi] at hne heq
    rw [hd.map j hj] at heq
    split_ifs at hne heq
    · exact absurd rfl hne
    · exact absurd rfl hne
    · exact absurd heq hne
    · exact h.inj i hi j hj hne heq
  · rw [hd.map i hi, h.beyond i hi (by rwa [← hd.size]), ite_self]
  · rw [hd.size]
    exact h.room
  · rw [hd.size]
    exact h.fits

theorem Owns.data_unused (h : Owns bs base s) {i : ℕ} (hi : i < inodeBlockLimits (blocksId bs) 3)
    (h0 : s.mapped (blocksId bs) i ≠ 0) :
    Unused s.dev (blocksId bs) s.root indHeight (s.mapped (blocksId bs) i) := by
  intro r k q hk hq heq
  exact h.apart _ ⟨h0, i, hi, rfl⟩ ⟨h0, r, k, q, hk, hq, heq⟩

/-- The loop of the truncation drops the indices from the first one on. -/
theorem truncateLoop_drops (hbs : 4 ≤ bs) {env : ℕ → IndEnv used}
    (henv : ∀ i, (env i).free = .ok ()) :
    ∀ {n a : ℕ} {s : IndInode}, Owns bs base s → a + n ≤ inodeBlockLimits (blocksId bs) 3 →
      ∃ m ≤ n, ((truncateLoop (blocksId bs) env n a s).1 = .ok () → m = n) ∧
        Drops (blocksId bs) s (truncateLoop (blocksId bs) env n a s).2.1 (List.range' a m)
          (truncateLoop (blocksId bs) env n a s).2.2 := by
  have hp : 0 < blocksId bs := Nat.div_pos hbs (by decide)
  intro n
  induction n with
  | zero => exact fun h _ => ⟨0, le_rfl, fun _ => rfl, .refl h.sound⟩
  | succ n ih =>
    intro a s h hle
    have hrel := release_drops hp h.sound (henv a) (i := a) (by omega) (h.data_unused (by omega))
    rw [truncateLoop]
    generalize ext4FsReleaseInodeBlock (blocksId bs) (env a) a s = out at hrel ⊢
    rcases out with ⟨rc | u, s₁, freed⟩
    · refine ⟨0, Nat.zero_le _, fun hok => absurd hok error_ne_ok, ?_⟩
      rcases hrel with ⟨hok, -⟩ | ⟨-, hd⟩
      · exact absurd hok error_ne_ok
      · exact hd
    · rcases hrel with ⟨-, hd⟩ | ⟨hno, -⟩
      · have h₁ := h.drops (fun i hi => by rw [List.mem_singleton.1 hi]; omega) hd
        obtain ⟨m, hm, hok, hrun⟩ := ih h₁ (show a + 1 + n ≤ _ by omega)
        refine ⟨m + 1, by omega, fun h => by rw [hok h], ?_⟩
        have htrans := hd.trans hrun fun j hj => by
          rw [List.mem_range'_1] at hj
          refine ⟨by omega, fun hmem => ?_⟩
          rw [List.mem_singleton.1 hmem] at hj
          omega
        exact htrans
      · exact absurd rfl hno

/-- Another size, with nothing mapped behind it. -/
theorem Owns.resize (h : Owns bs base s) {size : ℕ}
    (hle : (size + bs - 1) / bs ≤ (s.size + bs - 1) / bs)
    (hbeyond : ∀ i < inodeBlockLimits (blocksId bs) 3, (size + bs - 1) / bs ≤ i →
      s.mapped (blocksId bs) i = 0) : Owns bs base { s with size := size } :=
  ⟨⟨h.sound.proper, h.sound.used⟩, h.used, h.inner_base, h.data_base, h.apart, h.inj, hbeyond,
    hle.trans h.room, Nat.lt_of_le_of_lt hle h.fits⟩

theorem blocks_mono {a b : ℕ} (h : a ≤ b) : (a + bs - 1) / bs ≤ (b + bs - 1) / bs :=
  Nat.div_le_div_right (by omega)

/-- The truncation drops the indices behind the new size. -/
theorem truncate_drops (hbs : 4 ≤ bs) (h : Owns bs base s) {env : ℕ → IndEnv used}
    (henv : ∀ i, (env i).free = .ok ()) (canTruncate : Bool) (newSize : ℕ) :
    ∃ (m : ℕ) (s₁ : IndInode), (m = 0 ∨ (newSize + bs - 1) / bs + m ≤ (s.size + bs - 1) / bs) ∧
      Drops (blocksId bs) s s₁ (List.range' ((newSize + bs - 1) / bs) m)
        (ext4FsTruncateInode bs env canTruncate newSize s).2.2 ∧
      (((ext4FsTruncateInode bs env canTruncate newSize s).1 ≠ .ok () ∧
          (ext4FsTruncateInode bs env canTruncate newSize s).2.1 = s₁) ∨
        ((ext4FsTruncateInode bs env canTruncate newSize s).1 = .ok () ∧ newSize ≤ s.size ∧
          (newSize + bs - 1) / bs + m = (s.size + bs - 1) / bs ∧
          (ext4FsTruncateInode bs env canTruncate newSize s).2.1 =
            { s₁ with size := newSize })) := by
  have hcnt : sizeBlocksCnt bs s.size = (s.size + bs - 1) / bs := u32_of_lt h.fits
  by_cases hsame : canTruncate = true ∧ s.size = newSize
  · obtain ⟨rfl, rfl⟩ := hsame
    have hout : ext4FsTruncateInode bs env true s.size s = (.ok (), s, []) := by
      rw [ext4FsTruncateInode]
      simp
    rw [hout]
    exact ⟨0, s, .inl rfl, .refl h.sound, .inr ⟨rfl, le_rfl, rfl, rfl⟩⟩
  by_cases hbad : canTruncate = false ∨ s.size < newSize
  · have hout : ext4FsTruncateInode bs env canTruncate newSize s =
        (.error Errno.EINVAL, s, []) := by
      rw [ext4FsTruncateInode]
      rcases hbad with rfl | hlt
      · rfl
      · cases canTruncate with
        | false => rfl
        | true => simp [hlt, hlt.ne]
    rw [hout]
    exact ⟨0, s, .inl rfl, .refl h.sound, .inl ⟨error_ne_ok, rfl⟩⟩
  · rw [not_or, Bool.not_eq_false] at hbad
    obtain ⟨rfl, hge⟩ := hbad
    have hlt : newSize < s.size := by
      have hne : s.size ≠ newSize := fun h => hsame ⟨rfl, h⟩
      omega
    have hmono : (newSize + bs - 1) / bs ≤ (s.size + bs - 1) / bs := blocks_mono hlt.le
    have hnew : sizeBlocksCnt bs newSize = (newSize + bs - 1) / bs :=
      u32_of_lt (Nat.lt_of_le_of_lt hmono h.fits)
    have hdiff : sub32 (sizeBlocksCnt bs s.size) ((newSize + bs - 1) / bs) =
        (s.size + bs - 1) / bs - (newSize + bs - 1) / bs := by
      rw [hcnt]
      exact sub32_of_le hmono h.fits
    obtain ⟨m, hm, hok, hd⟩ := truncateLoop_drops hbs henv h (a := (newSize + bs - 1) / bs)
      (n := (s.size + bs - 1) / bs - (newSize + bs - 1) / bs) (by have := h.room; omega)
    refine ⟨m, (truncateLoop (blocksId bs) env ((s.size + bs - 1) / bs - (newSize + bs - 1) / bs)
      ((newSize + bs - 1) / bs) s).2.1, by omega, ?_⟩
    unfold ext4FsTruncateInode
    simp only [Bool.not_true, Bool.false_eq_true, if_false, if_neg hlt.ne',
      if_neg (Nat.not_lt.2 hlt.le), hnew, hdiff]
    generalize truncateLoop (blocksId bs) env ((s.size + bs - 1) / bs - (newSize + bs - 1) / bs)
      ((newSize + bs - 1) / bs) s = out at hok hd ⊢
    rcases out with ⟨rc | u, s₁, freed⟩
    · exact ⟨hd, .inl ⟨error_ne_ok, rfl⟩⟩
    · have hm' := hok rfl
      refine ⟨?_, .inr ⟨rfl, hlt.le, by omega, rfl⟩⟩
      show Drops _ _ _ _ (freed ++ [])
      rw [List.append_nil]
      exact hd

/-- **A truncation**, also one that fails, leaves the file the owner of its blocks. -/
theorem truncate_owns (hbs : 4 ≤ bs) (h : Owns bs base s) {env : ℕ → IndEnv used}
    (henv : ∀ i, (env i).free = .ok ()) (canTruncate : Bool) (newSize : ℕ) :
    Owns bs base (ext4FsTruncateInode bs env canTruncate newSize s).2.1 := by
  obtain ⟨m, s₁, hle, hd, hout⟩ := truncate_drops hbs h henv canTruncate newSize
  have his : ∀ i ∈ List.range' ((newSize + bs - 1) / bs) m,
      i < inodeBlockLimits (blocksId bs) 3 := by
    intro i hi
    have hroom := h.room
    rw [List.mem_range'_1] at hi
    omega
  have h₁ := h.drops his hd
  rcases hout with ⟨-, hs⟩ | ⟨-, hsize, hm, hs⟩
  · rw [hs]
    exact h₁
  · rw [hs]
    refine h₁.resize (by rw [hd.size]; exact blocks_mono hsize) fun i hi hge => ?_
    rw [hd.map i hi]
    split_ifs with hmem
    · rfl
    · rw [List.mem_range'_1] at hmem
      exact h.beyond i hi (by omega)

end Calls

/-! ## Runs -/

/-- One step in the life of a file without extents, next to the blocks `base` of others:
    a call, a size that a write sets inside the last block, or another allocation, release or
    write, which leaves the indirect blocks of the file alone. -/
inductive IndStep (blockSize : ℕ) : (ℕ → Bool) × IndInode → (ℕ → Bool) × IndInode → Prop
  | append (base : ℕ → Bool) (s : IndInode) (env : IndEnv s.used) (henv : env.Fair)
      (hfits : (s.size + blockSize - 1) / blockSize + 1 < 2 ^ 32) :
      IndStep blockSize (base, s) (base, (IndInode.ext4FsAppendInodeDblk blockSize s env).2.1)
  | truncate (base : ℕ → Bool) (s : IndInode) {used : ℕ → Bool} (env : ℕ → IndEnv used)
      (henv : ∀ i, (env i).free = .ok ()) (canTruncate : Bool) (newSize : ℕ) :
      IndStep blockSize (base, s)
        (base, (ext4FsTruncateInode blockSize env canTruncate newSize s).2.1)
  | setSize (base : ℕ → Bool) (s : IndInode) (size : ℕ)
      (hsize : (size + blockSize - 1) / blockSize = (s.size + blockSize - 1) / blockSize) :
      IndStep blockSize (base, s) (base, { s with size := size })
  | otherTakes (base : ℕ → Bool) (s : IndInode) (b : ℕ) (hb : s.used b = false) :
      IndStep blockSize (base, s) (Function.update base b true, s.take b)
  | otherFrees (base : ℕ → Bool) (s : IndInode) (b : ℕ) (hb : base b = true) :
      IndStep blockSize (base, s)
        (Function.update base b false, { s with used := Function.update s.used b false })
  | write (base : ℕ → Bool) (s : IndInode) (b : ℕ) (content : ℕ → ℕ)
      (hb : base b = true ∨ s.Data (blocksId blockSize) b) :
      IndStep blockSize (base, s) (base, { s with dev := Function.update s.dev b content })

/-- What can become of a new inode, and of the blocks of others. -/
inductive IndReach (blockSize : ℕ) : (ℕ → Bool) × IndInode → Prop
  | new (base : ℕ → Bool) (dev : ℕ → ℕ → ℕ) : IndReach blockSize (base, ⟨0, fun _ => 0, dev, base⟩)
  | step {x y : (ℕ → Bool) × IndInode} : IndReach blockSize x → IndStep blockSize x y →
      IndReach blockSize y

section Runs

variable {bs : ℕ} {base : ℕ → Bool} {s s' : IndInode} {used : ℕ → Bool}

theorem empty_nd {size : ℕ} {dev : ℕ → ℕ → ℕ} {used : ℕ → Bool} {p r k q : ℕ} :
    IndInode.nd p ⟨size, fun _ => 0, dev, used⟩ r k q = 0 := by
  rw [IndInode.nd, ← Nat.zero_add k]
  exact node_below_zero rfl

theorem empty_mapped {size : ℕ} {dev : ℕ → ℕ → ℕ} {used : ℕ → Bool} {p i : ℕ} :
    IndInode.mapped p ⟨size, fun _ => 0, dev, used⟩ i = 0 := by
  unfold IndInode.mapped
  split_ifs
  · rfl
  · exact empty_nd

theorem new_owns (hbs : 0 < bs) (base : ℕ → Bool) (dev : ℕ → ℕ → ℕ) :
    Owns bs base ⟨0, fun _ => 0, dev, base⟩ := by
  have hcnt : (0 + bs - 1) / bs = 0 := Nat.div_eq_of_lt (by omega)
  have hinner : ∀ x, ¬ IndInode.Inner (blocksId bs) ⟨0, fun _ => 0, dev, base⟩ x := by
    rintro x ⟨hx, r, k, q, -, -, rfl⟩
    exact hx empty_nd
  have hdata : ∀ x, ¬ IndInode.Data (blocksId bs) ⟨0, fun _ => 0, dev, base⟩ x := by
    rintro x ⟨hx, i, -, rfl⟩
    exact hx empty_mapped
  refine ⟨.empty (fun _ => rfl) .., fun x => ?_, fun x hx => absurd hx (hinner x),
    fun x hx => absurd hx (hdata x), fun x hx => absurd hx (hdata x), fun i _ j _ hne => ?_,
    fun i _ _ => empty_mapped, ?_, ?_⟩
  · exact ⟨.inl, fun h => h.elim id fun h => h.elim (fun h => absurd h (hinner x))
      fun h => absurd h (hdata x)⟩
  · exact absurd empty_mapped hne
  · show (0 + bs - 1) / bs ≤ _
    rw [hcnt]
    exact Nat.zero_le _
  · show (0 + bs - 1) / bs < _
    rw [hcnt]
    decide

theorem Owns.otherTakes (h : Owns bs base s) {b : ℕ} (hb : s.used b = false) :
    Owns bs (Function.update base b true) (s.take b) := by
  obtain ⟨hbase, hinner, hdata⟩ := h.not_used hb
  have hself : Function.update base b true b = true := Function.update_self ..
  have hother : ∀ {x}, x ≠ b → Function.update base b true x = base x := fun hx =>
    Function.update_of_ne hx ..
  refine ⟨h.sound.take b, fun x => ?_, fun x hx => ?_, fun x hx => ?_, h.apart, h.inj, h.beyond,
    h.room, h.fits⟩
  · show Function.update s.used b true x = true ↔
      Function.update base b true x = true ∨ s.Inner _ x ∨ s.Data _ x
    by_cases hx : x = b
    · subst hx
      exact iff_of_true (Function.update_self ..) (.inl hself)
    · rw [hother hx, Function.update_of_ne hx]
      exact h.used x
  · have hne : x ≠ b := by
      rintro rfl
      exact hinner hx
    rw [hother hne]
    exact h.inner_base x hx
  · have hne : x ≠ b := by
      rintro rfl
      exact hdata hx
    rw [hother hne]
    exact h.data_base x hx

theorem Owns.otherFrees (h : Owns bs base s) {b : ℕ} (hb : base b = true) :
    Owns bs (Function.update base b false) { s with used := Function.update s.used b false } := by
  have hinner : ∀ x, s.Inner (blocksId bs) x → x ≠ b := by
    rintro x hx rfl
    rw [h.inner_base x hx] at hb
    cases hb
  have hdata : ∀ x, s.Data (blocksId bs) x → x ≠ b := by
    rintro x hx rfl
    rw [h.data_base x hx] at hb
    cases hb
  refine ⟨⟨h.sound.proper, fun r k q hk hq hne => ?_⟩, fun x => ?_, fun x hx => ?_, fun x hx => ?_,
    h.apart, h.inj, h.beyond, h.room, h.fits⟩
  · exact (Function.update_of_ne (hinner _ ⟨hne, r, k, q, hk, hq, rfl⟩) ..).trans
      (h.sound.used hk hq hne)
  · show Function.update s.used b false x = true ↔
      Function.update base b false x = true ∨ s.Inner _ x ∨ s.Data _ x
    by_cases hx : x = b
    · subst hx
      rw [Function.update_self, Function.update_self]
      refine iff_of_false (by decide) ?_
      rintro (h | h | h)
      · cases h
      · exact hinner x h rfl
      · exact hdata x h rfl
    · rw [Function.update_of_ne hx, Function.update_of_ne hx]
      exact h.used x
  · rw [Function.update_of_ne (hinner x hx)]
    exact h.inner_base x hx
  · rw [Function.update_of_ne (hdata x hx)]
    exact h.data_base x hx

/-- A write that leaves the indirect blocks alone. -/
theorem Owns.write (h : Owns bs base s) {b : ℕ} (hb : ¬ s.Inner (blocksId bs) b)
    (content : ℕ → ℕ) : Owns bs base { s with dev := Function.update s.dev b content } := by
  have hnd : ∀ ⦃r k q⦄, k ≤ indHeight r → q < blocksId bs ^ k →
      IndInode.nd (blocksId bs) { s with dev := Function.update s.dev b content } r k q =
        s.nd (blocksId bs) r k q := by
    intro r k q hk hq
    refine node_congr fun i hi hne => ?_
    have hqi : q / blocksId bs ^ (k - i) < blocksId bs ^ i :=
      Nat.div_lt_of_lt_mul (by rwa [← Nat.pow_add, Nat.sub_add_cancel hi.le])
    have hother : s.nd (blocksId bs) r i (q / blocksId bs ^ (k - i)) ≠ b := by
      rintro rfl
      exact hb ⟨hne, r, i, _, Nat.lt_of_lt_of_le hi hk, hqi, rfl⟩
    exact congrFun (Function.update_of_ne hother ..) _
  have hinner : ∀ x,
      IndInode.Inner (blocksId bs) { s with dev := Function.update s.dev b content } x ↔
        s.Inner (blocksId bs) x := inner_congr fun _ _ _ hk hq => hnd hk.le hq
  have hmap : ∀ i < inodeBlockLimits (blocksId bs) 3,
      IndInode.mapped (blocksId bs) { s with dev := Function.update s.dev b content } i =
        s.mapped (blocksId bs) i := by
    intro i hi
    unfold IndInode.mapped
    split_ifs with hdirect
    · rfl
    · obtain ⟨-, hl3, -, ho⟩ := indLevel_spec (Nat.le_of_not_lt hdirect) hi
      exact hnd (indHeight_of_le hl3).ge ho
  refine ⟨⟨h.sound.proper.congr fun _ _ _ hk hq => hnd hk.le hq, fun r k q hk hq hne => ?_⟩,
    fun x => ?_, fun x hx => ?_, fun x hx => ?_, fun x hx hi => ?_,
    fun i hi j hj hne heq => ?_, fun i hi hle => ?_, h.room, h.fits⟩
  · rw [hnd hk.le hq] at hne ⊢
    exact h.sound.used hk hq hne
  · rw [hinner, data_congr hmap]
    exact h.used x
  · exact h.inner_base x ((hinner x).1 hx)
  · exact h.data_base x ((data_congr hmap x).1 hx)
  · exact h.apart x ((data_congr hmap x).1 hx) ((hinner x).1 hi)
  · rw [hmap i hi] at hne heq
    rw [hmap j hj] at heq
    exact h.inj i hi j hj hne heq
  · rw [hmap i hi]
    exact h.beyond i hi hle

theorem IndStep.owns (hbs : 4 ≤ bs) {x y : (ℕ → Bool) × IndInode} (h : IndStep bs x y)
    (ih : Owns bs x.1 x.2) : Owns bs y.1 y.2 := by
  cases h with
  | append base s env henv hfits => exact append_owns hbs ih henv hfits
  | truncate base s env henv canTruncate newSize =>
    exact truncate_owns hbs ih henv canTruncate newSize
  | setSize base s size hsize =>
    exact ih.resize hsize.le fun i hi hle => ih.beyond i hi (hsize ▸ hle)
  | otherTakes base s b hb => exact ih.otherTakes hb
  | otherFrees base s b hb => exact ih.otherFrees hb
  | write base s b content hb =>
    refine ih.write (fun hinner => ?_) content
    rcases hb with hb | hb
    · have hbase : base b = false := ih.inner_base b hinner
      rw [hbase] at hb
      cases hb
    · exact ih.apart b hb hinner

theorem IndReach.owns (hbs : 4 ≤ bs) {x : (ℕ → Bool) × IndInode} (h : IndReach bs x) :
    Owns bs x.1 x.2 := by
  induction h with
  | new base dev => exact new_owns (by omega) base dev
  | step _ hstep ih => exact hstep.owns hbs ih

end Runs

/-! ## The release of the indirect blocks -/

section Free

variable {p : ℕ} {io : FreeEnv} {s s' : IndInode}

/-- The inode once blocks have gone to the allocator. -/
def IndInode.without (s : IndInode) (freed : List ℕ) : IndInode :=
  { s with used := fun x => if x ∈ freed then false else s.used x }

@[simp] theorem without_nil (s : IndInode) : s.without [] = s := by
  simp [IndInode.without]

theorem without_without (s : IndInode) (freed freed' : List ℕ) :
    (s.without freed).without freed' = s.without (freed ++ freed') := by
  unfold IndInode.without
  simp only [List.mem_append, IndInode.mk.injEq, true_and]
  funext x
  split_ifs <;> tauto

/-- A call that frees blocks and changes nothing else; if it succeeds, these are `all`. -/
structure Gives (s : IndInode) (all : List ℕ) (out : IndOut Unit) : Prop where
  state : out.2.1 = s.without out.2.2
  done : out.1 = .ok () → out.2.2 = all

theorem Gives.nothing (s : IndInode) : Gives s [] (.ok (), s, []) :=
  ⟨(without_nil s).symm, fun _ => rfl⟩

theorem Gives.freeBlock (s : IndInode) (free : Except Errno Unit) (b : ℕ) :
    Gives s [b] (s.freeBlock free b) := by
  rcases free with rc | u
  · exact ⟨(without_nil s).symm, fun h => absurd h error_ne_ok⟩
  · refine ⟨?_, fun _ => rfl⟩
    show { s with used := Function.update s.used b false } = s.without [b]
    unfold IndInode.without
    simp only [List.mem_singleton, IndInode.mk.injEq, true_and]
    funext x
    exact Function.update_apply ..

theorem Gives.andThen {all all' : List ℕ} {out : IndOut Unit} {f : Unit → IndInode → IndOut Unit}
    (h : Gives s all out) (h' : Gives (s.without all) all' (f () (s.without all))) :
    Gives s (all ++ all') (out.andThen f) := by
  rcases out with ⟨rc | u, s₁, freed⟩
  · exact ⟨h.state, fun hok => absurd hok error_ne_ok⟩
  · obtain rfl : freed = all := h.done rfl
    obtain rfl : s₁ = s.without freed := h.state
    refine ⟨?_, fun hok => ?_⟩
    · show (f () (s.without freed)).2.1 = s.without (freed ++ (f () (s.without freed)).2.2)
      rw [h'.state, without_without]
    · show freed ++ (f () (s.without freed)).2.2 = _
      rw [h'.done hok]

theorem freeEntries_gives {below : ℕ → IndInode → IndOut Unit} {tree : ℕ → List ℕ} {b : ℕ}
    (hbelow : ∀ c freed, Gives (s.without freed) (tree c) (below c (s.without freed))) :
    ∀ {n : ℕ}, n ≤ p → ∀ freed : List ℕ, Gives (s.without freed)
      ((List.range' (p - n) n).flatMap fun d => if s.dev b d = 0 then [] else tree (s.dev b d))
      (freeEntries p below b n (s.without freed)) := by
  intro n
  induction n with
  | zero => exact fun _ freed => .nothing _
  | succ n ih =>
    intro hn freed
    have hnext : p - (n + 1) + 1 = p - n := by omega
    rw [freeEntries, List.range'_succ, hnext, List.flatMap_cons]
    by_cases h0 : s.dev b (p - (n + 1)) = 0
    · have h0' : (s.without freed).dev b (p - (n + 1)) = 0 := h0
      simp only [if_pos h0, if_pos h0', List.nil_append]
      exact ih (by omega) freed
    · have h0' : ¬ (s.without freed).dev b (p - (n + 1)) = 0 := h0
      simp only [if_neg h0, if_neg h0']
      refine (hbelow _ freed).andThen ?_
      rw [without_without]
      exact ih (by omega) _

/-- The release of a tree frees its blocks. -/
theorem freeTree_gives : ∀ (k b : ℕ) (freed : List ℕ),
    Gives (s.without freed) (subtree s.dev p k b) (freeTree p io k b (s.without freed)) := by
  intro k
  induction k with
  | zero => exact fun b freed => .freeBlock _ _ b
  | succ k ih =>
    intro b freed
    rw [freeTree, subtree, List.range_eq_range']
    rcases io.read b with rc | u
    · exact ⟨(without_nil _).symm, fun h => absurd h error_ne_ok⟩
    · have hloop := freeEntries_gives (b := b) ih (le_refl p) freed
      rw [Nat.sub_self] at hloop
      exact hloop.andThen (.freeBlock _ _ b)

/-- The blocks of the tree of level `r`. -/
def IndInode.treeBlocks (p : ℕ) (s : IndInode) (r : ℕ) : List ℕ :=
  if s.root r = 0 then [] else subtree s.dev p (r - 1) (s.root r)

/-- What `ext4_fs_free_inode` does for one tree. -/
theorem freeIndirect_done {idx : ℕ} (hok : (freeIndirect p io idx s).1 = .ok ()) :
    freeIndirect p io idx s =
      (.ok (), (s.without (s.treeBlocks p (idx + 1))).setIndirect idx 0,
        s.treeBlocks p (idx + 1)) := by
  have hroot : s.indirect idx = s.root (idx + 1) := (indirect_eq (Nat.succ_pos idx)).symm ▸ rfl
  unfold IndInode.treeBlocks
  unfold freeIndirect at hok ⊢
  rw [hroot] at hok ⊢
  by_cases h0 : s.root (idx + 1) = 0
  · rw [if_pos h0, if_pos h0, without_nil]
    have hzero : Function.update s.blocks (idx + inodeDirectBlockCount) (u32 0) = s.blocks := by
      have hz : s.blocks (idx + inodeDirectBlockCount) = 0 := hroot.trans h0
      rw [u32_of_lt (by decide), ← hz, Function.update_eq_self]
    rw [IndInode.setIndirect, hzero]
  · rw [if_neg h0] at hok ⊢
    rw [if_neg h0]
    have hgive := @freeTree_gives p io s idx (s.root (idx + 1)) []
    rw [without_nil] at hgive
    generalize freeTree p io idx (s.root (idx + 1)) s = out at hok hgive ⊢
    rcases out with ⟨rc | u, s₁, freed⟩
    · exact absurd hok error_ne_ok
    · obtain rfl : freed = subtree s.dev p idx (s.root (idx + 1)) := hgive.done rfl
      obtain rfl : s₁ = s.without (subtree s.dev p idx (s.root (idx + 1))) := hgive.state
      show (_, _, _ ++ []) = _
      rw [List.append_nil]
      rfl

theorem IndOut.andThen_ok {α β : Type} {r : IndOut α} {f : α → IndInode → IndOut β} {b : β}
    (h : (r.andThen f).1 = .ok b) : ∃ a, r.1 = .ok a ∧ (f a r.2.1).1 = .ok b ∧
      (r.andThen f).2 = ((f a r.2.1).2.1, r.2.2 ++ (f a r.2.1).2.2) := by
  rcases r with ⟨rc | a, s, freed⟩
  · exact absurd h error_ne_ok
  · exact ⟨a, rfl, h, rfl⟩

theorem setIndirect_root (s : IndInode) (idx v r : ℕ) (hr : r ≠ idx + 1) :
    (s.setIndirect idx v).root r = s.root r := by
  unfold IndInode.root IndInode.setIndirect inodeDirectBlockCount
  exact Function.update_of_ne (by omega) ..

theorem treeBlocks_after {idx r : ℕ} (hr : r ≠ idx + 1) (s : IndInode) (freed : List ℕ) :
    ((s.without freed).setIndirect idx 0).treeBlocks p r = s.treeBlocks p r := by
  unfold IndInode.treeBlocks
  rw [setIndirect_root _ _ _ _ hr]
  rfl

theorem mem_treeBlocks (hp : 0 < p) {r x : ℕ} (hr : 1 ≤ r) : x ∈ s.treeBlocks p r ↔
    x ≠ 0 ∧ ∃ k < r, ∃ q < p ^ k, s.nd p r k q = x := by
  unfold IndInode.treeBlocks
  by_cases h0 : s.root r = 0
  · rw [if_pos h0]
    refine iff_of_false List.not_mem_nil ?_
    rintro ⟨hx, k, -, q, -, rfl⟩
    refine hx ?_
    rw [IndInode.nd, ← Nat.zero_add k]
    exact node_below_zero h0
  · rw [if_neg h0]
    have hmem := @mem_subtree s.dev p hp (s.root r) x (r - 1) 0 0 h0
    refine hmem.trans (and_congr_right fun _ => ?_)
    constructor
    · rintro ⟨i, hi, q, hq, rfl⟩
      refine ⟨i, by omega, q, ?_, by rw [Nat.zero_add]; rfl⟩
      exact (Nat.div_eq_zero_iff_lt (Nat.pow_pos hp)).1 hq
    · rintro ⟨k, hk, q, hq, rfl⟩
      exact ⟨k, by omega, q, Nat.div_eq_of_lt hq, by rw [Nat.zero_add]; rfl⟩

theorem treeBlocks_nodup (hs : IndSound p s) {r : ℕ} (hr1 : 1 ≤ r) (hr3 : r ≤ 3) :
    (s.treeBlocks p r).Nodup := by
  unfold IndInode.treeBlocks
  split_ifs with h0
  · exact List.nodup_nil
  · exact hs.proper.subtree_nodup (r := r) (k := r - 1) (j := 0) (q := 0)
      (by rw [indHeight_of_le hr3]; omega) (by simp) h0

/-- All the indirect blocks. -/
def IndInode.allTrees (p : ℕ) (s : IndInode) : List ℕ :=
  s.treeBlocks p 1 ++ (s.treeBlocks p 2 ++ s.treeBlocks p 3)

theorem mem_allTrees (hp : 0 < p) {x : ℕ} : x ∈ s.allTrees p ↔ s.Inner p x := by
  unfold IndInode.allTrees IndInode.Inner
  rw [List.mem_append, List.mem_append, mem_treeBlocks hp (by decide),
    mem_treeBlocks hp (by decide), mem_treeBlocks hp (by decide)]
  constructor
  · rintro (⟨hx, k, hk, q, hq, h⟩ | ⟨hx, k, hk, q, hq, h⟩ | ⟨hx, k, hk, q, hq, h⟩)
    · exact ⟨hx, 1, k, q, hk, hq, h⟩
    · exact ⟨hx, 2, k, q, hk, hq, h⟩
    · exact ⟨hx, 3, k, q, hk, hq, h⟩
  · rintro ⟨hx, r, k, q, hk, hq, h⟩
    unfold indHeight at hk
    split_ifs at hk with hr
    · obtain rfl | rfl | rfl : r = 1 ∨ r = 2 ∨ r = 3 := by omega
      · exact .inl ⟨hx, k, hk, q, hq, h⟩
      · exact .inr (.inl ⟨hx, k, hk, q, hq, h⟩)
      · exact .inr (.inr ⟨hx, k, hk, q, hq, h⟩)
    · omega

theorem allTrees_nodup (hp : 0 < p) (hs : IndSound p s) : (s.allTrees p).Nodup := by
  have hapart : ∀ {r r' x : ℕ}, 1 ≤ r → r ≤ 3 → 1 ≤ r' → r' ≤ 3 → r ≠ r' →
      x ∈ s.treeBlocks p r → x ∉ s.treeBlocks p r' := by
    intro r r' x h1 h3 h1' h3' hne hx hx'
    obtain ⟨hx0, k, hk, q, hq, heq⟩ := (mem_treeBlocks hp h1).1 hx
    obtain ⟨-, k', hk', q', hq', heq'⟩ := (mem_treeBlocks hp h1').1 hx'
    have hk₀ : k < indHeight r := by rwa [indHeight_of_le h3]
    have hk₀' : k' < indHeight r' := by rwa [indHeight_of_le h3']
    refine hne (hs.proper hk₀ hq hk₀' hq' ?_ (heq.trans heq'.symm)).1
    exact fun h => hx0 (heq.symm.trans h)
  refine List.nodup_append.2 ⟨treeBlocks_nodup hs (by decide) (by decide),
    List.nodup_append.2 ⟨treeBlocks_nodup hs (by decide) (by decide),
      treeBlocks_nodup hs (by decide) (by decide), ?_⟩, ?_⟩
  · rintro x hx y hy rfl
    exact hapart (by decide) (by decide) (by decide) (by decide) (by decide) hx hy
  · rintro x hx y hy rfl
    rcases List.mem_append.1 hy with hy | hy
    · exact hapart (by decide) (by decide) (by decide) (by decide) (by decide) hx hy
    · exact hapart (by decide) (by decide) (by decide) (by decide) (by decide) hx hy

/-- The inode once one tree is freed. -/
def IndInode.cut (p : ℕ) (s : IndInode) (idx : ℕ) : IndInode :=
  (s.without (s.treeBlocks p (idx + 1))).setIndirect idx 0

theorem freeIndirect_then {idx : ℕ} {f : Unit → IndInode → IndOut Unit}
    (hok : ((freeIndirect p io idx s).andThen f).1 = .ok ()) :
    (f () (s.cut p idx)).1 = .ok () ∧ ((freeIndirect p io idx s).andThen f).2 =
      ((f () (s.cut p idx)).2.1, s.treeBlocks p (idx + 1) ++ (f () (s.cut p idx)).2.2) := by
  obtain ⟨a, h, hrest, hout⟩ := IndOut.andThen_ok hok
  rw [freeIndirect_done h] at hrest hout ⊢
  exact ⟨hrest, hout⟩

/-- `ext4_fs_free_inode` when it succeeds. -/
theorem freeInode_done {fileAcl : ℕ} (hok : (ext4FsFreeInode p io fileAcl s).1 = .ok ()) :
    (ext4FsFreeInode p io fileAcl s).2.2 =
      s.allTrees p ++ (if fileAcl = 0 then [] else [fileAcl]) ∧
    ∀ x, (ext4FsFreeInode p io fileAcl s).2.1.used x = true ↔
      s.used x = true ∧ x ∉ (ext4FsFreeInode p io fileAcl s).2.2 := by
  unfold ext4FsFreeInode at hok ⊢
  obtain ⟨hok₂, hout₁⟩ := freeIndirect_then hok
  obtain ⟨hok₃, hout₂⟩ := freeIndirect_then hok₂
  obtain ⟨hok₄, hout₃⟩ := freeIndirect_then hok₃
  have htree₂ : (s.cut p 0).treeBlocks p 2 = s.treeBlocks p 2 := treeBlocks_after (by decide) ..
  have htree₃ : ((s.cut p 0).cut p 1).treeBlocks p 3 = s.treeBlocks p 3 :=
    (treeBlocks_after (by decide) ..).trans (treeBlocks_after (by decide) ..)
  have hacl : ∀ s : IndInode, Gives s (if fileAcl = 0 then [] else [fileAcl])
      (if fileAcl ≠ 0 then s.freeBlock (io.free fileAcl) fileAcl else (.ok (), s, [])) := by
    intro s
    by_cases h0 : fileAcl = 0
    · rw [if_neg (not_not.2 h0), if_pos h0]
      exact .nothing s
    · rw [if_pos h0, if_neg h0]
      exact .freeBlock ..
  have hgive := hacl (((s.cut p 0).cut p 1).cut p 2)
  obtain ⟨a, ha, -, hout₄⟩ := IndOut.andThen_ok hok₄
  rw [hout₁, hout₂, hout₃, hout₄, hgive.state, hgive.done ha, htree₂, htree₃]
  simp only [List.append_nil, IndInode.allTrees, List.append_assoc, true_and]
  intro x
  have hwithout : ∀ (s : IndInode) (freed : List ℕ), (s.without freed).used x = true ↔
      s.used x = true ∧ x ∉ freed := by
    intro s freed
    show (if x ∈ freed then false else s.used x) = true ↔ _
    split_ifs with hx <;> simp [hx]
  have hcut : ∀ (s : IndInode) (idx : ℕ), (s.cut p idx).used x = true ↔
      s.used x = true ∧ x ∉ s.treeBlocks p (idx + 1) := fun s idx => hwithout s _
  rw [hwithout, hcut, hcut, hcut, htree₂, htree₃]
  simp only [List.mem_append, not_or, and_assoc]

end Free

/-! ## The end of a file -/

section End

variable {bs : ℕ} {base : ℕ → Bool} {s : IndInode} {used : ℕ → Bool}

theorem refers_iff (x : ℕ) :
    s.Refers (blocksId bs) x ↔ s.Data (blocksId bs) x ∨ s.Inner (blocksId bs) x := by
  unfold IndInode.Refers IndInode.Data IndInode.Inner
  rw [and_or_left]

/-- A truncation that succeeds frees the blocks mapped behind the new size, each once. -/
theorem truncate_done (hbs : 4 ≤ bs) (h : Owns bs base s) {env : ℕ → IndEnv used}
    (henv : ∀ i, (env i).free = .ok ()) {canTruncate : Bool} {newSize : ℕ}
    (hok : (ext4FsTruncateInode bs env canTruncate newSize s).1 = .ok ()) :
    (ext4FsTruncateInode bs env canTruncate newSize s).2.2.Nodup ∧
    (∀ x, x ∈ (ext4FsTruncateInode bs env canTruncate newSize s).2.2 ↔ x ≠ 0 ∧
      ∃ i < inodeBlockLimits (blocksId bs) 3, (newSize + bs - 1) / bs ≤ i ∧
        s.mapped (blocksId bs) i = x) ∧
    (∀ x, (ext4FsTruncateInode bs env canTruncate newSize s).2.1.Inner (blocksId bs) x ↔
      s.Inner (blocksId bs) x) ∧
    ∀ x, (ext4FsTruncateInode bs env canTruncate newSize s).2.1.used x = true ↔
      s.used x = true ∧ x ∉ (ext4FsTruncateInode bs env canTruncate newSize s).2.2 := by
  obtain ⟨m, s₁, -, hd, ⟨hno, -⟩ | ⟨-, -, hm, hs₁⟩⟩ := truncate_drops hbs h henv canTruncate newSize
  · exact absurd hok hno
  have his : ∀ i ∈ List.range' ((newSize + bs - 1) / bs) m,
      i < inodeBlockLimits (blocksId bs) 3 := by
    intro i hi
    have hroom := h.room
    rw [List.mem_range'_1] at hi
    omega
  refine ⟨?_, fun x => ?_, ?_, fun x => ?_⟩
  · rw [hd.freed_eq, List.filter_map]
    refine List.Nodup.map_on (fun i hi j hj heq => ?_) ((List.nodup_range' ..).filter _)
    rw [List.mem_filter] at hi hj
    exact h.inj i (his i hi.1) j (his j hj.1) (of_decide_eq_true hi.2) heq
  · rw [hd.mem_freed]
    refine and_congr_right fun hx => ?_
    constructor
    · rintro ⟨i, hi, heq⟩
      exact ⟨i, his i hi, (List.mem_range'_1.1 hi).1, heq⟩
    · rintro ⟨i, hi, hge, heq⟩
      refine ⟨i, List.mem_range'_1.2 ⟨hge, ?_⟩, heq⟩
      by_contra hlt
      exact hx (heq.symm.trans (h.beyond i hi (by omega)))
  · rw [hs₁]
    exact inner_congr fun r k q hk hq => hd.inner hk hq
  · rw [hs₁, hd.used]
    split_ifs with hx <;> simp [hx]

/-- To free a file with no data left: the indirect blocks, each once, and `fileAcl`. -/
theorem free_done (hbs : 4 ≤ bs) (h : Owns bs base s) {io : FreeEnv} {fileAcl : ℕ}
    (hacl : fileAcl ≠ 0 → base fileAcl = true)
    (hok : (ext4FsFreeInode (blocksId bs) io fileAcl s).1 = .ok ()) :
    (ext4FsFreeInode (blocksId bs) io fileAcl s).2.2.Nodup ∧
    (∀ x, x ∈ (ext4FsFreeInode (blocksId bs) io fileAcl s).2.2 ↔
      s.Inner (blocksId bs) x ∨ x = fileAcl ∧ fileAcl ≠ 0) ∧
    ∀ x, (ext4FsFreeInode (blocksId bs) io fileAcl s).2.1.used x = true ↔
      s.used x = true ∧ x ∉ (ext4FsFreeInode (blocksId bs) io fileAcl s).2.2 := by
  have hp : 0 < blocksId bs := Nat.div_pos hbs (by decide)
  obtain ⟨hlist, hused⟩ := freeInode_done hok
  refine ⟨?_, fun x => ?_, hused⟩
  · rw [hlist]
    refine List.nodup_append.2 ⟨allTrees_nodup hp h.sound, ?_, ?_⟩
    · split_ifs
      · exact List.nodup_nil
      · exact List.nodup_singleton _
    · rintro x hx y hy rfl
      split_ifs at hy with h0
      · cases hy
      · have hbase := h.inner_base x ((mem_allTrees hp).1 hx)
        rw [List.mem_singleton.1 hy, hacl h0] at hbase
        cases hbase
  · rw [hlist, List.mem_append, mem_allTrees hp]
    by_cases h0 : fileAcl = 0 <;> simp [h0]

/-- **A file that is truncated and freed gives back its blocks**, each once, and besides
    these only the one with its extended attributes; what is still allocated belongs to
    others. -/
theorem life_returns (hbs : 4 ≤ bs) (h : IndReach bs (base, s)) {env : ℕ → IndEnv used}
    (henv : ∀ i, (env i).free = .ok ()) {io : FreeEnv} {fileAcl : ℕ}
    (hacl : fileAcl ≠ 0 → base fileAcl = true) {canTruncate : Bool}
    (htrunc : (ext4FsTruncateInode bs env canTruncate 0 s).1 = .ok ())
    (hfree : (ext4FsFreeInode (blocksId bs) io fileAcl
      (ext4FsTruncateInode bs env canTruncate 0 s).2.1).1 = .ok ()) :
    let truncated := ext4FsTruncateInode bs env canTruncate 0 s
    let gone := ext4FsFreeInode (blocksId bs) io fileAcl truncated.2.1
    (truncated.2.2 ++ gone.2.2).Nodup ∧
    (∀ x, x ∈ truncated.2.2 ++ gone.2.2 ↔
      s.Refers (blocksId bs) x ∨ x = fileAcl ∧ fileAcl ≠ 0) ∧
    ∀ x, gone.2.1.used x = true ↔ base x = true ∧ ¬ (x = fileAcl ∧ fileAcl ≠ 0) := by
  have howns : Owns bs base s := h.owns hbs
  obtain ⟨hnodup, hmem, hinner, hused⟩ := truncate_done hbs howns henv htrunc
  obtain ⟨hnodup', hmem', hused'⟩ := free_done hbs
    (truncate_owns hbs howns henv canTruncate 0) hacl hfree
  intro truncated gone
  have hdata : ∀ x, x ∈ truncated.2.2 ↔ s.Data (blocksId bs) x := by
    intro x
    rw [hmem, Nat.div_eq_of_lt (show 0 + bs - 1 < bs by omega)]
    simp only [Nat.zero_le, true_and]
    rfl
  have htree : ∀ x, x ∈ gone.2.2 ↔ s.Inner (blocksId bs) x ∨ x = fileAcl ∧ fileAcl ≠ 0 := by
    intro x
    rw [hmem', hinner]
  refine ⟨List.nodup_append.2 ⟨hnodup, hnodup', ?_⟩, fun x => ?_, fun x => ?_⟩
  · rintro x hx y hy rfl
    rcases (htree x).1 hy with hy | ⟨rfl, h0⟩
    · exact howns.apart x ((hdata x).1 hx) hy
    · have hbase := howns.data_base x ((hdata x).1 hx)
      rw [hacl h0] at hbase
      cases hbase
  · rw [List.mem_append, htree, hdata, refers_iff, or_assoc]
  · have hi : base x = true → ¬ s.Inner (blocksId bs) x := fun hb hx => by
      rw [howns.inner_base x hx] at hb
      cases hb
    have hd : base x = true → ¬ s.Data (blocksId bs) x := fun hb hx => by
      rw [howns.data_base x hx] at hb
      cases hb
    rw [hused', hused, howns.used, htree, hdata]
    tauto

/-- **The blocks of a file**: along every run, whatever fails, nothing is allocated but what
    the file refers to and what others hold; and the places of the file, those of its data and
    those of its trees, hold different blocks. -/
theorem reach_owns (hbs : 4 ≤ bs) (h : IndReach bs (base, s)) :
    (∀ x, s.used x = true ↔ base x = true ∨ s.Refers (blocksId bs) x) ∧
    (∀ x, s.Refers (blocksId bs) x → base x = false) ∧
    (∀ i < inodeBlockLimits (blocksId bs) 3, ∀ j < inodeBlockLimits (blocksId bs) 3,
      s.mapped (blocksId bs) i ≠ 0 → s.mapped (blocksId bs) i = s.mapped (blocksId bs) j → i = j) ∧
    (∀ x, s.Data (blocksId bs) x → ¬ s.Inner (blocksId bs) x) ∧ IndSound (blocksId bs) s ∧
    ∀ i < inodeBlockLimits (blocksId bs) 3, (s.size + bs - 1) / bs ≤ i →
      s.mapped (blocksId bs) i = 0 := by
  have howns : Owns bs base s := h.owns hbs
  refine ⟨fun x => ?_, fun x hx => ?_, howns.inj, howns.apart, howns.sound, howns.beyond⟩
  · rw [howns.used, refers_iff, or_comm (a := s.Data _ x)]
  · rcases (refers_iff x).1 hx with hx | hx
    · exact howns.data_base x hx
    · exact howns.inner_base x hx

/-- An inode in a filesystem whose first 100 blocks are taken. -/
def newInode : IndInode := ⟨0, fun _ => 0, fun _ _ => 0, fun b => decide (b < 100)⟩

/-- A filesystem that hands out the free ones of the blocks from `next` on. -/
def nextEnv (used : ℕ → Bool) (next : ℕ) (hnext : 0 < next) : IndEnv used where
  read _ := .ok ()
  alloc l := if l ≤ 3 ∧ used (next + l) = false then .ok (next + l) else .error Errno.ENOSPC
  noread _ := .ok ()
  dirty _ := true
  free := .ok ()
  fresh l b h := by
    split_ifs at h with hl
    obtain rfl := Except.ok.inj h
    exact ⟨by omega, hl.2⟩
  distinct l l' b h h' := by
    split_ifs at h h'
    have h1 := Except.ok.inj h
    have h2 := Except.ok.inj h'
    omega

theorem nextEnv_fair {used : ℕ → Bool} {next : ℕ} (hnext : 0 < next) (hlt : next + 3 < 2 ^ 32) :
    (nextEnv used next hnext).Fair where
  fits l b h := by
    simp only [nextEnv] at h
    split_ifs at h
    have h1 := Except.ok.inj h
    omega
  dirty _ := rfl
  noread _ := rfl
  free := rfl

/-- The inode with `n` blocks. -/
def grownInode : ℕ → IndInode
  | 0 => newInode
  | n + 1 => (IndInode.ext4FsAppendInodeDblk 1024 (grownInode n)
      (nextEnv (grownInode n).used (100 + 4 * n) (by omega))).2.1

theorem grownInode_reach {n : ℕ} (hsize : ∀ m ≤ n, (grownInode m).size = 1024 * m) (hn : n < 1000) :
    IndReach 1024 (newInode.used, grownInode n) := by
  induction n with
  | zero => exact .new ..
  | succ n ih =>
    refine (ih (fun m hm => hsize m (by omega)) (by omega)).step
      (.append _ _ _ (nextEnv_fair (by omega) (by omega)) ?_)
    rw [hsize n (by omega)]
    omega

theorem grownInode_size : ∀ m ≤ 13, (grownInode m).size = 1024 * m := by
  decide +kernel

theorem reach_owns_grown : IndReach 1024 (newInode.used, grownInode 13) ∧
    ∀ x, (grownInode 13).used x = true ↔
      newInode.used x = true ∨ (grownInode 13).Refers (blocksId 1024) x :=
  have h : IndReach 1024 (newInode.used, grownInode 13) :=
    grownInode_reach grownInode_size (by decide)
  ⟨h, (reach_owns (by decide) h).1⟩

/-- The file with an indirect block, truncated and freed next to a block 7 with its extended
    attributes. -/
theorem life_returns_grown :
    let io : FreeEnv := ⟨fun _ => .ok (), fun _ => .ok (), .ok ()⟩
    let truncated := ext4FsTruncateInode 1024
      (fun _ => nextEnv newInode.used 500 (by decide)) true 0 (grownInode 13)
    let gone := ext4FsFreeInode (blocksId 1024) io 7 truncated.2.1
    (truncated.1 = .ok () ∧ gone.1 = .ok ()) ∧ (truncated.2.2 ++ gone.2.2).Nodup ∧
      ∀ x, gone.2.1.used x = true ↔ newInode.used x = true ∧ ¬ (x = 7 ∧ 7 ≠ 0) := by
  intro io truncated gone
  have htrunc : truncated.1 = .ok () := by decide +kernel
  have hfree : gone.1 = .ok () := by decide +kernel
  have h := life_returns (by decide) (grownInode_reach grownInode_size (by decide)) (fun _ => rfl)
    (fun _ => rfl) htrunc hfree
  exact ⟨⟨htrunc, hfree⟩, h.1, h.2.2⟩

end End

end Lwext4
