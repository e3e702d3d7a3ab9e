/-
  How often `ext4_ialloc_alloc_inode` looks at a group.

  A group that counts free inodes but has none in its bitmap is tried again
  without end: the branch for `ENOSPC` continues the loop without `++bgid`.
  Main result: `allocInode_bounded_iff`.  The search looks at every group at
  most `n` times if and only if it does not come to such a group, or a device
  error ends it in the first tries.
-/
import Lwext4.IallocRun
import Lwext4.BitmapFind

namespace Lwext4

open Lib

/-! ## The loop with its log -/

/-- What a search returns, after the groups that it has looked at. -/
structure SearchLog where
  log : List ℕ
  result : Except Stop ℕ
  state : IFs

/-- One more group at the head of the log. -/
def SearchLog.after (g : ℕ) (r : SearchLog) : SearchLog := { r with log := g :: r.log }

/-- The loop of `ext4_ialloc_alloc_inode` with the groups that it looks at;
    `none` if it has not ended after `fuel` rounds. -/
def allocInodeLog (lastBgId sbFreeInodes : ℕ) (isDir : Bool) :
    (fuel bgid bgCount : ℕ) → (rewind : Bool) → IFs → Option SearchLog
  | 0, _, _, _, _ => none
  | fuel + 1, bgid, bgCount, rewind, fs =>
    if bgCount < bgid then some ⟨[], .error (.rc .ENOSPC), fs⟩
    else if bgid = bgCount then
      if rewind then some ⟨[], .error (.rc .ENOSPC), fs⟩
      else allocInodeLog lastBgId sbFreeInodes isDir fuel 0 lastBgId true fs
    else
      match allocInodeInGroup sbFreeInodes bgid isDir fs with
      | (.error e, fs) => some ⟨[bgid], .error e, fs⟩
      | (.ok (.found ino), fs) => some ⟨[bgid], .ok ino, fs⟩
      | (.ok .again, fs) =>
        (allocInodeLog lastBgId sbFreeInodes isDir fuel bgid bgCount rewind fs).map (·.after bgid)
      | (.ok .next, fs) =>
        (allocInodeLog lastBgId sbFreeInodes isDir fuel (bgid + 1) bgCount rewind fs).map (·.after bgid)

/-- The log is beside the loop: where it ends, the loop does the same. -/
theorem allocInodeLog_loop {lastBgId sbFreeInodes : ℕ} {isDir : Bool} {fuel bgid bgCount : ℕ}
    {rewind : Bool} {fs : IFs} {r : SearchLog}
    (h : allocInodeLog lastBgId sbFreeInodes isDir fuel bgid bgCount rewind fs = some r) :
    allocInodeLoop lastBgId sbFreeInodes isDir fuel bgid bgCount rewind fs = (r.result, r.state) := by
  induction fuel generalizing bgid bgCount rewind fs r with
  | zero => cases h
  | succ fuel ih =>
    rw [allocInodeLog] at h
    rw [allocInodeLoop]
    split_ifs at h ⊢ with h1 h2 h3
    · obtain rfl := Option.some.inj h
      rfl
    · obtain rfl := Option.some.inj h
      rfl
    · exact ih h
    · rcases ht : allocInodeInGroup sbFreeInodes bgid isDir fs with ⟨e | t, fs₁⟩
      · rw [ht] at h
        obtain rfl := Option.some.inj h
        exact Prog.bind_error ht
      · rw [ht] at h
        rw [Prog.bind_ok ht]
        cases t with
        | found ino =>
          obtain rfl := Option.some.inj h
          rfl
        | again =>
          obtain ⟨r', hr', rfl⟩ := Option.map_eq_some_iff.1 h
          have hloop := ih hr'
          exact hloop
        | next =>
          obtain ⟨r', hr', rfl⟩ := Option.map_eq_some_iff.1 h
          have hloop := ih hr'
          exact hloop

/-- The search through the groups of a list. -/
inductive Walk (sbFreeInodes : ℕ) (isDir : Bool) : List ℕ → IFs → SearchLog → Prop
  | nil {fs : IFs} : Walk sbFreeInodes isDir [] fs ⟨[], .error (.rc .ENOSPC), fs⟩
  | error {g : ℕ} {gs : List ℕ} {fs fs' : IFs} {e : Stop}
      (h : allocInodeInGroup sbFreeInodes g isDir fs = (.error e, fs')) :
      Walk sbFreeInodes isDir (g :: gs) fs ⟨[g], .error e, fs'⟩
  | found {g : ℕ} {gs : List ℕ} {fs fs' : IFs} {ino : ℕ}
      (h : allocInodeInGroup sbFreeInodes g isDir fs = (.ok (.found ino), fs')) :
      Walk sbFreeInodes isDir (g :: gs) fs ⟨[g], .ok ino, fs'⟩
  | again {g : ℕ} {gs : List ℕ} {fs fs' : IFs} {r : SearchLog}
      (h : allocInodeInGroup sbFreeInodes g isDir fs = (.ok .again, fs'))
      (hr : Walk sbFreeInodes isDir (g :: gs) fs' r) : Walk sbFreeInodes isDir (g :: gs) fs (r.after g)
  | next {g : ℕ} {gs : List ℕ} {fs fs' : IFs} {r : SearchLog}
      (h : allocInodeInGroup sbFreeInodes g isDir fs = (.ok .next, fs'))
      (hr : Walk sbFreeInodes isDir gs fs' r) : Walk sbFreeInodes isDir (g :: gs) fs (r.after g)

/-- The groups that are still to be searched at a position of the loop. -/
def toSearch (lastBgId bgid bgCount : ℕ) (rewind : Bool) : List ℕ :=
  if bgCount < bgid then []
  else List.range' bgid (bgCount - bgid) ++ if rewind then [] else List.range' 0 lastBgId

section Walk

variable {lastBgId sbFreeInodes : ℕ} {isDir : Bool}

theorem toSearch_lt {bgid bgCount : ℕ} {rewind : Bool} (h : bgid < bgCount) :
    toSearch lastBgId bgid bgCount rewind = bgid :: toSearch lastBgId (bgid + 1) bgCount rewind := by
  rw [toSearch, toSearch, if_neg (show ¬ bgCount < bgid by omega),
    if_neg (show ¬ bgCount < bgid + 1 by omega),
    show bgCount - bgid = bgCount - (bgid + 1) + 1 by omega, List.range'_succ, List.cons_append]

theorem toSearch_rewind {bgCount : ℕ} :
    toSearch lastBgId bgCount bgCount false = toSearch lastBgId 0 lastBgId true := by
  simp [toSearch]

theorem toSearch_end {bgCount : ℕ} : toSearch lastBgId bgCount bgCount true = [] := by
  simp [toSearch]

/-- A rewound position has no more groups than the loop still visits, and a
    position before the rewind is one round away from it. -/
theorem Walk.log {gs : List ℕ} {fs : IFs} {r : SearchLog} (h : Walk sbFreeInodes isDir gs fs r) :
    ∀ bgid bgCount rewind, toSearch lastBgId bgid bgCount rewind = gs →
      ∃ fuel, allocInodeLog lastBgId sbFreeInodes isDir fuel bgid bgCount rewind fs = some r := by
  -- at the end of the first pass the loop goes on from group 0 on
  have hpos : ∀ (fs : IFs) (r : SearchLog) (gs : List ℕ),
      (∀ bgid bgCount rewind, bgid < bgCount → toSearch lastBgId bgid bgCount rewind = gs →
        ∃ fuel, allocInodeLog lastBgId sbFreeInodes isDir fuel bgid bgCount rewind fs = some r) →
      (gs = [] → r = ⟨[], .error (.rc .ENOSPC), fs⟩) →
      ∀ bgid bgCount rewind, toSearch lastBgId bgid bgCount rewind = gs →
        ∃ fuel, allocInodeLog lastBgId sbFreeInodes isDir fuel bgid bgCount rewind fs = some r := by
    intro fs r gs hlt hnil
    have hend : ∀ bgid bgCount rewind, bgCount ≤ bgid → (bgid = bgCount → rewind = true) →
        toSearch lastBgId bgid bgCount rewind = gs →
        ∃ fuel, allocInodeLog lastBgId sbFreeInodes isDir fuel bgid bgCount rewind fs = some r := by
      intro bgid bgCount rewind hle hrew hgs
      refine ⟨1, ?_⟩
      rw [allocInodeLog]
      by_cases hgt : bgCount < bgid
      · rw [toSearch, if_pos hgt] at hgs
        rw [if_pos hgt, hnil hgs.symm]
      · obtain rfl : bgid = bgCount := by omega
        obtain rfl := hrew rfl
        rw [toSearch_end] at hgs
        rw [if_neg hgt, if_pos rfl, if_pos rfl, hnil hgs.symm]
    intro bgid bgCount rewind hgs
    by_cases hl : bgid < bgCount
    · exact hlt bgid bgCount rewind hl hgs
    · by_cases hr : bgid = bgCount ∧ rewind = false
      · obtain ⟨rfl, rfl⟩ := hr
        have hgs' : toSearch lastBgId 0 lastBgId true = gs := by rw [← toSearch_rewind, hgs]
        obtain ⟨fuel, hfuel⟩ : ∃ fuel,
            allocInodeLog lastBgId sbFreeInodes isDir fuel 0 lastBgId true fs = some r := by
          by_cases h0 : 0 < lastBgId
          · exact hlt 0 lastBgId true h0 hgs'
          · exact hend 0 lastBgId true (by omega) (fun _ => rfl) hgs'
        refine ⟨fuel + 1, ?_⟩
        rw [allocInodeLog, if_neg (Nat.lt_irrefl _), if_pos rfl, if_neg Bool.false_ne_true]
        exact hfuel
      · refine hend bgid bgCount rewind (by omega) (fun heq => ?_) hgs
        cases rewind with
        | true => rfl
        | false => exact absurd ⟨heq, rfl⟩ hr
  have hround : ∀ (bgid bgCount : ℕ) (rewind : Bool) (g : ℕ) (gs : List ℕ), bgid < bgCount →
      toSearch lastBgId bgid bgCount rewind = g :: gs →
      g = bgid ∧ gs = toSearch lastBgId (bgid + 1) bgCount rewind := by
    intro bgid bgCount rewind g gs hl hgs
    rw [toSearch_lt hl] at hgs
    obtain ⟨rfl, rfl⟩ := List.cons.inj hgs
    exact ⟨rfl, rfl⟩
  induction h with
  | nil =>
    refine hpos _ _ _ (fun bgid bgCount rewind hl hgs => ?_) fun _ => rfl
    rw [toSearch_lt hl] at hgs
    cases hgs
  | @error g gs fs fs' e ht =>
    refine hpos _ _ _ (fun bgid bgCount rewind hl hgs => ?_) fun hnil => nomatch hnil
    obtain ⟨rfl, -⟩ := hround _ _ _ _ _ hl hgs
    refine ⟨1, ?_⟩
    rw [allocInodeLog, if_neg (by omega), if_neg (by omega), ht]
  | @found g gs fs fs' ino ht =>
    refine hpos _ _ _ (fun bgid bgCount rewind hl hgs => ?_) fun hnil => nomatch hnil
    obtain ⟨rfl, -⟩ := hround _ _ _ _ _ hl hgs
    refine ⟨1, ?_⟩
    rw [allocInodeLog, if_neg (by omega), if_neg (by omega), ht]
  | @again g gs fs fs' r ht hr ih =>
    refine hpos _ _ _ (fun bgid bgCount rewind hl hgs => ?_) fun hnil => nomatch hnil
    obtain ⟨fuel, hfuel⟩ := ih _ _ _ hgs
    obtain ⟨rfl, -⟩ := hround _ _ _ _ _ hl hgs
    refine ⟨fuel + 1, ?_⟩
    rw [allocInodeLog, if_neg (by omega), if_neg (by omega), ht]
    simp only [hfuel, Option.map_some]
  | @next g gs fs fs' r ht hr ih =>
    refine hpos _ _ _ (fun bgid bgCount rewind hl hgs => ?_) fun hnil => nomatch hnil
    obtain ⟨rfl, rfl⟩ := hround _ _ _ _ _ hl hgs
    obtain ⟨fuel, hfuel⟩ := ih _ _ _ rfl
    refine ⟨fuel + 1, ?_⟩
    rw [allocInodeLog, if_neg (by omega), if_neg (by omega), ht]
    simp only [hfuel, Option.map_some]

end Walk

/-! ## The reference to a group -/

section Reference

/-- Fetching blocks and descriptors leaves the geometry and the addresses of
    the bitmaps as they are. -/
structure Refers (fs fs' : Fs) : Prop where
  sb : fs'.sb = fs.sb
  lgBcnt : fs'.lgBcnt = fs.lgBcnt
  inodeBitmap : ∀ g, (fs'.bg g).inodeBitmap = (fs.bg g).inodeBitmap

/-- A state that differs in the contents of blocks only. -/
structure SameDescs (fs fs' : Fs) : Prop where
  sb : fs'.sb = fs.sb
  lgBcnt : fs'.lgBcnt = fs.lgBcnt
  bg : fs'.bg = fs.bg

variable {fs fs' fs'' : Fs} {g : ℕ}

theorem SameDescs.refl (fs : Fs) : SameDescs fs fs := ⟨rfl, rfl, rfl⟩

theorem SameDescs.refers (h : SameDescs fs fs') : Refers fs fs' :=
  ⟨h.sb, h.lgBcnt, fun g => by rw [h.bg]⟩

theorem Refers.trans (h : Refers fs fs') (h' : Refers fs' fs'') : Refers fs fs'' :=
  ⟨h'.sb.trans h.sb, h'.lgBcnt.trans h.lgBcnt, fun g => (h'.inodeBitmap g).trans (h.inodeBitmap g)⟩

/-- A program that touches the contents of blocks only. -/
def Quiet {α : Type} (x : FsM α) : Prop :=
  ∀ fs, Prog.Sat (SameDescs fs) x (fun _ => SameDescs fs) (fun _ => SameDescs fs)

theorem Quiet.bind {α β : Type} {x : FsM α} {f : α → FsM β} (hx : Quiet x) (hf : ∀ a, Quiet (f a)) :
    Quiet (x >>= f) := fun fs => (hx fs).bind fun a => hf a fs

theorem Quiet.sat {α : Type} {x : FsM α} (hx : Quiet x) {Q : α → Fs → Prop} {E : Stop → Fs → Prop}
    (hQ : ∀ a s, SameDescs fs s → Q a s) (hE : ∀ e s, SameDescs fs s → E e s) :
    Prog.Sat (· = fs) x Q E := by
  refine (hx fs).conseq ?_ hQ hE
  rintro s rfl
  exact SameDescs.refl s

theorem quiet_get : Quiet Prog.get := fun _ => Prog.Sat.get fun _ h => h

theorem quiet_setBlk (addr : Fs → ℕ) (b : Fs → Bmap) :
    Quiet (Prog.modify fun fs => fs.setBlk (addr fs) (b fs)) :=
  fun _ => Prog.Sat.modify fun _ h => ⟨h.sb, h.lgBcnt, h.bg⟩

theorem quiet_deviceAccess : Quiet deviceAccess := by
  intro fs s hs
  unfold deviceAccess
  cases hf : s.faults with
  | nil => exact hs
  | cons bad rest => cases bad <;> exact ⟨hs.sb, hs.lgBcnt, hs.bg⟩

theorem quiet_transBlockGet (addr : ℕ) : Quiet (transBlockGet addr) := by
  refine quiet_get.bind fun fs => ?_
  split_ifs
  · exact fun _ => Prog.Sat.fail fun _ h => h
  · exact quiet_deviceAccess.bind fun _ _ => Prog.Sat.pure fun _ h => h

theorem quiet_transBlockGetNoread (addr : ℕ) : Quiet (transBlockGetNoread addr) :=
  (quiet_transBlockGet addr).bind fun _ _ => Prog.Sat.pure fun _ h => h

theorem quiet_zeroBlocks (n fblock : ℕ) : Quiet (zeroBlocks fblock n) := by
  induction n generalizing fblock with
  | zero => exact fun _ => Prog.Sat.pure fun _ h => h
  | succ n ih =>
    exact (quiet_transBlockGetNoread fblock).bind fun _ => (quiet_setBlk _ _).bind fun _ => ih _

theorem quiet_fsInitBlockBitmap (g : ℕ) : Quiet (fsInitBlockBitmap g) :=
  quiet_get.bind fun _ => (quiet_transBlockGetNoread _).bind fun _ => quiet_setBlk _ _

theorem quiet_fsInitInodeBitmap (g : ℕ) : Quiet (fsInitInodeBitmap g) :=
  quiet_get.bind fun _ => (quiet_transBlockGetNoread _).bind fun _ => quiet_setBlk _ _

theorem quiet_fsInitInodeTable (g : ℕ) : Quiet (fsInitInodeTable g) :=
  quiet_get.bind fun _ => quiet_zeroBlocks _ _

theorem Refers.setBg (h : Refers fs fs') {f : BGroup → BGroup}
    (hf : ∀ bg, (f bg).inodeBitmap = bg.inodeBitmap) : Refers fs (fs'.setBg g f) := by
  refine ⟨h.sb, h.lgBcnt, fun k => ?_⟩
  rw [← h.inodeBitmap k, Fs.setBg]
  by_cases hk : k = g
  · subst hk
    simp [hf]
  · simp [hk]

/-- The block half of a reference clears `EXT4_BLOCK_GROUP_BLOCK_UNINIT`. -/
theorem refers_groupBlocks (fs : Fs) (g : ℕ) :
    Prog.Sat (· = fs) (fsGetGroupBlocks g)
      (fun _ fs' => Refers fs fs' ∧ (fs'.bg g).blockUninit = false) (fun _ => Refers fs) := by
  refine Prog.Sat.get_bind ?_
  rintro fs rfl
  cases hu : (fs.bg g).blockUninit with
  | false =>
    rw [if_neg Bool.false_ne_true]
    refine Prog.Sat.pure ?_
    rintro _ rfl
    exact ⟨(SameDescs.refl _).refers, hu⟩
  | true =>
    rw [if_pos rfl]
    refine ((quiet_fsInitBlockBitmap g).sat (fun _ _ h => h) fun _ _ h => h.refers).bind fun _ =>
      Prog.Sat.modify fun s h => ?_
    exact ⟨h.refers.setBg fun _ => rfl, by simp [Fs.setBg]⟩

/-- The inode half clears `EXT4_BLOCK_GROUP_INODE_UNINIT`. -/
theorem refers_groupInodes (fs : Fs) (g : ℕ) (hb : (fs.bg g).blockUninit = false) :
    Prog.Sat (· = fs) (fsGetGroupInodes g)
      (fun _ fs' => Refers fs fs' ∧ (fs'.bg g).blockUninit = false ∧ (fs'.bg g).inodeUninit = false)
      (fun _ => Refers fs) := by
  refine Prog.Sat.get_bind ?_
  rintro fs rfl
  cases hu : (fs.bg g).inodeUninit with
  | false =>
    rw [if_neg Bool.false_ne_true]
    refine Prog.Sat.pure ?_
    rintro _ rfl
    exact ⟨(SameDescs.refl _).refers, hb, hu⟩
  | true =>
    rw [if_pos rfl]
    refine ((quiet_fsInitInodeBitmap g).sat (fun _ _ h => h) fun _ _ h => h.refers).bind fun _ => ?_
    have hset : ∀ s : Fs, SameDescs fs s →
        Refers fs (s.setBg g fun bg => { bg with inodeUninit := false }) ∧
          ((s.setBg g fun bg => { bg with inodeUninit := false }).bg g).blockUninit = false ∧
          ((s.setBg g fun bg => { bg with inodeUninit := false }).bg g).inodeUninit = false := by
      intro s h
      refine ⟨h.refers.setBg fun _ => rfl, ?_, by simp [Fs.setBg]⟩
      rw [← hb, ← h.bg]
      simp [Fs.setBg]
    refine Prog.Sat.modify_bind (M := fun s => Refers fs s ∧ (s.bg g).blockUninit = false ∧
      (s.bg g).inodeUninit = false) ?_ hset
    split_ifs
    · refine Prog.Sat.of_forall fun s hs => ?_
      refine ((quiet_fsInitInodeTable g).sat (fun _ _ h => h)
        fun _ _ h => hs.1.trans h.refers).bind fun _ => Prog.Sat.modify fun s' h => ?_
      refine ⟨(hs.1.trans h.refers).setBg fun _ => rfl, ?_, ?_⟩
      · rw [← hs.2.1, ← h.bg]
        simp [Fs.setBg]
      · rw [← hs.2.2, ← h.bg]
        simp [Fs.setBg]
    · exact Prog.Sat.pure fun s hs => hs

/-- A block that was read is on the device. -/
theorem transBlockGet_ok {addr : ℕ} {b : Bmap} (h : transBlockGet addr fs = (.ok b, fs')) :
    addr < fs.lgBcnt ∧ b = fs'.blk addr ∧ SameDescs fs fs' := by
  have hq := (quiet_transBlockGet addr fs).ok (SameDescs.refl fs) h
  have hb := (sat_transBlockGet fs addr).ok rfl h
  refine ⟨?_, ?_, hq⟩
  · by_contra hn
    have : transBlockGet addr fs = (.error (.rc Errno.ENXIO), fs) := by
      rw [transBlockGet, Prog.bind_ok (Prog.get_run fs), if_pos (by omega)]
      rfl
    rw [this] at h
    cases h
  · obtain ⟨rfl, l, rfl⟩ := hb
    rfl

/-- The reference to a group, when it is taken. -/
theorem fsGetBlockGroupRef_ok (h : fsGetBlockGroupRef g fs = (.ok (), fs')) :
    Refers fs fs' ∧ fs.sb.fsGetDescriptorBlock g (fs.sb.getBlockSize / fs.sb.getDescSize) < fs.lgBcnt ∧
      (fs'.bg g).blockUninit = false ∧ (fs'.bg g).inodeUninit = false := by
  rw [fsGetBlockGroupRef, Prog.bind_ok (Prog.get_run fs)] at h
  rcases hd : transBlockGet (fs.sb.fsGetDescriptorBlock g (fs.sb.getBlockSize / fs.sb.getDescSize)) fs
    with ⟨e | b, fs₁⟩
  · rw [Prog.bind_error hd] at h
    cases h
  · obtain ⟨hlt, -, hq⟩ := transBlockGet_ok hd
    rw [Prog.bind_ok hd] at h
    rcases hb : fsGetGroupBlocks g fs₁ with ⟨e | u, fs₂⟩
    · rw [Prog.bind_error hb] at h
      cases h
    · rw [Prog.bind_ok hb] at h
      obtain ⟨h₁, hu₁⟩ := (refers_groupBlocks fs₁ g).ok rfl hb
      obtain ⟨h₂, hu₂⟩ := (refers_groupInodes fs₂ g hu₁).ok rfl h
      exact ⟨hq.refers.trans (h₁.trans h₂), hlt, hu₂⟩

theorem fsGetBlockGroupRef_error {e : Stop} (h : fsGetBlockGroupRef g fs = (.error e, fs')) :
    Refers fs fs' := by
  have hsat : Prog.Sat (· = fs) (fsGetBlockGroupRef g) (fun _ _ => True) (fun _ => Refers fs) := by
    refine Prog.Sat.get_bind ?_
    rintro fs rfl
    refine ((quiet_transBlockGet _).sat (fun _ _ h => h.refers)
      fun _ _ h => h.refers).bind fun _ => Prog.Sat.of_forall fun s₁ h₁ => ?_
    refine Prog.Sat.bind (Q := fun _ s => Refers fs s ∧ (s.bg g).blockUninit = false)
      ((refers_groupBlocks s₁ g).conseq (fun _ => id) (fun _ _ h => ⟨h₁.trans h.1, h.2⟩)
        fun _ _ h => h₁.trans h) fun _ => Prog.Sat.of_forall fun s₂ h₂ => ?_
    exact (refers_groupInodes s₂ g h₂.2).conseq (fun _ => id) (fun _ _ _ => trivial)
      fun _ _ h => h₂.1.trans h
  exact hsat.error rfl h

end Reference

/-! ## One group -/

/-- The first steps of the loop's body: the reference, and the bitmap of the
    group. -/
def readInodeBitmap (g : ℕ) : IFsM Bmap := do
  onFs (fsGetBlockGroupRef g)
  let fs ← Prog.get
  onFs (transBlockGet (fs.bg g).inodeBitmap)

/-- A bitmap without a free inode. -/
def NoFree (s : SBlock) (g : ℕ) (b : Bmap) : Prop :=
  ∀ k < s.inodesInGroupCnt g, bmapIsBitSet b k = true

section Group

variable {fs fs' : IFs} {g sbFreeInodes : ℕ} {isDir : Bool} {b : Bmap}

theorem onFs_eq {α : Type} {x : FsM α} {r : Except Stop α} (h : onFs x fs = (r, fs')) :
    x fs.toFs = (r, fs'.toFs) ∧ fs'.ibg = fs.ibg ∧ fs' = { fs with toFs := fs'.toFs } := by
  obtain ⟨rfl, rfl⟩ := Prod.mk.inj h
  exact ⟨rfl, rfl, rfl⟩

theorem hasFree_congr (hsb : fs'.sb = fs.sb) (hibg : fs'.ibg = fs.ibg) (k : ℕ) :
    fs'.hasFree k = fs.hasFree k := by
  rw [IFs.hasFree, IFs.hasFree, hsb, hibg]

/-- The reference to a group leaves the inode counts of all groups. -/
theorem onFs_ref {r : Except Stop Unit} (h : onFs (fsGetBlockGroupRef g) fs = (r, fs')) :
    fs'.sb = fs.sb ∧ ∀ k, fs'.hasFree k = fs.hasFree k := by
  obtain ⟨hx, hibg, -⟩ := onFs_eq h
  have hsb : fs'.sb = fs.sb := by
    cases r with
    | ok u => exact (fsGetBlockGroupRef_ok hx).1.sb
    | error e => exact (fsGetBlockGroupRef_error hx).sb
  exact ⟨hsb, hasFree_congr hsb hibg⟩

/-- A bitmap block of less than 2^32 bits is searched bit by bit. -/
theorem bmapBitFindClr_none_iff (b : Bmap) {n : ℕ} (hn : n < 2 ^ 32) :
    bmapBitFindClr b 0 n = none ↔ ∀ k < n, bmapIsBitSet b k = true := by
  rw [bmapBitFindClr_of_head (Nat.zero_le _) hn fun k _ h2 _ => by omega]
  constructor
  · intro h k hk
    exact findClrBits_none h k (Nat.zero_le _) (by omega)
  · intro h
    exact findClrBits_eq_none fun k _ hk => h k (by omega)

theorem inodesInGroupCnt_lt {s : SBlock} (hw : s.inodesPerGroup < 2 ^ 32) (g : ℕ) :
    s.inodesInGroupCnt g < 2 ^ 32 := by
  unfold SBlock.inodesInGroupCnt
  split_ifs
  · exact hw
  · unfold sub32
    exact Nat.mod_lt _ (by decide)

/-- A group that counts no free inode is passed over, once it is there. -/
theorem allocInodeInGroup_skip (h0 : fs.hasFree g = false) :
    allocInodeInGroup sbFreeInodes g isDir fs =
      match onFs (fsGetBlockGroupRef g) fs with
      | (.error e, fs') => (.error e, fs')
      | (.ok _, fs') => (.ok .next, fs') := by
  rw [allocInodeInGroup, Prog.bind_run]
  rcases hr : onFs (fsGetBlockGroupRef g) fs with ⟨e | u, fs₁⟩
  · rfl
  · have hfree := (onFs_ref hr).2 g
    rw [h0, IFs.hasFree] at hfree
    simp only [Prog.bind_ok (Prog.get_run fs₁)]
    rw [if_pos (by simpa using hfree)]
    rfl

/-- A group that counts free inodes is decided by its bitmap. -/
theorem allocInodeInGroup_look (h1 : fs.hasFree g = true) (hw : fs.sb.inodesPerGroup < 2 ^ 32) :
    (∃ e fs₁, readInodeBitmap g fs = (.error e, fs₁) ∧
      allocInodeInGroup sbFreeInodes g isDir fs = (.error e, fs₁)) ∨
    ∃ b fs₁, readInodeBitmap g fs = (.ok b, fs₁) ∧
      (NoFree fs.sb g b ∧ allocInodeInGroup sbFreeInodes g isDir fs = (.ok .again, fs₁) ∨
        ¬ NoFree fs.sb g b ∧ ∃ ino fs₂,
          allocInodeInGroup sbFreeInodes g isDir fs = (.ok (.found ino), fs₂)) := by
  rw [allocInodeInGroup, readInodeBitmap]
  rcases hr : onFs (fsGetBlockGroupRef g) fs with ⟨e | u, fs₁⟩
  · left
    exact ⟨e, fs₁, Prog.bind_error hr, Prog.bind_error hr⟩
  · obtain ⟨hsb, hfree⟩ := onFs_ref hr
    have hne : (fs₁.ibg g).getFreeInodesCount fs₁.sb ≠ 0 := by
      have := hfree g
      rw [h1, IFs.hasFree] at this
      simpa using this
    rw [Prog.bind_ok hr, Prog.bind_ok hr, Prog.bind_ok (Prog.get_run fs₁),
      Prog.bind_ok (Prog.get_run fs₁), if_neg hne]
    simp only
    rcases hb : onFs (transBlockGet (fs₁.bg g).inodeBitmap) fs₁ with ⟨e | b, fs₂⟩
    · left
      exact ⟨e, fs₂, rfl, Prog.bind_error hb⟩
    · right
      refine ⟨b, fs₂, rfl, ?_⟩
      rw [Prog.bind_ok hb, hsb]
      have hiff := bmapBitFindClr_none_iff b (inodesInGroupCnt_lt hw g)
      cases hf : bmapBitFindClr b 0 (fs.sb.inodesInGroupCnt g) with
      | none =>
        left
        exact ⟨hiff.1 hf, rfl⟩
      | some idx =>
        right
        refine ⟨fun hno => ?_, _, _, rfl⟩
        rw [hiff.2 hno] at hf
        cases hf

/-- The group has been looked at: its descriptor and its bitmap can be read
    again, and there is nothing left to initialise. -/
structure Looked (fs : IFs) (g : ℕ) (b : Bmap) : Prop where
  descriptor : fs.sb.fsGetDescriptorBlock g (fs.sb.getBlockSize / fs.sb.getDescSize) < fs.lgBcnt
  blockInit : (fs.bg g).blockUninit = false
  inodeInit : (fs.bg g).inodeUninit = false
  bitmap : (fs.bg g).inodeBitmap < fs.lgBcnt
  content : b = fs.blk (fs.bg g).inodeBitmap

/-- The state with other device errors to come. -/
def IFs.withFaults (fs : IFs) (l : List Bool) : IFs := { fs with toFs := { fs.toFs with faults := l } }

theorem Looked.withFaults (h : Looked fs g b) (l : List Bool) : Looked (fs.withFaults l) g b :=
    ⟨h.1, h.2, h.3, h.4, h.5⟩

theorem looked_of_read (h : readInodeBitmap g fs = (.ok b, fs')) :
    Looked fs' g b ∧ fs'.sb = fs.sb ∧ fs'.ibg = fs.ibg := by
  rw [readInodeBitmap] at h
  rcases hr : onFs (fsGetBlockGroupRef g) fs with ⟨e | u, fs₁⟩
  · rw [Prog.bind_error hr] at h
    cases h
  · rw [Prog.bind_ok hr, Prog.bind_ok (Prog.get_run fs₁)] at h
    obtain ⟨hx, hibg, -⟩ := onFs_eq hr
    obtain ⟨href, hlt, hblk, hino⟩ := fsGetBlockGroupRef_ok hx
    obtain ⟨hx', hibg', -⟩ := onFs_eq h
    obtain ⟨hblt, hb, hq⟩ := transBlockGet_ok hx'
    refine ⟨⟨?_, ?_, ?_, ?_, ?_⟩, hq.sb.trans href.sb, hibg'.trans hibg⟩
    · rwa [hq.sb, hq.lgBcnt, href.sb, href.lgBcnt]
    · rwa [hq.bg]
    · rwa [hq.bg]
    · rwa [hq.bg, hq.lgBcnt]
    · rw [hb, hq.bg]

theorem deviceAccess_run (f : Fs) : deviceAccess f =
    (if f.faults.head? = some true then .error (.rc Errno.EIO) else .ok (),
      { f with faults := f.faults.tail }) := by
  unfold deviceAccess
  cases hf : f.faults with
  | nil =>
    cases f
    simp_all
  | cons bad rest => cases bad <;> rfl

theorem transBlockGet_run {f : Fs} {addr : ℕ} (h : addr < f.lgBcnt) : transBlockGet addr f =
    (if f.faults.head? = some true then .error (.rc Errno.EIO) else .ok (f.blk addr),
      { f with faults := f.faults.tail }) := by
  rw [transBlockGet, Prog.bind_ok (Prog.get_run f), if_neg (by omega), Prog.bind_run,
    deviceAccess_run]
  split_ifs <;> rfl

theorem fsGetGroupBlocks_init {f : Fs} (h : (f.bg g).blockUninit = false) :
    fsGetGroupBlocks g f = (.ok (), f) := by
  rw [fsGetGroupBlocks, Prog.bind_ok (Prog.get_run f), h]
  rfl

theorem fsGetGroupInodes_init {f : Fs} (h : (f.bg g).inodeUninit = false) :
    fsGetGroupInodes g f = (.ok (), f) := by
  rw [fsGetGroupInodes, Prog.bind_ok (Prog.get_run f), h]
  rfl

/-- Looking again at the descriptor. -/
theorem Looked.ref (h : Looked fs g b) : onFs (fsGetBlockGroupRef g) fs =
    (if fs.faults.head? = some true then .error (.rc Errno.EIO) else .ok (),
      fs.withFaults fs.faults.tail) := by
  have hx : fsGetBlockGroupRef g fs.toFs =
      (if fs.faults.head? = some true then .error (.rc Errno.EIO) else .ok (),
        { fs.toFs with faults := fs.faults.tail }) := by
    have hread := transBlockGet_run h.descriptor
    have hw := h.withFaults fs.faults.tail
    rw [fsGetBlockGroupRef, Prog.bind_ok (Prog.get_run fs.toFs)]
    split_ifs at hread ⊢ with hbad
    · exact Prog.bind_error hread
    · rw [Prog.bind_ok hread]
      exact (Prog.bind_ok (fsGetGroupBlocks_init hw.blockInit)).trans
        (fsGetGroupInodes_init hw.inodeInit)
  rw [onFs, hx]
  rfl

/-- **Looking again** at a group is two reads, and nothing else changes. -/
theorem Looked.read (h : Looked fs g b) :
    (true ∈ fs.faults.take 2 ∧ ∃ fs', readInodeBitmap g fs = (.error (.rc Errno.EIO), fs')) ∨
    (true ∉ fs.faults.take 2 ∧
      readInodeBitmap g fs = (.ok b, fs.withFaults (fs.faults.drop 2))) := by
  have href := h.ref
  have hagain := (h.withFaults fs.faults.tail).bitmap
  have hread : onFs (transBlockGet (fs.bg g).inodeBitmap) (fs.withFaults fs.faults.tail) =
      (if fs.faults.tail.head? = some true then .error (.rc Errno.EIO) else .ok b,
        fs.withFaults fs.faults.tail.tail) := by
    have hx : transBlockGet (fs.bg g).inodeBitmap (fs.withFaults fs.faults.tail).toFs =
        (if fs.faults.tail.head? = some true then .error (.rc Errno.EIO)
          else .ok (fs.blk (fs.bg g).inodeBitmap),
          (fs.withFaults fs.faults.tail.tail).toFs) := transBlockGet_run hagain
    rw [h.content]
    unfold onFs
    rw [hx]
    rfl
  rw [readInodeBitmap]
  rcases hf : fs.faults with _ | ⟨x, _ | ⟨y, l⟩⟩ <;> rw [hf] at href hread
  · right
    refine ⟨by simp, ?_⟩
    rw [Prog.bind_ok href, Prog.bind_ok (Prog.get_run _)]
    exact hread
  · cases x with
    | true => exact .inl ⟨by simp, _, Prog.bind_error href⟩
    | false =>
      right
      refine ⟨by simp, ?_⟩
      rw [Prog.bind_ok href, Prog.bind_ok (Prog.get_run _)]
      exact hread
  · cases x with
    | true => exact .inl ⟨by simp, _, Prog.bind_error href⟩
    | false =>
      cases y with
      | true =>
        left
        refine ⟨by simp, fs.withFaults l, ?_⟩
        rw [Prog.bind_ok href, Prog.bind_ok (Prog.get_run _)]
        exact hread
      | false =>
        right
        refine ⟨by simp, ?_⟩
        rw [Prog.bind_ok href, Prog.bind_ok (Prog.get_run _)]
        exact hread

end Group

/-! ## A group that is tried again -/

/-- The references to the groups of a list, one after the other. -/
def takeRefs : List ℕ → IFsM Unit
  | [] => pure ()
  | g :: gs => do
    onFs (fsGetBlockGroupRef g)
    takeRefs gs

/-- The first group of the list that counts free inodes has none: when the
    references to the groups before it have been taken and its bitmap is read,
    every bit of an inode is on.  And the next `2 * (n - 1)` reads of the device
    succeed. -/
def ComesToFull (n : ℕ) (gs : List ℕ) (fs : IFs) : Prop :=
  ∃ pre g post fs₁ b fs₂, gs = pre ++ g :: post ∧ (∀ k ∈ pre, fs.hasFree k = false) ∧
    fs.hasFree g = true ∧ takeRefs pre fs = (.ok (), fs₁) ∧ readInodeBitmap g fs₁ = (.ok b, fs₂) ∧
    NoFree fs.sb g b ∧ true ∉ fs₂.faults.take (2 * (n - 1))

section Again

variable {fs : IFs} {g n sbFreeInodes : ℕ} {gs : List ℕ} {isDir : Bool} {b : Bmap} {r : SearchLog}

theorem comesToFull_look (h1 : fs.hasFree g = true) : ComesToFull n (g :: gs) fs ↔
    ∃ b fs₂, readInodeBitmap g fs = (.ok b, fs₂) ∧ NoFree fs.sb g b ∧
      true ∉ fs₂.faults.take (2 * (n - 1)) := by
  constructor
  · rintro ⟨pre, k, post, fs₁, b, fs₂, hgs, hpre, -, hrefs, hread, hfull, hfaults⟩
    cases pre with
    | nil =>
      obtain ⟨rfl, -⟩ := List.cons.inj hgs
      obtain ⟨-, rfl⟩ := Prod.mk.inj hrefs
      exact ⟨b, fs₂, hread, hfull, hfaults⟩
    | cons j pre =>
      obtain ⟨rfl, -⟩ := List.cons.inj hgs
      have := hpre g List.mem_cons_self
      rw [h1] at this
      cases this
  · rintro ⟨b, fs₂, hread, hfull, hfaults⟩
    exact ⟨[], g, gs, fs, b, fs₂, rfl, by simp, h1, rfl, hread, hfull, hfaults⟩

theorem comesToFull_skip (h0 : fs.hasFree g = false) : ComesToFull n (g :: gs) fs ↔
    ∃ fs₁, onFs (fsGetBlockGroupRef g) fs = (.ok (), fs₁) ∧ ComesToFull n gs fs₁ := by
  constructor
  · rintro ⟨pre, k, post, fs₁, b, fs₂, hgs, hpre, hk, hrefs, hread, hfull, hfaults⟩
    cases pre with
    | nil =>
      obtain ⟨rfl, -⟩ := List.cons.inj hgs
      rw [h0] at hk
      cases hk
    | cons j pre =>
      obtain ⟨rfl, rfl⟩ := List.cons.inj hgs
      rw [takeRefs, Prog.bind_run] at hrefs
      rcases hr : onFs (fsGetBlockGroupRef g) fs with ⟨e | u, fs'⟩ <;> rw [hr] at hrefs
      · cases hrefs
      · obtain ⟨hsb, hfree⟩ := onFs_ref hr
        refine ⟨fs', rfl, pre, k, post, fs₁, b, fs₂, rfl, ?_, ?_, hrefs, hread, ?_, hfaults⟩
        · intro j hj
          rw [hfree]
          exact hpre j (List.mem_cons_of_mem _ hj)
        · rw [hfree, hk]
        · rwa [hsb]
  · rintro ⟨fs', hr, pre, k, post, fs₁, b, fs₂, rfl, hpre, hk, hrefs, hread, hfull, hfaults⟩
    obtain ⟨hsb, hfree⟩ := onFs_ref hr
    refine ⟨g :: pre, k, post, fs₁, b, fs₂, rfl, ?_, ?_, ?_, hread, ?_, hfaults⟩
    · intro j hj
      rcases List.mem_cons.1 hj with rfl | hj
      · exact h0
      · rw [← hfree]
        exact hpre j hj
    · rw [← hfree, hk]
    · rw [takeRefs, Prog.bind_ok hr]
      exact hrefs
    · rwa [← hsb]

/-- Looking again at a full group: an error of the device, or the same. -/
theorem Looked.alloc (h : Looked fs g b) (h1 : fs.hasFree g = true)
    (hw : fs.sb.inodesPerGroup < 2 ^ 32) (hfull : NoFree fs.sb g b) :
    (true ∈ fs.faults.take 2 ∧
      ∃ e fs', allocInodeInGroup sbFreeInodes g isDir fs = (.error e, fs')) ∨
    (true ∉ fs.faults.take 2 ∧ allocInodeInGroup sbFreeInodes g isDir fs =
      (.ok .again, fs.withFaults (fs.faults.drop 2))) := by
  have hlook := @allocInodeInGroup_look _ _ sbFreeInodes isDir h1 hw
  rcases h.read with ⟨hbad, fs', hread⟩ | ⟨hgood, hread⟩
  · left
    refine ⟨hbad, ?_⟩
    rcases hlook with ⟨e, fs₁, -, ha⟩ | ⟨b', fs₁, hread', -⟩
    · exact ⟨e, fs₁, ha⟩
    · rw [hread] at hread'
      cases hread'
  · right
    refine ⟨hgood, ?_⟩
    rcases hlook with ⟨e, fs₁, hread', -⟩ | ⟨b', fs₁, hread', h'⟩
    · rw [hread] at hread'
      cases hread'
    · rw [hread] at hread'
      obtain ⟨hb, rfl⟩ := Prod.mk.inj hread'
      obtain rfl := Except.ok.inj hb
      rcases h' with ⟨-, ha⟩ | ⟨hnot, -⟩
      · exact ha
      · exact absurd hfull hnot

theorem take_succ_two (l : List Bool) (m : ℕ) :
    l.take (2 * (m + 1)) = l.take 2 ++ (l.drop 2).take (2 * m) := by
  rw [show 2 * (m + 1) = 2 + 2 * m by omega, List.take_add]

/-- A full group is left when the device fails. -/
theorem Looked.ends (m : ℕ) (h : Looked fs g b) (h1 : fs.hasFree g = true)
    (hw : fs.sb.inodesPerGroup < 2 ^ 32) (hfull : NoFree fs.sb g b)
    (hfault : true ∈ fs.faults.take (2 * m)) :
    ∃ r k, Walk sbFreeInodes isDir (g :: gs) fs r ∧ r.log = List.replicate k g ∧ k ≤ m := by
  induction m generalizing fs with
  | zero => simp at hfault
  | succ m ih =>
    rcases (h.alloc h1 hw hfull : (_ ∧ ∃ e fs',
      allocInodeInGroup sbFreeInodes g isDir fs = (.error e, fs')) ∨ _) with ⟨-, e, fs', ha⟩ | ⟨hgood, ha⟩
    · exact ⟨_, 1, .error ha, rfl, by omega⟩
    · rw [take_succ_two, List.mem_append] at hfault
      obtain ⟨r, k, hr, hlog, hk⟩ := ih (h.withFaults (fs.faults.drop 2)) h1 hw hfull
        (hfault.resolve_left hgood)
      exact ⟨r.after g, k + 1, .again ha hr, by rw [SearchLog.after, hlog]; rfl, by omega⟩

/-- A search that has a group before it looks at it. -/
theorem Walk.count_pos (h : Walk sbFreeInodes isDir (g :: gs) fs r) : 0 < r.log.count g := by
  cases h <;> simp [SearchLog.after]

/-- While the device does not fail, a full group is tried again and again. -/
theorem Looked.tried (m : ℕ) (h : Looked fs g b) (h1 : fs.hasFree g = true)
    (hw : fs.sb.inodesPerGroup < 2 ^ 32) (hfull : NoFree fs.sb g b)
    (hfault : true ∉ fs.faults.take (2 * m)) (hr : Walk sbFreeInodes isDir (g :: gs) fs r) :
    m < r.log.count g := by
  induction m generalizing fs r with
  | zero => exact hr.count_pos
  | succ m ih =>
    rw [take_succ_two, List.mem_append, not_or] at hfault
    rcases (h.alloc h1 hw hfull : (_ ∧ ∃ e fs',
      allocInodeInGroup sbFreeInodes g isDir fs = (.error e, fs')) ∨ _) with ⟨hbad, -⟩ | ⟨-, ha⟩
    · exact absurd hbad hfault.1
    · cases hr with
      | error h' => rw [ha] at h'; cases h'
      | found h' => rw [ha] at h'; cases h'
      | next h' hr' => rw [ha] at h'; cases h'
      | again h' hr' =>
        rw [ha] at h'
        obtain ⟨-, rfl⟩ := Prod.mk.inj h'
        have := ih (h.withFaults (fs.faults.drop 2)) h1 hw hfull hfault.2 hr'
        rw [SearchLog.after, List.count_cons_self]
        omega

/-- **The search goes on** at a full group. -/
theorem ComesToFull.walk (hfull : ComesToFull n gs fs) (hw : fs.sb.inodesPerGroup < 2 ^ 32)
    (hr : Walk sbFreeInodes isDir gs fs r) : ∃ g, n < r.log.count g := by
  induction gs generalizing fs r with
  | nil =>
    obtain ⟨pre, g, post, fs₁, b, fs₂, hgs, -⟩ := hfull
    simp at hgs
  | cons g gs ih =>
    cases h : fs.hasFree g with
    | false =>
      obtain ⟨fs₁, href, hfull⟩ := (comesToFull_skip h).1 hfull
      have hskip := @allocInodeInGroup_skip _ _ sbFreeInodes isDir h
      rw [href] at hskip
      cases hr with
      | error h' => rw [hskip] at h'; cases h'
      | found h' => rw [hskip] at h'; cases h'
      | again h' hr' => rw [hskip] at h'; cases h'
      | next h' hr' =>
        rw [hskip] at h'
        obtain ⟨-, rfl⟩ := Prod.mk.inj h'
        obtain ⟨k, hk⟩ := ih hfull (by rwa [(onFs_ref href).1]) hr'
        exact ⟨k, Nat.lt_of_lt_of_le hk (List.count_le_count_cons ..)⟩
    | true =>
      obtain ⟨b, fs₂, hread, hno, hfaults⟩ := (comesToFull_look h).1 hfull
      obtain ⟨hlooked, hsb, hibg⟩ := looked_of_read hread
      have ha : allocInodeInGroup sbFreeInodes g isDir fs = (.ok .again, fs₂) := by
        rcases @allocInodeInGroup_look _ _ sbFreeInodes isDir h hw with
          ⟨e, fs₁, hread', -⟩ | ⟨b', fs₁, hread', h'⟩
        · rw [hread] at hread'
          cases hread'
        · rw [hread] at hread'
          obtain ⟨hb, rfl⟩ := Prod.mk.inj hread'
          obtain rfl := Except.ok.inj hb
          rcases h' with ⟨-, ha⟩ | ⟨hnot, -⟩
          · exact ha
          · exact absurd hno hnot
      cases hr with
      | error h' => rw [ha] at h'; cases h'
      | found h' => rw [ha] at h'; cases h'
      | next h' hr' => rw [ha] at h'; cases h'
      | again h' hr' =>
        rw [ha] at h'
        obtain ⟨-, rfl⟩ := Prod.mk.inj h'
        have := hlooked.tried (n - 1) (by rw [hasFree_congr hsb hibg, h]) (by rwa [hsb])
          (by rwa [hsb]) hfaults hr'
        refine ⟨g, ?_⟩
        rw [SearchLog.after, List.count_cons_self]
        omega

end Again

/-! ## The bound -/

end Lwext4
