/-
  Creating a name, with a device that may fail (`ext4_generic_open2` with
  `O_CREAT`, `ext4_link`, `ext4_dir_dx_init`).

  The functions of `Lwext4.Vfs` with an answer for every step of a creation:
  whether it fails, and what it has done until then.  There is no journal.
  The searches of the walk itself do not fail.

  Main results.
  * `noTrace_iff`: the exact condition under which a creation that fails leaves
    nothing behind, in every iteration of every walk;
  * `creation_leaves_trace`: a directory that is left behind without an inode.
-/
import Lwext4.Fremove

namespace Lwext4.Vfs

open Lib

/-! ## Answers -/

/-- The answer to `ext4_dir_add_entry`.  Where it fails, it may have moved
    entries, and may have added a block that nobody has written to, with the
    entries that happen to be there. -/
structure AddAnswer where
  stop : Option Errno
  order : List Entry → List Entry
  perm : ∀ l, (order l).Perm l
  stale : List Entry
  grow : ℕ

/-- The answers to the steps of one creation: to allocating the inode, to
    adding its entry, to the index of a new directory (where it fails, so many
    blocks are there), to its dot entries, to taking entries out again, to
    freeing the inode, and to finding and loading what was made. -/
structure CreateAnswer where
  alloc : Option Errno
  add : AddAnswer
  dx : Option Errno
  dxBlocks : ℕ
  dot : Option Errno
  dotdot : Option Errno
  remove : Option Errno
  removeDot : Option Errno
  free : FreeAnswer
  reopen : Option Errno

/-- Run a step and do not look at its result. -/
def ignore (x : NsM Unit) : NsM Unit := fun s => (.ok (), (x s).2)

/-! ## The calls -/

/-- What an insertion that fails leaves of the parent. -/
def Ns.addPart (s : Ns) (parent : ℕ) (a : AddAnswer) : Ns :=
  { s with
    freeBlocks := s.freeBlocks - a.grow
    inode := Function.update s.inode parent
      { s.inode parent with
        ents := a.order (s.inode parent).ents ++ a.stale
        data := (s.inode parent).data + a.grow } }

/-- `ext4_dir_add_entry` -/
def dirAddEntryWith (a : AddAnswer) (parent : ℕ) (name : Name) (child : ℕ) (mode : Mode) :
    NsM Unit :=
  match a.stop with
  | some e => do
    Prog.modify fun s => s.addPart parent a
    Prog.fail (.rc e)
  | none => Prog.modify fun s => s.addEntry parent ⟨name, child, mode.entryType⟩

/-- `ext4_dir_remove_entry` -/
def dirRemoveEntryWith (a : Option Errno) (parent : ℕ) (name : Name) : NsM Unit := do
  answer a
  dirRemoveEntry parent name

/-- The blocks `ext4_dir_dx_init` has added to a directory where it stops. -/
def Ns.dxPart (s : Ns) (dir blocks : ℕ) : Ns :=
  { s with
    freeBlocks := s.freeBlocks - blocks
    inode := Function.update s.inode dir
      { s.inode dir with data := (s.inode dir).data + blocks } }

/-- `ext4_dir_dx_init` -/
def dirDxInitWith (a : CreateAnswer) (dir parent : ℕ) : NsM Unit :=
  match a.dx with
  | some e => do
    Prog.modify fun s => s.dxPart dir a.dxBlocks
    Prog.fail (.rc e)
  | none => Prog.modify fun s => s.dxInit dir parent

/-- "." takes the first block of a new directory. -/
def Ns.addDot (s : Ns) (dir : ℕ) : Ns :=
  { s with
    freeBlocks := s.freeBlocks - 1
    inode := Function.update s.inode dir
      { s.inode dir with ents := [⟨dot, dir, .dir⟩], data := (s.inode dir).data + 1 } }

/-- ".." goes behind it. -/
def Ns.addDotdot (s : Ns) (dir parent : ℕ) : Ns :=
  s.setInode dir { s.inode dir with ents := (s.inode dir).ents ++ [⟨dotdot, parent, .dir⟩] }

/-- The dot entries of a new linear directory.  Where one fails, the entry of
    the directory is taken out again, by the name that reaches to the end of
    the path string. -/
def addDotsWith (a : CreateAnswer) (parent ch : ℕ) (path : List Byte) : NsM Unit :=
  match a.dot with
  | some e => do
    ignore (dirRemoveEntryWith a.remove parent path)
    Prog.fail (.rc e)
  | none => do
    Prog.modify fun s => s.addDot ch
    match a.dotdot with
    | some e => do
      ignore (dirRemoveEntryWith a.remove parent path)
      ignore (dirRemoveEntryWith a.removeDot ch dot)
      Prog.fail (.rc e)
    | none => Prog.modify fun s => s.addDotdot ch parent

/-- Fill a new directory. -/
def linkFillWith (a : CreateAnswer) (parent ch : ℕ) (path : List Byte) : NsM Unit := do
  let s ← Prog.get
  if s.dirIndex = true then do
    dirDxInitWith a ch parent
    modifyInode ch fun n => { n with index := true }
  else
    addDotsWith a parent ch path
  modifyInode ch fun n => { n with links := 2 }
  modifyInode parent (fsInodeLinksCountInc s.dirIndex)

/-- `ext4_link` of a new inode -/
def linkWith (a : CreateAnswer) (parent ch : ℕ) (n : Name) (path : List Byte) : NsM Unit := do
  if directoryFilenameLen < n.length then
    Prog.fail (.rc .EINVAL)
  else do
    let s ← Prog.get
    dirAddEntryWith a.add parent n ch (s.inode ch).mode
    if (s.inode ch).mode = .directory then
      linkFillWith a parent ch path
    else
      modifyInode ch (fsInodeLinksCountInc s.dirIndex)

/-- Make the missing component `n` in `dir`. -/
def openCreateWith (a : CreateAnswer) (dir : ℕ) (filetype : FileType) (n : Name)
    (rest : List Name) : NsM Unit := do
  answer a.alloc
  let c ← fsAllocInode filetype
  onFail (linkWith a dir c n (pathFrom n rest)) (fsFreeInodeWith a.free c)

/-- Make the component `n` of `dir` unless it is there.  What was made is
    searched and loaded again. -/
def openMakeWith (a : CreateAnswer) (dir : ℕ) (creat : Bool) (filetype : FileType) (n : Name)
    (rest : List Name) : NsM Unit := do
  let s ← Prog.get
  if (dirFindEntry s dir n).isSome = true then pure ()
  else if creat = true then do
    openCreateWith a dir filetype n rest
    answer a.reopen
  else Prog.fail (.rc .ENOENT)

/-- The type of the component in front of `rest`. -/
def makeType (ftype : FileType) (rest : List Name) : FileType := if rest = [] then ftype else .dir

/-- The loop of `ext4_generic_open2`, from iteration `k` on. -/
def openWalkWith (a : ℕ → CreateAnswer) (creat : Bool) (ftype : FileType) :
    ℕ → List Name → ℕ → ℕ → Mode → NsM Opened
  | _, [], _, _, _ => Prog.fail (.rc .ENOENT)
  | k, n :: rest, dir, parent, imode => do
    if pathCheck n = 0 then
      if (ftype = .dir ∨ ftype = .unknown) ∧ n = [] ∧ rest = [] then
        pure ⟨dir, parent, n, imode⟩
      else
        Prog.fail (.rc .ENOENT)
    else do
      openMakeWith (a k) dir creat (makeType ftype rest) n rest
      let s ← Prog.get
      match dirFindEntry s dir n with
      | none => Prog.fail .assert
      | some e =>
        if entryMode s e ≠ .directory ∧ rest ≠ [] then
          Prog.fail (.rc .ENOENT)
        else if ftype ≠ .unknown ∧ entryMode s e ≠ correspondInodeMode ftype ∧ rest = [] then
          Prog.fail (.rc .ENOENT)
        else if rest = [] then
          pure ⟨e.inode, dir, n, entryMode s e⟩
        else
          openWalkWith a creat ftype (k + 1) rest e.inode dir (entryMode s e)

/-- `ext4_generic_open2` -/
def genericOpen2With (a : ℕ → CreateAnswer) (path : List Byte) (flags : OpenFlags)
    (ftype : FileType) : VfsM Opened := do
  let m ← getMp path
  let w ← Prog.get
  if (w.fs m).readOnly = true ∧ flags.creat = true then
    Prog.fail (.rc .EROFS)
  else do
    let o ← onFs m (openWalkWith a flags.creat ftype 0 (w.comps m path) rootIndex rootIndex
      .directory)
    if flags.trunc = true ∧ o.imode = .file then onFs m (truncInode o.inode) else pure ()
    pure o

/-! ## What a failing creation leaves -/

/-- Nothing of a creation in `dir` is left. -/
structure Traceless (s s' : Ns) (dir : ℕ) : Prop where
  entries : (s'.inode dir).entries.Perm (s.inode dir).entries
  used : s'.used = s.used
  target : ∀ e ∈ (s'.inode dir).entries, s'.used e.inode = true

/-- A component that a walk comes to and does not find. -/
structure CreatePoint where
  k : ℕ
  dir : ℕ
  name : Name
  rest : List Name
  state : Ns

/-- The points of creation the loop comes to, from iteration `k` on. -/
inductive Reaches (a : ℕ → CreateAnswer) (ftype : FileType) :
    ℕ → List Name → ℕ → Ns → CreatePoint → Prop
  | here {k dir : ℕ} {n : Name} {rest : List Name} {s : Ns} (hn : pathCheck n ≠ 0)
    (hnew : dirFindEntry s dir n = none) :
    Reaches a ftype k (n :: rest) dir s ⟨k, dir, n, rest, s⟩
  | next {k dir : ℕ} {n : Name} {rest : List Name} {s s₁ : Ns} {e : Entry} {p : CreatePoint}
    (hn : pathCheck n ≠ 0)
    (hmake : openMakeWith (a k) dir true (makeType ftype rest) n rest s = (.ok (), s₁))
    (hfind : dirFindEntry s₁ dir n = some e) (hmode : entryMode s₁ e = .directory)
    (hrest : rest ≠ []) (hp : Reaches a ftype (k + 1) rest e.inode s₁ p) :
    Reaches a ftype k (n :: rest) dir s p

/-- **A failed creation leaves no trace**: wherever the walk along the path
    makes a component and a step of that fails, the call fails, and the parent
    and the inodes in use are as before. -/
def NoTrace (a : ℕ → CreateAnswer) (w : World) (path : List Byte) (trunc : Bool)
    (ftype : FileType) : Prop :=
  ∀ m, getMount w.mounts path = some m → (w.fs m).readOnly = false →
    ∀ p, Reaches a ftype 0 (w.comps m path) rootIndex (w.fs m) p →
      ∀ e s', openMakeWith (a p.k) p.dir true (makeType ftype p.rest) p.name p.rest p.state =
          (.error e, s') →
        (∃ e' w', genericOpen2With a path ⟨true, trunc⟩ ftype w = (.error e', w') ∧
          Traceless p.state (w'.fs m) p.dir)

/-! ## The condition -/

/-- The inode is free again. -/
def FreeAnswer.Frees (a : FreeAnswer) : Prop := a.stop = none ∨ a.cleared = true

/-- The entries behind the allocation are all made. -/
def CreateAnswer.Makes (a : CreateAnswer) (dirIndex : Bool) (ft : FileType) : Prop :=
  a.add.stop = none ∧ (ft = .dir → if dirIndex = true then a.dx = none
    else a.dot = none ∧ a.dotdot = none)

/-- No inode is allocated. -/
def CreateAnswer.NoInode (a : CreateAnswer) (s : Ns) : Prop :=
  a.alloc ≠ none ∨ (s.choice s.tick).fresh = 0 ∨ s.inodesCount < (s.choice s.tick).fresh ∨
    s.used (s.choice s.tick).fresh = true

/-- The condition for a creation: it gets no inode; or the insertion fails
    without a new block that shows entries, and the inode is freed; or all is
    made and can be opened; or the dot entries of a linear directory fail where
    no component follows, and its entry and its inode are taken back. -/
def PointOk (a : CreateAnswer) (s : Ns) (ft : FileType) (rest : List Name) : Prop :=
  a.NoInode s ∨
    (a.add.stop ≠ none ∧ a.add.stale = [] ∧ a.free.Frees) ∨
    (a.Makes s.dirIndex ft ∧ a.reopen = none) ∨
    (a.add.stop = none ∧ ft = .dir ∧ s.dirIndex = false ∧ (a.dot ≠ none ∨ a.dotdot ≠ none) ∧
      rest = [] ∧ a.remove = none ∧ a.free.Frees)

/-! ## Entries and what they refer to -/

section
variable {s s' s₁ : Ns} {d c i k : ℕ} {n : Name} {ft : FileType} {rest : List Name} {e E : Entry}
  {a : CreateAnswer}

/-- Every entry of a directory refers to an inode in use, and has its type. -/
def Refers (s : Ns) : Prop :=
  ∀ d, s.isDir d = true → ∀ e ∈ (s.inode d).entries,
    s.used e.inode = true ∧ e.type = (s.inode e.inode).mode.entryType

theorem DirTree.refers (ht : DirTree s) : Refers s := by
  intro d hd e he
  rw [(ht.shape d hd).entries, List.mem_append, dotEntries, List.mem_pair] at he
  rcases he with (rfl | rfl) | he
  · obtain ⟨hu, hm⟩ := isDir_iff.1 hd
    refine ⟨hu, ?_⟩
    rw [hm]
    rfl
  · obtain ⟨hu, hm⟩ := isDir_iff.1 (ht.upDir d hd)
    refine ⟨hu, ?_⟩
    rw [hm]
    rfl
  · exact ⟨(ht.kid d e he).1, ht.type d e he⟩

theorem Refers.dir_of_mode (hr : Refers s) (hd : s.isDir d = true)
    (hf : dirFindEntry s d n = some e) (hm : entryMode s e = .directory) :
    s.isDir e.inode = true := by
  obtain ⟨hu, ht⟩ := hr d hd e (List.mem_append_right _ (List.mem_of_find?_eq_some hf))
  refine isDir_iff.2 ⟨hu, ?_⟩
  rw [entryMode, ht, correspond_entryType, ite_self] at hm
  exact hm

/-- What a creation that succeeds makes of the file system: inode `c`, with the
    dots if it is a directory, and its entry `E` in `d`. -/
structure MadeIn (s s' : Ns) (d c : ℕ) (E : Entry) : Prop where
  fresh : s.used c = false
  used : s'.used = Function.update s.used c true
  inode : E.inode = c
  type : E.type = (s'.inode c).mode.entryType
  dots : ∀ e ∈ (s'.inode c).entries, e = ⟨dot, c, .dir⟩ ∨ e = ⟨dotdot, d, .dir⟩
  entries : ∀ e ∈ (s'.inode d).entries, e = E ∨ e ∈ (s.inode d).entries
  mode : (s'.inode d).mode = (s.inode d).mode
  other : ∀ i, i ≠ c → i ≠ d → s'.inode i = s.inode i

theorem MadeIn.mode_of_used (h : MadeIn s s' d c E) (hu : s.used i = true) :
    s'.used i = true ∧ (s'.inode i).mode = (s.inode i).mode := by
  have hi : i ≠ c := by
    rintro rfl
    rw [h.fresh] at hu
    cases hu
  rw [h.used, Function.update_of_ne hi]
  refine ⟨hu, ?_⟩
  by_cases hd : i = d
  · rw [hd]
    exact h.mode
  · rw [h.other i hi hd]

theorem MadeIn.isDir (h : MadeIn s s' d c E) (hd : s.isDir i = true) : s'.isDir i = true := by
  obtain ⟨hu, hm⟩ := isDir_iff.1 hd
  obtain ⟨hu', hm'⟩ := h.mode_of_used hu
  exact isDir_iff.2 ⟨hu', hm'.trans hm⟩

theorem MadeIn.refers (h : MadeIn s s' d c E) (hd : s.isDir d = true) (hr : Refers s) :
    Refers s' := by
  have hold : ∀ k, s.isDir k = true → ∀ e ∈ (s.inode k).entries,
      s'.used e.inode = true ∧ e.type = (s'.inode e.inode).mode.entryType := by
    intro k hk e he
    obtain ⟨hu, ht⟩ := hr k hk e he
    obtain ⟨hu', hm'⟩ := h.mode_of_used hu
    exact ⟨hu', by rw [hm', ht]⟩
  have hc : s'.used c = true := by
    rw [h.used]
    exact Function.update_self ..
  intro k hk e he
  obtain ⟨hu, hm⟩ := isDir_iff.1 hk
  by_cases hkc : k = c
  · subst hkc
    rcases h.dots e he with rfl | rfl
    · refine ⟨hu, ?_⟩
      rw [hm]
      rfl
    · obtain ⟨hu', hm'⟩ := isDir_iff.1 (h.isDir hd)
      refine ⟨hu', ?_⟩
      rw [hm']
      rfl
  by_cases hkd : k = d
  · subst hkd
    rcases h.entries e he with rfl | he
    · rw [h.inode]
      exact ⟨hc, h.type⟩
    · exact hold k hd e he
  · rw [h.other k hkc hkd] at he hm
    rw [h.used, Function.update_of_ne hkc] at hu
    exact hold k (isDir_iff.2 ⟨hu, hm⟩) e he

/-- Nothing is traceless while an entry of an unused inode is there. -/
theorem not_traceless (hr : Refers s) (hd : s.isDir d = true) (hc : s.used E.inode = false)
    (hE : E ∈ (s'.inode d).entries) : ¬ Traceless s s' d := by
  intro h
  have := (hr d hd E (h.entries.mem_iff.1 hE)).1
  rw [hc] at this
  cases this

/-! ## Freeing and taking out -/

theorem free_effect (f : FreeAnswer) (c : ℕ) (s : Ns) :
    (∀ d, d ≠ c → (fsFreeInodeWith f c s).2.inode d = s.inode d) ∧
      (f.Frees → (fsFreeInodeWith f c s).2.used = Function.update s.used c false) ∧
      (¬ f.Frees → (fsFreeInodeWith f c s).2.used = s.used) := by
  rw [fsFreeInodeWith]
  cases hstop : f.stop with
  | none =>
    refine ⟨fun d hd => Function.update_of_ne hd .., fun _ => rfl, fun h => absurd (.inl hstop) h⟩
  | some e =>
    refine ⟨fun d hd => Function.update_of_ne hd .., fun h => ?_, fun h => ?_⟩
    · have hclear : f.cleared = true := by
        refine h.resolve_left ?_
        rw [hstop]
        exact Option.some_ne_none e
      show (if f.cleared = true then _ else _) = _
      rw [if_pos hclear]
    · show (if f.cleared = true then _ else _) = _
      rw [if_neg fun hclear => h (.inr hclear)]

/-- Taking an entry out changes the parent only, and there the entries only. -/
theorem remove_effect (ra : Option Errno) (d : ℕ) (n : Name) (s : Ns) :
    (dirRemoveEntryWith ra d n s).2 = s ∨ (dirRemoveEntryWith ra d n s).2 = s.erase d n := by
  rw [dirRemoveEntryWith]
  cases ra with
  | some e => exact .inl rfl
  | none =>
    rw [Prog.bind_ok answer_none, dirRemoveEntry, Prog.bind_run, Prog.get_run]
    simp only
    split_ifs
    · exact .inl rfl
    · exact .inl rfl
    · exact .inr rfl

theorem remove_found (hm : (s.inode d).mode = .directory)
    (hf : (dirFindEntry s d n).isSome = true) :
    (dirRemoveEntryWith none d n s).2 = s.erase d n := by
  rw [dirRemoveEntryWith, Prog.bind_ok answer_none, dirRemoveEntry_run hm hf]

theorem pathFrom_ne (hrest : rest ≠ []) : pathFrom n rest ≠ n := by
  intro h
  obtain ⟨r, rest, rfl⟩ := List.exists_cons_of_ne_nil hrest
  have := congrArg List.length h
  simp [pathFrom, List.intercalate] at this

/-! ## Making the entry -/

/-- The entry a creation makes. -/
def newEntry (n : Name) (c : ℕ) (ft : FileType) : Entry := ⟨n, c, (newInode ft).mode.entryType⟩

/-- The file system with the new inode and its entry. -/
def Ns.entered (s : Ns) (d c : ℕ) (n : Name) (ft : FileType) : Ns :=
  (s.alloc c (newInode ft)).addEntry d (newEntry n c ft)

theorem place_perm (pl : Placement) (l : List Entry) (e : Entry) : (pl.place l e).Perm (e :: l) := by
  obtain ⟨l', hl, hperm⟩ := pl.front [] l e nofun
  rw [List.nil_append, List.nil_append] at hl
  rw [hl]
  exact hperm

theorem entered_self (hne : d ≠ c) : (s.entered d c n ft).inode d =
    { s.inode d with
      ents := (s.choice s.tick).place.place (s.inode d).ents (newEntry n c ft)
      data := (s.inode d).data + (s.choice s.tick).grow } := by
  have hd : (s.alloc c (newInode ft)).inode d = s.inode d := Function.update_of_ne hne ..
  rw [Ns.entered, Ns.addEntry, hd]
  exact Function.update_self ..

theorem entered_new (hne : d ≠ c) : (s.entered d c n ft).inode c = newInode ft := by
  rw [Ns.entered, Ns.addEntry]
  show Function.update _ d _ c = _
  rw [Function.update_of_ne hne.symm]
  exact Function.update_self ..

theorem entered_of_ne (hd : i ≠ d) (hc : i ≠ c) : (s.entered d c n ft).inode i = s.inode i := by
  rw [Ns.entered, Ns.addEntry]
  show Function.update _ d _ i = _
  rw [Function.update_of_ne hd]
  exact Function.update_of_ne hc ..

theorem entered_mem (hne : d ≠ c) : newEntry n c ft ∈ ((s.entered d c n ft).inode d).ents := by
  rw [entered_self hne]
  exact (place_perm _ _ _).mem_iff.2 List.mem_cons_self

/-- With the entry taken out again the directory is as before. -/
theorem entered_erase (hne : d ≠ c) (hnew : dirFindEntry s d n = none) :
    ((((s.entered d c n ft).inode d).erase n).entries).Perm (s.inode d).entries := by
  rw [entered_self hne]
  refine List.Perm.append_left _ ?_
  have hnot : ∀ x ∈ (s.inode d).ents, x.name ≠ n := by
    intro x hx hn
    have := List.find?_eq_none.1 hnew x hx
    simp [hn] at this
  have hpair : (newEntry n c ft :: (s.inode d).ents).Pairwise fun x y =>
      decide (x.name = n) = true → decide (y.name = n) = true → False := by
    refine List.pairwise_cons.2 ⟨fun y hy _ h => hnot y hy (by simpa using h), ?_⟩
    exact List.pairwise_of_forall_mem_list fun x hx y _ h => (hnot x hx (by simpa using h)).elim
  have h := (List.Perm.eraseP (fun x => decide (x.name = n)) hpair (place_perm
    (s.choice s.tick).place (s.inode d).ents (newEntry n c ft)).symm).symm
  rw [List.eraseP_cons_of_pos (by simp [newEntry])] at h
  exact h

theorem newInode_dir : (newInode ft).mode = .directory ↔ ft = .dir := by
  cases ft <;> simp [newInode, correspondInodeMode]

/-- How `ext4_link` ends for the new inode `c`: with the insertion, with the
    entry left behind, with the entry taken back, or with all made. -/
inductive Linked (a : CreateAnswer) (s : Ns) (d c : ℕ) (n : Name) (ft : FileType)
    (rest : List Name) : Except Stop Unit → Ns → Prop
  | notAdded (e : Stop) (hadd : a.add.stop ≠ none) :
    Linked a s d c n ft rest (.error e) ((s.alloc c (newInode ft)).addPart d a.add)
  | left {s' : Ns} (e : Stop) (hadd : a.add.stop = none) (hmake : ¬ a.Makes s.dirIndex ft)
    (hbad : ¬ (s.dirIndex = false ∧ rest = [] ∧ a.remove = none))
    (hmem : newEntry n c ft ∈ (s'.inode d).entries)
    (hused : s'.used = Function.update s.used c true) : Linked a s d c n ft rest (.error e) s'
  | undone {s' : Ns} (e : Stop) (hadd : a.add.stop = none) (hdir : ft = .dir)
    (hidx : s.dirIndex = false) (hdots : a.dot ≠ none ∨ a.dotdot ≠ none) (hrest : rest = [])
    (hremove : a.remove = none) (hperm : (s'.inode d).entries.Perm (s.inode d).entries)
    (hused : s'.used = Function.update s.used c true) : Linked a s d c n ft rest (.error e) s'
  | made {s' : Ns} (hmake : a.Makes s.dirIndex ft) (h : MadeIn s s' d c (newEntry n c ft)) :
    Linked a s d c n ft rest (.ok ()) s'

/-- Taking the new entry back, by the name `pathFrom n rest`. -/
theorem takeBack (hne : d ≠ c) (hd : (s.inode d).mode = .directory)
    (hnew : dirFindEntry s d n = none) {ra : Option Errno} {s₁ : Ns}
    (hs₁ : s₁.inode d = (s.entered d c n ft).inode d) {s₂ : Ns}
    (hs₂ : s₂ = (dirRemoveEntryWith ra d (pathFrom n rest) s₁).2) :
    s₂.used = s₁.used ∧ (∀ i, i ≠ d → s₂.inode i = s₁.inode i) ∧
      if rest = [] ∧ ra = none then (s₂.inode d).entries.Perm (s.inode d).entries
      else newEntry n c ft ∈ (s₂.inode d).entries := by
  have hmem : newEntry n c ft ∈ (s₁.inode d).ents := by
    rw [hs₁]
    exact entered_mem hne
  have hkeep : s₂.used = s₁.used ∧ ∀ i, i ≠ d → s₂.inode i = s₁.inode i := by
    rcases remove_effect ra d (pathFrom n rest) s₁ with h | h
    · rw [hs₂, h]
      exact ⟨rfl, fun _ _ => rfl⟩
    · rw [hs₂, h]
      exact ⟨rfl, fun i hi => setInode_of_ne hi⟩
  refine ⟨hkeep.1, hkeep.2, ?_⟩
  split_ifs with hback
  · obtain ⟨rfl, rfl⟩ := hback
    have hmode : (s₁.inode d).mode = .directory := by
      rw [hs₁, entered_self hne]
      exact hd
    have hfound : (dirFindEntry s₁ d n).isSome = true := by
      rw [dirFindEntry, List.find?_isSome]
      exact ⟨_, hmem, by simp [newEntry]⟩
    rw [hs₂, show pathFrom n [] = n by simp [pathFrom, List.intercalate], remove_found hmode hfound,
      Ns.erase, setInode_self, hs₁]
    exact entered_erase hne hnew
  · refine List.mem_append_right _ ?_
    rcases remove_effect ra d (pathFrom n rest) s₁ with h | h
    · rw [hs₂, h]
      exact hmem
    · by_cases hrest : rest = []
      · cases ra with
        | none => exact absurd ⟨hrest, rfl⟩ hback
        | some e =>
          rw [hs₂]
          exact hmem
      · rw [hs₂, h, Ns.erase, setInode_self]
        refine (List.mem_eraseP_of_neg ?_).2 hmem
        rw [Bool.not_eq_true]
        exact decide_eq_false (pathFrom_ne hrest).symm

/-- What is made, from what the two inodes have become. -/
theorem entered_made (hne : d ≠ c) (hc : s.used c = false)
    (hused : s'.used = Function.update s.used c true)
    (hmode : (s'.inode c).mode = (newInode ft).mode)
    (hdots : ∀ e ∈ (s'.inode c).entries, e = ⟨dot, c, .dir⟩ ∨ e = ⟨dotdot, d, .dir⟩)
    (hents : (s'.inode d).entries = ((s.entered d c n ft).inode d).entries)
    (hdmode : (s'.inode d).mode = ((s.entered d c n ft).inode d).mode)
    (hother : ∀ i, i ≠ c → i ≠ d → s'.inode i = (s.entered d c n ft).inode i) :
    MadeIn s s' d c (newEntry n c ft) where
  fresh := hc
  used := hused
  inode := rfl
  type := by rw [hmode]; rfl
  dots := hdots
  entries := by
    intro e he
    rw [hents, entered_self hne] at he
    rcases List.mem_append.1 he with he | he
    · exact .inr (List.mem_append_left _ he)
    · rcases List.mem_cons.1 ((place_perm _ _ _).mem_iff.1 he) with rfl | he
      · exact .inl rfl
      · exact .inr (List.mem_append_right _ he)
  mode := by
    rw [hdmode, entered_self hne]
  other := by
    intro i hic hid
    rw [hother i hic hid, entered_of_ne hid hic]

/-- The last steps of a new directory, once its dots are there. -/
theorem filled_made (hne : d ≠ c) (hc : s.used c = false)
    (hused : s₁.used = Function.update s.used c true)
    (hmode : (s₁.inode c).mode = .directory)
    (hdots : (s₁.inode c).entries = dotEntries c d)
    (hother : ∀ i, i ≠ c → s₁.inode i = (s.entered d c n .dir).inode i) :
    ∃ s', (do
        modifyInode c fun n => { n with links := 2 }
        modifyInode d (fsInodeLinksCountInc s.dirIndex) : NsM Unit) s₁ = (.ok (), s') ∧
      MadeIn s s' d c (newEntry n c .dir) := by
  refine ⟨_, rfl, entered_made hne hc hused ?_ ?_ ?_ ?_ ?_⟩
  · rw [setInode_of_ne hne.symm, setInode_self]
    exact hmode
  · rw [setInode_of_ne hne.symm, setInode_self]
    intro e he
    have he' : e ∈ (s₁.inode c).entries := he
    rw [hdots] at he'
    exact List.mem_pair.1 he'
  · rw [setInode_self, setInode_of_ne hne, hother d hne, Inode.entries, Inode.entries,
      incLinks_eq]
  · rw [setInode_self, incLinks_mode, setInode_of_ne hne, hother d hne]
  · intro i hic hid
    rw [setInode_of_ne hid, setInode_of_ne hic, hother i hic]

/-- Filling a new directory. -/
theorem linkFillWith_run (hd : (s.inode d).mode = .directory) (hne : d ≠ c)
    (hc : s.used c = false) (hnew : dirFindEntry s d n = none) (hadd : a.add.stop = none) :
    ∃ r s', linkFillWith a d c (pathFrom n rest) (s.entered d c n .dir) = (r, s') ∧
      Linked a s d c n .dir rest r s' := by
  have hnode : (s.entered d c n .dir).inode c = newInode .dir := entered_new hne
  have hidx : (s.entered d c n .dir).dirIndex = s.dirIndex := rfl
  rw [linkFillWith, Prog.bind_ok (Prog.get_run _), hidx]
  by_cases hi : s.dirIndex = true
  · rw [if_pos hi, dirDxInitWith]
    cases hdx : a.dx with
    | some e =>
      refine ⟨_, _, rfl, .left _ hadd (fun h => ?_) (fun h => ?_) ?_ rfl⟩
      · have := h.2 rfl
        rw [if_pos hi, hdx] at this
        cases this
      · rw [hi] at h
        cases h.1
      · have hdir : ((s.entered d c n .dir).dxPart c a.dxBlocks).inode d =
            (s.entered d c n .dir).inode d := Function.update_of_ne hne ..
        rw [hdir]
        exact List.mem_append_right _ (entered_mem hne)
    | none =>
      have hmake : a.Makes s.dirIndex .dir := by
        refine ⟨hadd, fun _ => ?_⟩
        rw [if_pos hi]
        exact hdx
      have hdots : ((s.entered d c n .dir).dxInit c d).inode c =
          { newInode .dir with dots := dotEntries c d, ents := [], data := 2 } := by
        rw [Ns.dxInit, hnode]
        exact Function.update_self ..
      obtain ⟨s', hrun, hmade⟩ := @filled_made s (((s.entered d c n .dir).dxInit c d).setInode c
        { ((s.entered d c n .dir).dxInit c d).inode c with index := true }) d c n hne hc rfl
        (by rw [setInode_self, hdots]; rfl) (by rw [setInode_self, hdots]; rfl)
        (fun i hic => by rw [setInode_of_ne hic]; exact Function.update_of_ne hic ..)
      exact ⟨_, s', hrun, .made hmake hmade⟩
  · rw [if_neg hi, addDotsWith]
    have hi' : s.dirIndex = false := by simpa using hi
    cases hdot : a.dot with
    | some e =>
      obtain ⟨hused, -, hback⟩ := @takeBack s d c n .dir rest hne hd hnew a.remove _ rfl _ rfl
      split_ifs at hback with hok
      · exact ⟨_, _, rfl, .undone _ hadd rfl hi' (.inl (by simp [hdot])) hok.1 hok.2 hback hused⟩
      · refine ⟨_, _, rfl, .left _ hadd (fun h => ?_) (fun h => hok h.2) hback hused⟩
        have := h.2 rfl
        rw [if_neg hi, hdot] at this
        cases this.1
    | none =>
      have hdir : ((s.entered d c n .dir).addDot c).inode d = (s.entered d c n .dir).inode d :=
        Function.update_of_ne hne ..
      have hself : ((s.entered d c n .dir).addDot c).inode c =
          { newInode .dir with ents := [⟨dot, c, .dir⟩], data := 1 } := by
        rw [Ns.addDot, hnode]
        exact Function.update_self ..
      cases hdd : a.dotdot with
      | some e =>
        obtain ⟨hused, -, hback⟩ := @takeBack s d c n .dir rest hne hd hnew a.remove _ hdir _ rfl
        have hlast : ∀ t : Ns, (dirRemoveEntryWith a.removeDot c dot t).2.used = t.used ∧
            (dirRemoveEntryWith a.removeDot c dot t).2.inode d = t.inode d := by
          intro t
          rcases remove_effect a.removeDot c dot t with h | h
          · rw [h]
            exact ⟨rfl, rfl⟩
          · rw [h]
            exact ⟨rfl, setInode_of_ne hne⟩
        obtain ⟨hused', hinode'⟩ := hlast (dirRemoveEntryWith a.remove d (pathFrom n rest)
          ((s.entered d c n .dir).addDot c)).2
        rw [← hinode'] at hback
        split_ifs at hback with hok
        · exact ⟨_, _, rfl, .undone _ hadd rfl hi' (.inr (by simp [hdd])) hok.1 hok.2 hback
            (hused'.trans hused)⟩
        · refine ⟨_, _, rfl, .left _ hadd (fun h => ?_) (fun h => hok h.2) hback
            (hused'.trans hused)⟩
          have := h.2 rfl
          rw [if_neg hi, hdd] at this
          cases this.2
      | none =>
        have hmake : a.Makes s.dirIndex .dir := by
          refine ⟨hadd, fun _ => ?_⟩
          rw [if_neg hi]
          exact ⟨hdot, hdd⟩
        obtain ⟨s', hrun, hmade⟩ := @filled_made s
          (((s.entered d c n .dir).addDot c).addDotdot c d) d c n hne hc rfl
          (by rw [Ns.addDotdot, setInode_self, hself]; rfl)
          (by rw [Ns.addDotdot, setInode_self, hself]; rfl)
          (fun i hic => by
            rw [Ns.addDotdot, setInode_of_ne hic]
            exact Function.update_of_ne hic ..)
        exact ⟨_, s', hrun, .made hmake hmade⟩

/-- **`ext4_link`** of a new inode. -/
theorem linkWith_run (hd : (s.inode d).mode = .directory) (hne : d ≠ c) (hc : s.used c = false)
    (hnew : dirFindEntry s d n = none) (hlen : n.length ≤ directoryFilenameLen) :
    ∃ r s', linkWith a d c n (pathFrom n rest) (s.alloc c (newInode ft)) = (r, s') ∧
      Linked a s d c n ft rest r s' := by
  have hnode : (s.alloc c (newInode ft)).inode c = newInode ft := Function.update_self ..
  rw [linkWith, if_neg (Nat.not_lt.2 hlen), Prog.bind_ok (Prog.get_run _), hnode, dirAddEntryWith]
  cases hadd : a.add.stop with
  | some e =>
    refine ⟨_, _, rfl, .notAdded _ ?_⟩
    rw [hadd]
    exact Option.some_ne_none e
  | none =>
    rw [Prog.bind_ok (Prog.modify_run _ _)]
    by_cases hdir : (newInode ft).mode = .directory
    · rw [if_pos hdir]
      obtain rfl := newInode_dir.1 hdir
      exact linkFillWith_run hd hne hc hnew hadd
    · rw [if_neg hdir]
      have hft : ft ≠ .dir := fun h => hdir (newInode_dir.2 h)
      refine ⟨_, _, rfl, .made ⟨hadd, fun h => absurd h hft⟩ ?_⟩
      have hself : (s.entered d c n ft).inode c = newInode ft := entered_new hne
      refine entered_made hne hc rfl ?_ ?_ ?_ ?_ ?_
      · rw [setInode_self, incLinks_mode]
        exact congrArg Inode.mode hself
      · rw [setInode_self, incLinks_eq]
        have hents : ((s.entered d c n ft).inode c).entries = [] := congrArg Inode.entries hself
        intro e he
        have he' : e ∈ ((s.entered d c n ft).inode c).entries := he
        rw [hents] at he'
        exact nomatch he'
      · rw [setInode_of_ne hne]
        rfl
      · rw [setInode_of_ne hne]
        rfl
      · intro i hic _
        rw [setInode_of_ne hic]
        rfl

/-- How the making of a component ends: in an error, or with all made. -/
inductive Attempt (a : CreateAnswer) (s : Ns) (d : ℕ) (ft : FileType) (rest : List Name) :
    Except Stop Unit → Ns → Prop
  | failed {s' : Ns} (e : Stop) (hok : Traceless s s' d ↔ PointOk a s ft rest) :
    Attempt a s d ft rest (.error e) s'
  | made {s' : Ns} {c : ℕ} {E : Entry} (hnode : ¬ a.NoInode s) (hmake : a.Makes s.dirIndex ft)
    (h : MadeIn s s' d c E) (hmem : ¬ Traceless s s' d) : Attempt a s d ft rest (.ok ()) s'

theorem traceless_self (hr : Refers s) (hd : s.isDir d = true) : Traceless s s d :=
  ⟨List.Perm.refl _, rfl, fun e he => (hr d hd e he).1⟩

theorem Traceless.of_perm (hr : Refers s) (hd : s.isDir d = true)
    (hperm : (s'.inode d).entries.Perm (s.inode d).entries) (hused : s'.used = s.used) :
    Traceless s s' d := by
  refine ⟨hperm, hused, fun e he => ?_⟩
  rw [hused]
  exact (hr d hd e (hperm.mem_iff.1 he)).1

/-- The new inode: there is none, or it has not been in use. -/
theorem allocInode_cases (halloc : a.alloc = none) :
    (a.NoInode s ∧ fsAllocInode ft s = (.error (.rc .ENOSPC), s)) ∨
    (¬ a.NoInode s ∧ ∃ c, s.used c = false ∧
      fsAllocInode ft s = (.ok c, s.alloc c (newInode ft))) := by
  rw [fsAllocInode, Prog.bind_ok (Prog.get_run s)]
  by_cases hfresh : (s.choice s.tick).fresh = 0 ∨ s.inodesCount < (s.choice s.tick).fresh ∨
      s.used (s.choice s.tick).fresh = true
  · rw [if_pos hfresh]
    exact .inl ⟨.inr hfresh, rfl⟩
  · rw [if_neg hfresh]
    refine .inr ⟨fun h => h.elim (fun h => h halloc) hfresh, (s.choice s.tick).fresh, ?_, rfl⟩
    simp only [not_or] at hfresh
    simpa using hfresh.2.2

section Freed

variable (hr : Refers s) (hd : s.isDir d = true) (hc : s.used c = false) (hne : d ≠ c)
  (hnode : ¬ a.NoInode s)

include hc in
/-- The inode is free again exactly where it is freed. -/
theorem free_used (hu : s₁.used = Function.update s.used c true) :
    (fsFreeInodeWith a.free c s₁).2.used = s.used ↔ a.free.Frees := by
  obtain ⟨-, hfrees, hkeeps⟩ := free_effect a.free c s₁
  by_cases hf : a.free.Frees
  · refine iff_of_true ?_ hf
    rw [hfrees hf, hu, Function.update_idem, ← hc, Function.update_eq_self]
  · refine iff_of_false (fun h => ?_) hf
    rw [hkeeps hf, hu] at h
    have := congrFun h c
    rw [Function.update_self, hc] at this
    cases this

include hr hd hc hne hnode

/-- The entry has not been added. -/
theorem notAdded_iff (hadd : a.add.stop ≠ none) :
    Traceless s (fsFreeInodeWith a.free c ((s.alloc c (newInode ft)).addPart d a.add)).2 d ↔
      PointOk a s ft rest := by
  have hdir : ((s.alloc c (newInode ft)).addPart d a.add).inode d =
      { s.inode d with
        ents := a.add.order (s.inode d).ents ++ a.add.stale
        data := (s.inode d).data + a.add.grow } := by
    have halloc : (s.alloc c (newInode ft)).inode d = s.inode d := Function.update_of_ne hne ..
    rw [Ns.addPart, halloc]
    exact Function.update_self ..
  have hents : (((s.alloc c (newInode ft)).addPart d a.add).inode d).entries =
      (s.inode d).dots ++ (a.add.order (s.inode d).ents ++ a.add.stale) := by
    rw [Inode.entries, hdir]
  have hfree := (free_effect a.free c ((s.alloc c (newInode ft)).addPart d a.add)).1 d hne
  have hu := @free_used _ ((s.alloc c (newInode ft)).addPart d a.add) c a hc rfl
  constructor
  · intro h
    refine .inr (.inl ⟨hadd, ?_, hu.1 h.used⟩)
    have hlen := h.entries.length_eq
    have hord := (a.add.perm (s.inode d).ents).length_eq
    rw [hfree, hents, Inode.entries] at hlen
    simp only [List.length_append] at hlen
    exact List.length_eq_zero_iff.1 (by omega)
  · rintro (h | ⟨-, hstale, hf⟩ | ⟨⟨h, -⟩, -⟩ | ⟨h, -⟩)
    · exact absurd h hnode
    · refine .of_perm hr hd ?_ (hu.2 hf)
      rw [hfree, hents, hstale, List.append_nil]
      exact (a.add.perm _).append_left _
    · exact absurd h hadd
    · exact absurd h hadd

/-- The entry has been added and taken back again. -/
theorem undone_iff (hadd : a.add.stop = none) (hdir : ft = .dir) (hi : s.dirIndex = false)
    (hdots : a.dot ≠ none ∨ a.dotdot ≠ none) (hrest : rest = []) (hrem : a.remove = none)
    (hperm : (s₁.inode d).entries.Perm (s.inode d).entries)
    (hu : s₁.used = Function.update s.used c true) :
    Traceless s (fsFreeInodeWith a.free c s₁).2 d ↔ PointOk a s ft rest := by
  have hused := @free_used _ _ c a hc hu
  have hperm' : ((fsFreeInodeWith a.free c s₁).2.inode d).entries.Perm (s.inode d).entries := by
    rw [(free_effect a.free c s₁).1 d hne]
    exact hperm
  constructor
  · intro h
    exact .inr (.inr (.inr ⟨hadd, hdir, hi, hdots, hrest, hrem, hused.1 h.used⟩))
  · rintro (h | ⟨h, -⟩ | ⟨⟨-, h⟩, -⟩ | ⟨-, -, -, -, -, -, hf⟩)
    · exact absurd h hnode
    · exact absurd hadd h
    · have := h hdir
      rw [hi, if_neg Bool.false_ne_true] at this
      exact absurd hdots (by simp [this.1, this.2])
    · exact .of_perm hr hd hperm' (hused.2 hf)

end Freed

/-- **One component** is made. -/
theorem openCreateWith_run (hr : Refers s) (hd : s.isDir d = true)
    (hnew : dirFindEntry s d n = none) (hlen : n.length ≤ directoryFilenameLen) :
    ∃ r s', openCreateWith a d ft n rest s = (r, s') ∧ Attempt a s d ft rest r s' := by
  have hfail : a.NoInode s → (Traceless s s d ↔ PointOk a s ft rest) := fun h =>
    iff_of_true (traceless_self hr hd) (.inl h)
  rw [openCreateWith]
  cases halloc : a.alloc with
  | some e =>
    refine ⟨_, _, rfl, .failed _ (hfail (.inl ?_))⟩
    rw [halloc]
    exact Option.some_ne_none e
  | none =>
    rw [Prog.bind_ok answer_none]
    rcases @allocInode_cases s ft a halloc with ⟨hno, hrun⟩ | ⟨hnode, c, hc, hrun⟩
    · exact ⟨_, _, Prog.bind_error hrun, .failed _ (hfail hno)⟩
    rw [Prog.bind_ok hrun]
    have hne : d ≠ c := by
      rintro rfl
      rw [(isDir_iff.1 hd).1] at hc
      cases hc
    obtain ⟨r, s₁, hlink, hend⟩ := @linkWith_run s d c n ft rest a (isDir_iff.1 hd).2 hne hc hnew hlen
    rw [onFail, hlink]
    cases hend with
    | notAdded e hadd =>
      exact ⟨_, _, rfl, .failed e (notAdded_iff hr hd hc hne hnode hadd)⟩
    | left e hadd hmake hbad hmem hu =>
      refine ⟨_, _, rfl, .failed e (iff_of_false ?_ ?_)⟩
      · refine not_traceless (E := newEntry n c ft) hr hd hc ?_
        rw [(free_effect a.free c s₁).1 d hne]
        exact hmem
      · rintro (h | ⟨h, -⟩ | ⟨h, -⟩ | ⟨-, -, hi, -, hrest, hrem, -⟩)
        · exact hnode h
        · exact h hadd
        · exact hmake h
        · exact hbad ⟨hi, hrest, hrem⟩
    | undone e hadd hdir hi hdots hrest hrem hperm hu =>
      exact ⟨_, _, rfl, .failed e
        (undone_iff hr hd hc hne hnode hadd hdir hi hdots hrest hrem hperm hu)⟩
    | made hmake h =>
      refine ⟨_, _, rfl, .made hnode hmake h fun htl => ?_⟩
      have := congrFun htl.used c
      rw [h.used, Function.update_self, hc] at this
      cases this

theorem openMakeWith_new (hnew : dirFindEntry s d n = none) :
    openMakeWith a d true ft n rest s =
      (openCreateWith a d ft n rest >>= fun _ => answer a.reopen) s := by
  rw [openMakeWith, Prog.bind_ok (Prog.get_run s), hnew]
  rfl

/-- **At one point**: no failure leaves a trace exactly under the condition. -/
theorem pointOk_iff (hr : Refers s) (hd : s.isDir d = true) (hnew : dirFindEntry s d n = none)
    (hlen : n.length ≤ directoryFilenameLen) :
    (∀ e s', openMakeWith a d true ft n rest s = (.error e, s') → Traceless s s' d) ↔
      PointOk a s ft rest := by
  obtain ⟨r, s₁, hrun, hend⟩ := @openCreateWith_run s d n ft rest a hr hd hnew hlen
  rw [openMakeWith_new hnew]
  cases hend with
  | failed e hok =>
    rw [Prog.bind_error hrun, ← hok]
    constructor
    · exact fun h => h e s₁ rfl
    · intro h e' s' heq
      cases heq
      exact h
  | made hnode hmake h htl =>
    rw [Prog.bind_ok hrun]
    cases hre : a.reopen with
    | none => exact iff_of_true (fun _ _ h => nomatch h) (.inr (.inr (.inl ⟨hmake, hre⟩)))
    | some e =>
      refine iff_of_false (fun h => htl (h _ _ rfl)) ?_
      rintro (h | ⟨h, -⟩ | ⟨-, h⟩ | ⟨-, hdir, hi, hdots, -⟩)
      · exact hnode h
      · exact h hmake.1
      · rw [hre] at h
        cases h
      · have := hmake.2 hdir
        rw [hi, if_neg Bool.false_ne_true] at this
        exact absurd hdots (by simp [this.1, this.2])

/-- A component that is there or has been made. -/
theorem openMakeWith_next {u : Unit} (hr : Refers s) (hd : s.isDir d = true)
    (hlen : n.length ≤ directoryFilenameLen)
    (hrun : openMakeWith a d true ft n rest s = (.ok u, s₁)) :
    Refers s₁ ∧ ∀ i, s.isDir i = true → s₁.isDir i = true := by
  cases hf : dirFindEntry s d n with
  | some e =>
    rw [openMakeWith, Prog.bind_ok (Prog.get_run s), hf] at hrun
    cases hrun
    exact ⟨hr, fun _ => id⟩
  | none =>
    rw [openMakeWith_new hf] at hrun
    obtain ⟨r, s₂, hrun₂, hend⟩ := @openCreateWith_run s d n ft rest a hr hd hf hlen
    obtain ⟨v, s₃, h₃, hre⟩ := Prog.bind_inv hrun
    rw [hrun₂] at h₃
    cases hend with
    | failed e hok => cases h₃
    | made hnode hmake h htl =>
      cases h₃
      cases hre' : a.reopen with
      | some e =>
        rw [hre'] at hre
        cases hre
      | none =>
        rw [hre'] at hre
        cases hre
        exact ⟨h.refers hd hr, fun i => h.isDir⟩

end

/-! ## The walk -/

section
variable {a : ℕ → CreateAnswer} {ftype : FileType} {k d : ℕ} {cs : List Name} {s : Ns}
  {p : CreatePoint} {w : World} {path : List Byte} {trunc : Bool}

/-- What holds where the walk makes a component. -/
structure CreatePoint.Ok (p : CreatePoint) : Prop where
  refers : Refers p.state
  dir : p.state.isDir p.dir = true
  new : dirFindEntry p.state p.dir p.name = none
  short : p.name.length ≤ directoryFilenameLen

theorem Reaches.ok (h : Reaches a ftype k cs d s p) (hr : Refers s) (hd : s.isDir d = true) :
    p.Ok := by
  induction h with
  | here hn hnew => exact ⟨hr, hd, hnew, pathCheck_le hn⟩
  | next hn hmake hfind hmode hrest _ ih =>
    obtain ⟨hr₁, hdir⟩ := openMakeWith_next hr hd (pathCheck_le hn) hmake
    exact ih hr₁ (hr₁.dir_of_mode (hdir _ hd) hfind hmode)

/-- The walk ends with the error of a component it cannot make. -/
theorem Reaches.walk {e : Stop} {s' : Ns} (h : Reaches a ftype k cs d s p)
    (hfail : openMakeWith (a p.k) p.dir true (makeType ftype p.rest) p.name p.rest p.state =
      (.error e, s')) (parent : ℕ) (imode : Mode) :
    openWalkWith a true ftype k cs d parent imode s = (.error e, s') := by
  induction h generalizing parent imode with
  | here hn hnew =>
    rw [openWalkWith, if_neg hn]
    exact Prog.bind_error hfail
  | @next k dir n rest s s₁ e p hn hmake hfind hmode hrest _ ih =>
    rw [openWalkWith, if_neg hn, Prog.bind_ok hmake, Prog.bind_ok (Prog.get_run _), hfind]
    dsimp only
    rw [if_neg fun h => h.1 hmode, if_neg fun h => hrest h.2.2, if_neg hrest]
    exact ih hfail _ _

/-- A component that cannot be made ends the call with its error. -/
theorem Reaches.call {m : ℕ} {e : Stop} {s' : Ns} (hm : getMount w.mounts path = some m)
    (hro : (w.fs m).readOnly = false)
    (hp : Reaches a ftype 0 (w.comps m path) rootIndex (w.fs m) p)
    (hfail : openMakeWith (a p.k) p.dir true (makeType ftype p.rest) p.name p.rest p.state =
      (.error e, s')) :
    genericOpen2With a path ⟨true, trunc⟩ ftype w = (.error e, w.set m s') := by
  have hmp : getMp path w = (.ok m, w) := by
    rw [getMp, Prog.bind_ok (Prog.get_run w), hm]
    rfl
  rw [genericOpen2With, Prog.bind_ok hmp, Prog.bind_ok (Prog.get_run w), hro,
    if_neg fun h => by cases h.1]
  refine Prog.bind_error ?_
  rw [onFs_run, hp.walk hfail]

/-- Every point of the walk meets the condition. -/
def PointsOk (a : ℕ → CreateAnswer) (w : World) (path : List Byte) (ftype : FileType) : Prop :=
  ∀ m, getMount w.mounts path = some m → (w.fs m).readOnly = false →
    ∀ p, Reaches a ftype 0 (w.comps m path) rootIndex (w.fs m) p →
      PointOk (a p.k) p.state (makeType ftype p.rest) p.rest

theorem NoTrace.pointsOk (ht : ∀ m, DirTree (w.fs m)) (h : NoTrace a w path trunc ftype) :
    PointsOk a w path ftype := by
  intro m hm hro p hp
  have hok := hp.ok (ht m).refers (ht m).rootDir
  refine (pointOk_iff hok.refers hok.dir hok.new hok.short).1 fun e s' hfail => ?_
  obtain ⟨e', w', hrun, htl⟩ := h m hm hro p hp e s' hfail
  rw [hp.call hm hro hfail] at hrun
  cases hrun
  rwa [World.set_fs] at htl

theorem PointsOk.noTrace (ht : ∀ m, DirTree (w.fs m)) (h : PointsOk a w path ftype) :
    NoTrace a w path trunc ftype := by
  intro m hm hro p hp e s' hfail
  have hok := hp.ok (ht m).refers (ht m).rootDir
  refine ⟨e, _, hp.call hm hro hfail, ?_⟩
  rw [World.set_fs]
  exact (pointOk_iff hok.refers hok.dir hok.new hok.short).2 (h m hm hro p hp) e s' hfail

/-- **A failed creation leaves no trace exactly** under the condition, wherever
    the walk makes a component. -/
theorem noTrace_iff (ht : ∀ m, DirTree (w.fs m)) :
    NoTrace a w path trunc ftype ↔ PointsOk a w path ftype :=
  ⟨fun h => h.pointsOk ht, fun h => h.noTrace ht⟩

end

/-! ## A directory in the root -/

/-- The root with "d", with inode `12` as the next one, with or without the
    index of directories. -/
def oneDirNext (dirIndex : Bool) : Ns :=
  { oneDir with
    dirIndex := dirIndex
    choice := fun _ => ⟨12, true, 0, ⟨fun l e => l ++ [e], place_last⟩⟩ }

theorem oneDirNext_tree (dirIndex : Bool) : DirTree (oneDirNext dirIndex) :=
  ⟨oneDir_tree.rootDir, oneDir_tree.rootUp, oneDir_tree.shape, oneDir_tree.named, oneDir_tree.kid,
    oneDir_tree.type, oneDir_tree.parent, oneDir_tree.upDir, oneDir_tree.rooted⟩

def oneDirNextWorld (dirIndex : Bool) : World := ⟨[[47]], fun _ => oneDirNext dirIndex⟩

/-- There is no space for the first block of a new directory. -/
def noSpace : CreateAnswer where
  alloc := none
  add := ⟨none, id, fun _ => List.Perm.refl _, [], 0⟩
  dx := some .ENOSPC
  dxBlocks := 0
  dot := some .ENOSPC
  dotdot := none
  remove := none
  removeDot := none
  free := ⟨none, 0, false⟩
  reopen := none

/-- "/e" cannot be made in a file system without indexes, and is not there. -/
theorem noTrace_e : NoTrace (fun _ => noSpace) (oneDirNextWorld false) [47, 101] false .dir := by
  refine (noTrace_iff fun _ => oneDirNext_tree false).2 fun m hm _ p hp => ?_
  obtain rfl : m = 0 := (Option.some.inj hm).symm
  have hcs : (oneDirNextWorld false).comps 0 [47, 101] = [[101]] := by rfl
  rw [hcs] at hp
  cases hp with
  | here hn hnew =>
    refine .inr (.inr (.inr ⟨rfl, rfl, rfl, .inl ?_, rfl, rfl, .inl rfl⟩))
    exact Option.some_ne_none _
  | next hn hmake hfind hmode hrest => exact absurd rfl hrest

/-- A new directory is left behind without its inode: "/e" where there are
    indexes, and "e" on the way to "/e/f" where there are none. -/
theorem creation_leaves_trace :
    ((∀ m, DirTree ((oneDirNextWorld true).fs m)) ∧
      ¬ NoTrace (fun _ => noSpace) (oneDirNextWorld true) [47, 101] false .dir) ∧
    (∀ m, DirTree ((oneDirNextWorld false).fs m)) ∧
      ¬ NoTrace (fun _ => noSpace) (oneDirNextWorld false) [47, 101, 47, 102] false .regFile := by
  refine ⟨⟨fun _ => oneDirNext_tree true, fun h => ?_⟩, fun _ => oneDirNext_tree false, fun h => ?_⟩
  · have hp : Reaches (fun _ => noSpace) .dir 0 ((oneDirNextWorld true).comps 0 [47, 101]) rootIndex
        (oneDirNext true) ⟨0, 2, [101], [], oneDirNext true⟩ := .here (by decide) rfl
    rcases h.pointsOk (fun _ => oneDirNext_tree true) 0 rfl rfl _ hp with
      (h | h | h | h) | ⟨h, -⟩ | ⟨⟨-, h⟩, -⟩ | ⟨-, -, h, -⟩
    · exact h rfl
    · cases h
    · exact absurd h (by decide)
    · cases h
    · exact h rfl
    · cases h rfl
    · cases h
  · have hp : Reaches (fun _ => noSpace) .regFile 0
        ((oneDirNextWorld false).comps 0 [47, 101, 47, 102]) rootIndex (oneDirNext false)
        ⟨0, 2, [101], [[102]], oneDirNext false⟩ := .here (by decide) rfl
    rcases h.pointsOk (fun _ => oneDirNext_tree false) 0 rfl rfl _ hp with
      (h | h | h | h) | ⟨h, -⟩ | ⟨⟨-, h⟩, -⟩ | ⟨-, -, -, -, h, -⟩
    · exact h rfl
    · cases h
    · exact absurd h (by decide)
    · cases h
    · exact h rfl
    · cases (h rfl).1
    · cases h

end Lwext4.Vfs
