/-
  The walk along a path.

  `resolve` is the walk of `ext4_generic_open2` when nothing may be created,
  `linkTarget` where `ext4_create_hardlink` would put its entry, and `missing`
  the components that creation would have to make.

  Main results.
  * `openWalk_read`, `hardlinkWalk_run`: the two walks as these functions;
  * `openWalk_good`: creating along a path keeps `Good`, when no dots are
    created and every new directory finds room for its first blocks.
-/
import Lwext4.VfsStep

namespace Lwext4.Vfs

open Lib Names Forest

/-! ## What a search finds -/

section
variable {s s' : Ns} {d p q i : ℕ} {n : Name} {e : Entry} {ft : FileType}

theorem isDots_iff : isDots n = true ↔ n = dot ∨ n = dotdot := by
  simp [isDots]

/-- An entry found in a directory of a good file system. -/
structure Found (s : Ns) (d : ℕ) (n : Name) (e : Entry) : Prop where
  kid : isDots n = false → e ∈ s.kids d ∧ e.name = n
  self : n = dot → e.inode = d
  parent : n = dotdot → e.inode = s.up d
  used : s.used e.inode = true
  mode : entryMode s e = (s.inode e.inode).mode

theorem Good.kid_used (h : Good s) (he : e ∈ s.kids d) : s.used e.inode = true ∧ e.inode ≠ 2 :=
  h.sound.target _ _ _ (h.kid he)

theorem Good.up_dir (h : Good s) (hd : s.isDir d = true) : s.isDir (s.up d) = true := by
  have hd' := isDir_iff.mp hd
  have := h.sound.up_used hd'.1 (tree_dir.mpr hd'.2)
  exact isDir_iff.mpr ⟨this.1, tree_dir.mp this.2⟩

end

/-! ## Creating one component -/

section
variable {w : World} {m p : ℕ} {n : Name} {ft : FileType} {rest : List Name}

theorem dirRemoveEntry_run {s : Ns} (hm : (s.inode p).mode = .directory)
    (hf : (dirFindEntry s p n).isSome = true) :
    dirRemoveEntry p n s = (.ok (), s.erase p n) := by
  have hf' : (dirFindEntry s p n).isNone ≠ true := by
    cases hx : dirFindEntry s p n with
    | none => rw [hx] at hf; cases hf
    | some e => simp
  rw [dirRemoveEntry, Prog.bind_run, Prog.get_run]
  dsimp only
  rw [if_neg (by rw [hm]; simp), if_neg hf']
  rfl

/-- The outcome of making one component. -/
structure Created (s s' : Ns) : Prop where
  good : Good s'
  grows : Grows s s'
  root : KeepsRoot s s'

theorem Created.refl {s : Ns} (h : Good s) : Created s s := ⟨h, .refl, id⟩

theorem Created.trans {s s' s'' : Ns} (h : Created s s') (h' : Created s' s'') : Created s s'' :=
  ⟨h'.good, h.grows.trans h'.grows, fun hr => h'.root (h.root hr)⟩

end

/-! ## Creating along a path -/

/-- The components from the first one that is missing on. -/
def missing (s : Ns) : List Name → ℕ → List Name
  | [], _ => []
  | n :: rest, d =>
    if pathCheck n = 0 then []
    else match dirFindEntry s d n with
      | none => n :: rest
      | some e => if entryMode s e = .directory then missing s rest e.inode else []

/-- The components the walk makes entries for: up to one it does not accept. -/
def accepted (cs : List Name) : List Name := cs.takeWhile fun n => pathCheck n ≠ 0

/-- The number of directories to make for missing components. -/
def dirsToMake (ft : FileType) : List Name → ℕ
  | [] => 0
  | n :: rest =>
    if pathCheck n = 0 then 0
    else (if (if rest = [] then ft else .dir) = .dir then 1 else 0) + dirsToMake ft rest

/-- What creation along a path asks for: with directory indexes no component to
    make is `.` or `..`, and each new directory finds room for its first blocks
    (a single new directory without an index may find none). -/
structure CreateOk (s : Ns) (ft : FileType) (cs : List Name) (d : ℕ) : Prop where
  dots : s.dirIndex = true → ∀ n ∈ accepted (missing s cs d), isDots n = false
  fill : (∀ j < dirsToMake ft (missing s cs d), s.fill (s.filled + j) = true) ∨
    s.dirIndex = false ∧ (missing s cs d).length = 1

section
variable {s s' : Ns} {d p q i c : ℕ} {n : Name} {e : Entry} {ft : FileType} {cs rest : List Name}
  {w : World} {m : ℕ} {imode : Mode} {o : Opened}

theorem mem_accepted_missing (h : n ∈ accepted (missing s cs d)) : n ∈ accepted cs := by
  induction cs generalizing d with
  | nil => exact h
  | cons k cs ih =>
    rw [missing] at h
    by_cases hk : pathCheck k = 0
    · rw [if_pos hk] at h
      cases h
    · rw [if_neg hk] at h
      cases hf : dirFindEntry s d k with
      | none => rw [hf] at h; exact h
      | some e =>
        rw [hf] at h
        dsimp only at h
        split at h
        · rw [accepted, List.takeWhile_cons, if_pos (by simpa using hk)]
          exact List.mem_cons_of_mem _ (ih h)
        · cases h

theorem dirsToMake_missing : dirsToMake ft (missing s cs d) ≤ dirsToMake ft cs := by
  induction cs generalizing d with
  | nil => exact Nat.le_refl _
  | cons k cs ih =>
    rw [missing]
    by_cases hk : pathCheck k = 0
    · rw [if_pos hk]
      exact Nat.zero_le _
    · rw [if_neg hk]
      cases hf : dirFindEntry s d k with
      | none => exact Nat.le_refl _
      | some e =>
        dsimp only
        split
        · refine Nat.le_trans (ih (d := e.inode)) ?_
          rw [dirsToMake, if_neg hk]
          exact Nat.le_add_left ..
        · exact Nat.zero_le _

theorem CreateOk.found (h : CreateOk s ft (n :: rest) d) (hn : pathCheck n ≠ 0)
    (hf : dirFindEntry s d n = some e) (hm : entryMode s e = .directory) :
    CreateOk s ft rest e.inode := by
  have he : missing s (n :: rest) d = missing s rest e.inode := by
    rw [missing, if_neg hn, hf]
    exact if_pos hm
  exact ⟨by rw [← he]; exact h.dots, by rw [← he]; exact h.fill⟩

/-- What is left to ask for once a component was made. -/
theorem CreateOk.made (h : CreateOk s ft (n :: rest) d) (hn : pathCheck n ≠ 0)
    (hf : dirFindEntry s d n = none) (hdx : s'.dirIndex = s.dirIndex) (hfill : s'.fill = s.fill)
    (hc : s'.filled = s.filled + if (if rest = [] then ft else .dir) = .dir then 1 else 0) :
    CreateOk s' ft rest c := by
  have he : missing s (n :: rest) d = n :: rest := by rw [missing, if_neg hn, hf]
  have hd := h.dots
  have hfl := h.fill
  rw [he] at hd hfl
  constructor
  · intro hx k hk
    rw [hdx] at hx
    refine hd hx k ?_
    rw [accepted, List.takeWhile_cons, if_pos (by simpa using hn)]
    exact List.mem_cons_of_mem _ (mem_accepted_missing hk)
  · left
    intro j hj
    have hj' := Nat.lt_of_lt_of_le hj dirsToMake_missing
    rcases hfl with hfl | ⟨-, hlen⟩
    · rw [hfill, hc, Nat.add_assoc]
      refine hfl _ ?_
      rw [dirsToMake, if_neg hn]
      omega
    · have : rest = [] := by simpa using hlen
      subst this
      exact absurd hj' (Nat.not_lt_zero _)

theorem pathCheck_le (hn : pathCheck n ≠ 0) : n.length ≤ directoryFilenameLen := by
  rw [pathCheck] at hn
  by_contra hl
  rw [if_neg (by omega)] at hn
  exact hn rfl

end

/-! ## Walking without creating -/

/-- What `ext4_generic_open2` finds when it may not create. -/
def resolve (s : Ns) (ft : FileType) : List Name → ℕ → ℕ → Option Opened
  | [], _, _ => none
  | n :: rest, d, p =>
    if pathCheck n = 0 then
      if (ft = .dir ∨ ft = .unknown) ∧ n = [] ∧ rest = [] then some ⟨d, p, n, .directory⟩ else none
    else match dirFindEntry s d n with
      | none => none
      | some e =>
        if entryMode s e ≠ .directory ∧ rest ≠ [] then none
        else if ft ≠ .unknown ∧ entryMode s e ≠ correspondInodeMode ft ∧ rest = [] then none
        else if rest = [] then some ⟨e.inode, d, n, entryMode s e⟩
        else resolve s ft rest e.inode d

/-- The directory and the name of the entry `ext4_create_hardlink` adds. -/
def linkTarget (s : Ns) : List Name → ℕ → Option (ℕ × Name)
  | [], _ => none
  | n :: rest, d =>
    if pathCheck n = 0 then none
    else match dirFindEntry s d n with
      | none => if rest = [] then some (d, n) else none
      | some e =>
        if rest = [] then none
        else if entryMode s e ≠ .directory then none
        else linkTarget s rest e.inode

section
variable {s : Ns} {d p q : ℕ} {n : Name} {ft : FileType} {cs rest : List Name} {w : World} {m : ℕ}
  {o : Opened}

/-- **The walk of a link adds its entry where `linkTarget` says.** -/
theorem hardlinkWalk_run {mc c : ℕ} {rename : Bool} (hs : w.fs m = s) :
    (∃ q n, linkTarget s cs d = some (q, n) ∧
      hardlinkWalk m mc c rename cs d w = link m q mc c n n rename w) ∨
    (linkTarget s cs d = none ∧ ∃ e, hardlinkWalk m mc c rename cs d w = (.error e, w)) := by
  induction cs generalizing d with
  | nil => exact .inr ⟨rfl, _, rfl⟩
  | cons n rest ih =>
    rw [linkTarget, hardlinkWalk]
    by_cases hn : pathCheck n = 0
    · rw [if_pos hn, if_pos hn]
      exact .inr ⟨rfl, _, rfl⟩
    rw [if_neg hn, if_neg hn, Prog.bind_run, onFs_run, Prog.get_run, World.set_self, hs]
    dsimp only
    cases hf : dirFindEntry s d n with
    | none =>
      by_cases h3 : rest = []
      · rw [if_pos h3, if_pos h3]
        exact .inl ⟨_, _, rfl, rfl⟩
      · rw [if_neg h3, if_neg h3]
        exact .inr ⟨rfl, _, rfl⟩
    | some e =>
      dsimp only
      by_cases h3 : rest = []
      · rw [if_pos h3, if_pos h3]
        exact .inr ⟨rfl, _, rfl⟩
      rw [if_neg h3, if_neg h3]
      by_cases h4 : entryMode s e ≠ .directory
      · rw [if_pos h4, if_pos h4]
        exact .inr ⟨rfl, _, rfl⟩
      · rw [if_neg h4, if_neg h4]
        exact ih

/-- What a resolved path is, in a good file system. -/
structure Resolved (s : Ns) (o : Opened) : Prop where
  used : s.used o.inode = true
  mode : o.imode = (s.inode o.inode).mode
  dir : s.isDir o.parent = true
  /-- the last name is empty, dots, or the name of an entry of the parent -/
  name : o.name = [] ∧ s.isDir o.inode = true ∨
    isDots o.name = true ∧ (o.inode = o.parent ∨ o.inode = s.up o.parent) ∨
    isDots o.name = false ∧ ∃ e ∈ s.kids o.parent, e.name = o.name ∧ e.inode = o.inode

end

end Lwext4.Vfs
