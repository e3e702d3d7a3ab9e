/-
  Path resolution over the path string.

  `ext4_generic_open2` goes along the string with an offset, and its callers
  read the last name again from that offset.  `Lwext4.Vfs` takes the path as
  the list of its components; here the two are shown to agree, and the result
  is compared with looking up one component after the other.
-/
import Lwext4.VfsWalk

namespace Lwext4.Vfs

open Lib

/-! ## The string and the offset -/

/-- The loop of `ext4_path_check`, with `k` bytes left from position `i` on. -/
def pathCheckLoop : ℕ → ℕ → List Byte → Bool → ℕ × Bool
  | 0, _, _, isGoal => (0, isGoal)
  | _ + 1, i, [], _ => (i, true)
  | k + 1, i, c :: path, isGoal =>
    if c = slash then (i, false) else pathCheckLoop k (i + 1) path isGoal

/-- `ext4_path_check`.  A component that does not end in time leaves `is_goal`
    as it was. -/
def ext4PathCheck (path : List Byte) (isGoal : Bool) : ℕ × Bool :=
  pathCheckLoop directoryFilenameLen 0 path isGoal

/-- What `ext4_generic_open2` hands back. -/
structure OpenedAt where
  inode : ℕ
  parentInode : ℕ
  nameOff : ℕ
  imode : Mode
  deriving DecidableEq, Repr

section
variable {n rest : List Byte}

/-- Over a name without a slash the loop counts its bytes. -/
theorem pathCheckLoop_skip (hn : slash ∉ n) {k i : ℕ} (hk : n.length ≤ k) (g : Bool) :
    pathCheckLoop k i (n ++ rest) g = pathCheckLoop (k - n.length) (i + n.length) rest g := by
  induction n generalizing k i with
  | nil => rfl
  | cons a n ih =>
    rw [List.mem_cons, not_or] at hn
    cases k with
    | zero => exact absurd hk (Nat.not_succ_le_zero _)
    | succ k =>
      rw [List.cons_append, pathCheckLoop, if_neg fun h => hn.1 h.symm,
        ih hn.2 (Nat.le_of_succ_le_succ hk), List.length_cons, Nat.add_sub_add_right,
        Nat.add_right_comm, Nat.add_assoc]

theorem ext4PathCheck_goal (hn : slash ∉ n) (hl : n.length < directoryFilenameLen) (g : Bool) :
    ext4PathCheck n g = (n.length, true) := by
  have h := @pathCheckLoop_skip n [] hn _ 0 hl.le g
  obtain ⟨k, hk⟩ := Nat.exists_eq_add_of_lt hl
  rw [List.append_nil, hk, show n.length + k + 1 - n.length = k + 1 by omega] at h
  rw [ext4PathCheck, hk, h, pathCheckLoop, Nat.zero_add]

theorem ext4PathCheck_slash (hn : slash ∉ n) (hl : n.length < directoryFilenameLen) (g : Bool) :
    ext4PathCheck (n ++ slash :: rest) g = (n.length, false) := by
  have h := @pathCheckLoop_skip n (slash :: rest) hn _ 0 hl.le g
  obtain ⟨k, hk⟩ := Nat.exists_eq_add_of_lt hl
  rw [hk, show n.length + k + 1 - n.length = k + 1 by omega] at h
  rw [ext4PathCheck, hk, h, pathCheckLoop, if_pos rfl, Nat.zero_add]

theorem ext4PathCheck_long (hn : slash ∉ n) (hl : ¬ n.length < directoryFilenameLen) (g : Bool) :
    ext4PathCheck (n ++ rest) g = (0, g) := by
  have htake : (n.take directoryFilenameLen).length = directoryFilenameLen :=
    List.length_take_of_le (Nat.not_lt.1 hl)
  have h := @pathCheckLoop_skip (n.take directoryFilenameLen)
    (n.drop directoryFilenameLen ++ rest) (fun hm => hn (List.mem_of_mem_take hm))
    directoryFilenameLen 0 htake.le g
  rw [← List.append_assoc, List.take_append_drop, htake, Nat.sub_self] at h
  rw [ext4PathCheck, h, pathCheckLoop]

end

/-- A string is one component, or a component and a slash in front of the rest. -/
theorem cut_path (path : List Byte) :
    slash ∉ path ∨ ∃ n rest, slash ∉ n ∧ path = n ++ slash :: rest := by
  by_cases h : slash ∈ path
  · obtain ⟨n, rest, hp, hn⟩ := List.eq_append_cons_of_mem h
    exact .inr ⟨n, rest, hn, hp⟩
  · exact .inl h

theorem ext4PathCheck_nil (g : Bool) : (ext4PathCheck [] g).1 = 0 := rfl

/-- The loop of `ext4_generic_open2` without `O_CREAT`. -/
def genericOpenLoop (s : Ns) (ftype : FileType) (path : List Byte) (isGoal : Bool)
    (ref nameOff parentInode : ℕ) (imode : Mode) : Except Errno OpenedAt :=
  let c := ext4PathCheck path isGoal
  if h : c.1 = 0 then
    if (ftype = .dir ∨ ftype = .unknown) ∧ c.2 = true then .ok ⟨ref, parentInode, nameOff, imode⟩
    else .error .ENOENT
  else
    match dirFindEntry s ref (path.take c.1) with
    | none => .error .ENOENT
    | some e =>
      let imode := entryMode s e
      if imode ≠ .directory ∧ c.2 = false then .error .ENOENT
      else if ftype ≠ .unknown ∧ imode ≠ correspondInodeMode ftype ∧ c.2 = true then
        .error .ENOENT
      else if c.2 = true then .ok ⟨e.inode, ref, nameOff, imode⟩
      else
        genericOpenLoop s ftype (path.drop (c.1 + 1)) c.2 e.inode (nameOff + c.1 + 1) ref imode
termination_by path.length
decreasing_by
  have hne : path ≠ [] := by
    rintro rfl
    exact h (ext4PathCheck_nil isGoal)
  have := List.length_pos_iff.2 hne
  rw [List.length_drop]
  omega

/-- `ext4_generic_open2` without `O_CREAT` and `O_TRUNC`, with the mount point. -/
def genericOpen2At (w : World) (path : List Byte) (ftype : FileType) :
    Except Errno (ℕ × OpenedAt) :=
  match getMount w.mounts path with
  | none => .error .ENOENT
  | some m =>
    let len := (w.mounts.getD m []).length
    let len := if (path.drop len).head? = some slash then len + 1 else len
    match genericOpenLoop (w.fs m) ftype (path.drop len) false rootIndex len rootIndex
        .directory with
    | .error e => .error e
    | .ok r => .ok (m, r)

/-- The name at an offset of the path, cut at the next slash or the end. -/
def nameAt (path : List Byte) (off : ℕ) : Name := (path.drop off).takeWhile (· ≠ slash)

/-- The name `ext4_remove_orig_reference` gives to `ext4_dir_remove_entry`. -/
def origName (path : List Byte) (nameOff : ℕ) : Name :=
  (path.drop nameOff).take (ext4PathCheck (path.drop nameOff) false).1

/-- The name `ext4_fremove` and `ext4_dir_rm` give to `ext4_unlink`. -/
def unlinkName (path : List Byte) (nameOff : ℕ) : Name :=
  let rest := path.drop nameOff
  let rest := if rest.head? = some slash then rest.tail else rest
  rest.take (ext4PathCheck rest false).1

theorem takeWhile_goal {n : List Byte} (hn : slash ∉ n) : n.takeWhile (· ≠ slash) = n := by
  refine List.takeWhile_eq_self_iff.2 fun c hc => ?_
  simpa using fun h : c = slash => hn (h ▸ hc)

theorem names_at_goal {path : List Byte} {off : ℕ} {n : Name} (hp : path.drop off = n)
    (hn : slash ∉ n) (hl : n.length < directoryFilenameLen) :
    nameAt path off = n ∧ origName path off = n ∧ unlinkName path off = n := by
  have hhead : n.head? ≠ some slash := by
    intro h
    exact hn (List.mem_of_head? h)
  refine ⟨?_, ?_, ?_⟩
  · rw [nameAt, hp, takeWhile_goal hn]
  · rw [origName, hp, ext4PathCheck_goal hn hl, List.take_length]
  · rw [unlinkName, hp, if_neg hhead, ext4PathCheck_goal hn hl, List.take_length]

/-! ## The loop and the components -/

section
variable {s : Ns} {ft : FileType} {path full : List Byte} {ref off parent : ℕ}

/-- The offset leads to the last name, and every caller reads that name there. -/
structure NamedAt (path : List Byte) (off : ℕ) (n : Name) : Prop where
  at_off : nameAt path off = n
  orig : origName path off = n
  unlink : unlinkName path off = n

theorem NamedAt.goal {n : Name} (hp : full.drop off = n) (hn : slash ∉ n)
    (hl : n.length < directoryFilenameLen) : NamedAt full off n := by
  obtain ⟨h1, h2, h3⟩ := names_at_goal hp hn hl
  exact ⟨h1, h2, h3⟩

theorem length_lt_of_pathCheck {n : Name} (h : pathCheck n ≠ 0) :
    n.length < directoryFilenameLen := by
  by_contra hl
  exact h (if_neg hl)

theorem pathCheck_length {n : Name} (h : pathCheck n ≠ 0) : pathCheck n = n.length :=
  if_pos (length_lt_of_pathCheck h)

/-- **The loop over the string finds what the walk over the components finds**,
    and its offset leads to the last component. -/
theorem genericOpenLoop_eq (hp : full.drop off = path) :
    (∃ o off', resolve s ft (path.splitOn slash) ref parent = some o ∧
      genericOpenLoop s ft path false ref off parent .directory =
        .ok ⟨o.inode, o.parent, off', o.imode⟩ ∧ NamedAt full off' o.name) ∨
    (resolve s ft (path.splitOn slash) ref parent = none ∧
      genericOpenLoop s ft path false ref off parent .directory = .error .ENOENT) := by
  induction hk : path.length using Nat.strong_induction_on generalizing path ref off parent with
  | _ k ih =>
  rcases cut_path path with hn | ⟨n, rest, hn, rfl⟩
  · -- the last component
    rw [List.splitOn_eq_singleton hn, resolve, genericOpenLoop]
    by_cases hc : pathCheck path = 0
    · rw [if_pos hc]
      by_cases hl : path.length < directoryFilenameLen
      · have hnil : path = [] := by
          rw [pathCheck, if_pos hl] at hc
          exact List.length_eq_zero_iff.1 hc
        subst hnil
        rw [dif_pos (ext4PathCheck_nil false)]
        by_cases hft : ft = .dir ∨ ft = .unknown
        · rw [if_pos ⟨hft, rfl, rfl⟩, if_pos ⟨hft, rfl⟩]
          exact .inl ⟨_, off, rfl, rfl, .goal hp hn hl⟩
        · rw [if_neg fun h => hft h.1, if_neg fun h => hft h.1]
          exact .inr ⟨rfl, rfl⟩
      · have hnil : path ≠ [] := by
          rintro rfl
          exact hl (by decide)
        have hlong := @ext4PathCheck_long path [] hn hl false
        rw [List.append_nil] at hlong
        rw [hlong, dif_pos rfl, if_neg fun h => hnil h.2.1, if_neg fun h => by cases h.2]
        exact .inr ⟨rfl, rfl⟩
    · have hl := length_lt_of_pathCheck hc
      have hne : path.length ≠ 0 := by rwa [pathCheck_length hc] at hc
      rw [if_neg hc, ext4PathCheck_goal hn hl, dif_neg hne]
      simp only [List.take_length]
      cases dirFindEntry s ref path with
      | none => exact .inr ⟨rfl, rfl⟩
      | some e =>
        simp only [Bool.true_eq_false, and_false, if_false, ne_eq, not_true_eq_false,
          and_true, if_true]
        split_ifs with hbad
        · exact .inr ⟨rfl, rfl⟩
        · exact .inl ⟨_, off, rfl, rfl, .goal hp hn hl⟩
  · -- a component with more behind it
    have hrest : rest.splitOn slash ≠ [] := List.splitOn_ne_nil _ _
    rw [List.splitOn_append_cons_self_of_not_mem hn, resolve, genericOpenLoop]
    by_cases hc : pathCheck n = 0
    · rw [if_pos hc, if_neg fun h => hrest h.2.2]
      by_cases hl : n.length < directoryFilenameLen
      · rw [pathCheck, if_pos hl] at hc
        rw [ext4PathCheck_slash hn hl, dif_pos hc, if_neg fun h => by cases h.2]
        exact .inr ⟨rfl, rfl⟩
      · rw [ext4PathCheck_long hn hl, dif_pos rfl, if_neg fun h => by cases h.2]
        exact .inr ⟨rfl, rfl⟩
    · have hl := length_lt_of_pathCheck hc
      have hne : n.length ≠ 0 := by rwa [pathCheck_length hc] at hc
      rw [if_neg hc, ext4PathCheck_slash hn hl, dif_neg hne]
      simp only [List.take_left']
      cases dirFindEntry s ref n with
      | none => exact .inr ⟨rfl, rfl⟩
      | some e =>
        have hdrop : (n ++ slash :: rest).drop (n.length + 1) = rest := by simp
        have hoff : full.drop (off + n.length + 1) = rest := by
          rw [Nat.add_assoc, ← List.drop_drop, hp, hdrop]
        simp only [hrest, ne_eq, not_false_eq_true, and_true, and_false, if_false,
          Bool.false_eq_true, hdrop]
        by_cases hm : entryMode s e = .directory
        · rw [if_neg (not_not.2 hm), if_neg (not_not.2 hm), hm]
          exact ih rest.length (by rw [← hk]; simp; omega) hoff rfl
        · rw [if_pos hm, if_pos hm]
          exact .inr ⟨rfl, rfl⟩

end

/-- What the string gives the rest of the library: the component's view. -/
def OpenedAt.opened (r : OpenedAt) (path : List Byte) : Opened :=
  ⟨r.inode, r.parentInode, nameAt path r.nameOff, r.imode⟩

theorem comps_eq (w : World) (m : ℕ) (path : List Byte) :
    w.comps m path = (path.drop (if (path.drop (w.mounts.getD m []).length).head? = some slash
      then (w.mounts.getD m []).length + 1 else (w.mounts.getD m []).length)).splitOn slash := by
  rw [World.comps, components]
  split_ifs
  · rw [← List.drop_one, List.drop_drop]
  · rfl

/-- Opening over the string, in the terms of the components. -/
theorem genericOpen2At_eq {w : World} {path : List Byte} {m : ℕ} (ft : FileType)
    (hm : getMount w.mounts path = some m) :
    (∃ o off, resolve (w.fs m) ft (w.comps m path) rootIndex rootIndex = some o ∧
      genericOpen2At w path ft = .ok (m, ⟨o.inode, o.parent, off, o.imode⟩) ∧
      NamedAt path off o.name) ∨
    (resolve (w.fs m) ft (w.comps m path) rootIndex rootIndex = none ∧
      genericOpen2At w path ft = .error .ENOENT) := by
  rw [genericOpen2At, hm, comps_eq]
  simp only
  generalize hlen : (if (path.drop (w.mounts.getD m []).length).head? = some slash
    then (w.mounts.getD m []).length + 1 else (w.mounts.getD m []).length) = len
  rcases @genericOpenLoop_eq (w.fs m) ft _ path rootIndex len rootIndex rfl with
    ⟨o, off, hres, hrun, hname⟩ | ⟨hres, hrun⟩
  · exact .inl ⟨o, off, hres, by rw [hrun], hname⟩
  · exact .inr ⟨hres, by rw [hrun]⟩

end Lwext4.Vfs
